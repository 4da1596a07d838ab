import WasmMachine.Binary.Module
import WasmMachine.Proofs.CodeForms

/-!
# The forms of sections

Each part of a module as it is written, with its code as nested expressions, next to what it
declares; the bytes of the one are read back as the other.  A segment has a form for each of its
tags, so that a form that does not exist cannot be written (`ElemSource`, `DataSource`).  A
section is decoded from its payload, and a row of sections from their frames
(`sectionsFrom_encode`).
-/

namespace WasmMachine

open Leb128 (ofNat)

/-! ## Imports and exports -/

def ImportDesc.encode : ImportDesc → List UInt8
  | .func type => 0x00 :: type.encode
  | .table type => 0x01 :: type.encode
  | .mem type => 0x02 :: type.encode
  | .global type => 0x03 :: type.encode

def Import.encode (i : Import) : List UInt8 :=
  encodeName i.module ++ (encodeName i.name ++ i.desc.encode)

theorem Import.encode_ne_nil (i : Import) : i.encode ≠ [] :=
  List.append_ne_nil_of_left_ne_nil (encodeName_ne_nil i.module) _

def ExportDesc.encode : ExportDesc → List UInt8
  | .func idx => 0x00 :: idx.encode
  | .table idx => 0x01 :: idx.encode
  | .mem idx => 0x02 :: idx.encode
  | .global idx => 0x03 :: idx.encode

def Export.encode (e : Export) : List UInt8 := encodeName e.name ++ e.desc.encode

theorem Export.encode_ne_nil (e : Export) : e.encode ≠ [] :=
  List.append_ne_nil_of_left_ne_nil (encodeName_ne_nil e.name) _

namespace Decoder.Reads

theorem importDesc (d : ImportDesc) : Decoder.importDesc.Reads d.encode d := by
  cases d with
  | func type => exact afterByte (idx type).map
  | table type => exact afterByte (tableType type).map
  | mem type => exact afterByte (memType type).map
  | global type => exact afterByte (globalType type).map

/-- An import is two names and what it asks for. -/
theorem importDecl (i : Import) : Decoder.importDecl.Reads i.encode i :=
  (name i.module).bind ((name i.name).bind (importDesc i.desc).map)

theorem exportDesc (d : ExportDesc) : Decoder.exportDesc.Reads d.encode d := by
  cases d <;> exact afterByte (idx _).map

theorem exportDecl (e : Export) : Decoder.exportDecl.Reads e.encode e :=
  (name e.name).bind (exportDesc e.desc).map

end Decoder.Reads

/-! ## Globals and bodies -/

/-- A global as it is written. -/
structure GlobalSource where
  type : GlobalType
  init : Expr

def GlobalSource.global (g : GlobalSource) : Global := ⟨g.type, g.init.code⟩

def GlobalSource.encode (g : GlobalSource) : List UInt8 := g.type.encode ++ g.init.encode

theorem GlobalSource.encode_ne_nil (g : GlobalSource) : g.encode ≠ [] := List.cons_ne_nil _ _

def LocalGroup.encode (g : LocalGroup) : List UInt8 := ofNat g.count.toNat ++ g.type.encode

theorem LocalGroup.encode_ne_nil (g : LocalGroup) : g.encode ≠ [] :=
  List.append_ne_nil_of_right_ne_nil _ (List.cons_ne_nil _ _)

/-- A function body as it is written. -/
structure BodySource where
  locals : List LocalGroup
  expr : Expr

def BodySource.body (b : BodySource) : Body := ⟨b.locals, b.expr.code⟩

def BodySource.contents (b : BodySource) : List UInt8 :=
  encodeVec LocalGroup.encode b.locals ++ b.expr.encode

/-- A body stands after its size. -/
def BodySource.encode (b : BodySource) : List UInt8 := encodeBytes b.contents

theorem BodySource.encode_ne_nil (b : BodySource) : b.encode ≠ [] :=
  List.append_ne_nil_of_left_ne_nil (Leb128.ofNat_ends _).ne_nil _

namespace Decoder.Reads

variable {α : Type} {d : Decoder α} {bs : List UInt8} {a : α}

theorem global (g : GlobalSource) : Decoder.global.Reads g.encode g.global :=
  (globalType g.type).bind (sequence g.init).map

theorem localGroup (g : LocalGroup) : Decoder.localGroup.Reads g.encode g :=
  (u32 g.count).bind (valType g.type).map

theorem locals (gs : List LocalGroup) :
    (Decoder.vec Decoder.localGroup).Reads (encodeVec LocalGroup.encode gs) gs :=
  vecOf LocalGroup.encode_ne_nil localGroup gs

/-- A value that fills the size that stands before it. -/
theorem sized (reads : d.Reads bs a) :
    (Decoder.u32 >>= fun n => Decoder.isolated n.toNat d).Reads (encodeBytes bs) a := by
  refine .ofShort fun short => ?_
  rw [encodeBytes, List.length_append] at short
  have small : bs.length < UInt32.size := by omega
  refine (size small).bind ?_
  rw [UInt32.toNat_ofNat_of_lt' small]
  exact isolated reads

/-- A body is read within its size. -/
theorem body (b : BodySource) : Decoder.body.Reads b.encode b.body :=
  sized ((locals b.locals).bind (sequence b.expr).map)

end Decoder.Reads

/-! ## Segments -/

/-- An element segment as it is written, in the order of the tags. -/
inductive ElemSource where
  | activeFuncs (offset : Expr) (funcs : List FuncIdx)
  | passiveFuncs (funcs : List FuncIdx)
  | activeFuncsAt (table : TableIdx) (offset : Expr) (funcs : List FuncIdx)
  | declaredFuncs (funcs : List FuncIdx)
  | activeExprs (offset : Expr) (exprs : List Expr)
  | passiveExprs (type : RefType) (exprs : List Expr)
  | activeExprsAt (table : TableIdx) (offset : Expr) (type : RefType) (exprs : List Expr)
  | declaredExprs (type : RefType) (exprs : List Expr)

namespace ElemSource

/-- The segment that is declared. The short forms are about functions in the first table. -/
def segment : ElemSource → ElemSegment
  | .activeFuncs offset funcs => ⟨.active ⟨0⟩ offset.code, .funcRef, .funcs funcs, 0⟩
  | .passiveFuncs funcs => ⟨.passive, .funcRef, .funcs funcs, 1⟩
  | .activeFuncsAt table offset funcs => ⟨.active table offset.code, .funcRef, .funcs funcs, 2⟩
  | .declaredFuncs funcs => ⟨.declarative, .funcRef, .funcs funcs, 3⟩
  | .activeExprs offset exprs =>
    ⟨.active ⟨0⟩ offset.code, .funcRef, .exprs (exprs.map Expr.code), 4⟩
  | .passiveExprs type exprs => ⟨.passive, type, .exprs (exprs.map Expr.code), 5⟩
  | .activeExprsAt table offset type exprs =>
    ⟨.active table offset.code, type, .exprs (exprs.map Expr.code), 6⟩
  | .declaredExprs type exprs => ⟨.declarative, type, .exprs (exprs.map Expr.code), 7⟩

/-- The tag, the parts that say where the items go, what they are, and the items. -/
def encode : ElemSource → List UInt8
  | .activeFuncs offset funcs => 0x00 :: (offset.encode ++ encodeVec Idx.encode funcs)
  | .passiveFuncs funcs => 0x01 :: 0x00 :: encodeVec Idx.encode funcs
  | .activeFuncsAt table offset funcs =>
    0x02 :: ((table.encode ++ offset.encode) ++ (0x00 :: encodeVec Idx.encode funcs))
  | .declaredFuncs funcs => 0x03 :: 0x00 :: encodeVec Idx.encode funcs
  | .activeExprs offset exprs => 0x04 :: (offset.encode ++ encodeVec Expr.encode exprs)
  | .passiveExprs type exprs => 0x05 :: type.toByte :: encodeVec Expr.encode exprs
  | .activeExprsAt table offset type exprs =>
    0x06 :: ((table.encode ++ offset.encode) ++ (type.toByte :: encodeVec Expr.encode exprs))
  | .declaredExprs type exprs => 0x07 :: type.toByte :: encodeVec Expr.encode exprs

theorem encode_ne_nil (e : ElemSource) : e.encode ≠ [] := by
  cases e <;> exact List.cons_ne_nil _ _

end ElemSource

/-- A data segment as it is written, in the order of the tags. -/
inductive DataSource where
  | active (offset : Expr) (bytes : List UInt8)
  | passive (bytes : List UInt8)
  | activeAt (mem : MemIdx) (offset : Expr) (bytes : List UInt8)

namespace DataSource

/-- The segment that is declared. The short form is about the first memory. -/
def segment : DataSource → DataSegment
  | .active offset bytes => ⟨.active ⟨0⟩ offset.code, bytes⟩
  | .passive bytes => ⟨.passive, bytes⟩
  | .activeAt mem offset bytes => ⟨.active mem offset.code, bytes⟩

def encode : DataSource → List UInt8
  | .active offset bytes => (0x00 :: offset.encode) ++ encodeBytes bytes
  | .passive bytes => 0x01 :: encodeBytes bytes
  | .activeAt mem offset bytes => (0x02 :: (mem.encode ++ offset.encode)) ++ encodeBytes bytes

theorem encode_ne_nil (d : DataSource) : d.encode ≠ [] := by
  cases d <;> exact List.cons_ne_nil _ _

end DataSource

namespace Decoder.Reads

theorem elemKind : Decoder.elemKind.Reads [0x00] .funcRef := afterByte (.pure _)

/-- Below the tag 4 the items are indices, and above it expressions. -/
theorem funcItems (tag : Nat) (low : tag < 4) (funcs : List FuncIdx) :
    (Decoder.elemItems tag).Reads (encodeVec Idx.encode funcs) (.funcs funcs) := by
  rw [Decoder.elemItems, if_pos low]
  exact (indices funcs).map

theorem exprItems (tag : Nat) (high : ¬tag < 4) (exprs : List Expr) :
    (Decoder.elemItems tag).Reads (encodeVec Expr.encode exprs)
      (.exprs (exprs.map Expr.code)) := by
  rw [Decoder.elemItems, if_neg high]
  exact (vec Expr.encode_ne_nil sequence exprs).map

/-- The parts of an element segment, each in the form that the tag decides. -/
theorem elemParts (tag : UInt8) {modeBytes typeBytes itemBytes : List UInt8} {mode : ElemMode}
    {type : RefType} {items : ElemItems} (known : tag ≤ 7)
    (first : (Decoder.elemMode (tag.toNat % 4)).Reads modeBytes mode)
    (second : (Decoder.elemType tag.toNat).Reads typeBytes type)
    (third : (Decoder.elemItems tag.toNat).Reads itemBytes items) :
    Decoder.elemSegment.Reads (tag :: (modeBytes ++ (typeBytes ++ itemBytes)))
      ⟨mode, type, items, tag⟩ := by
  have small : tag.toNat ≤ 7 := UInt8.le_iff_toNat_le.mp known
  have inside : ¬tag.toUInt32 > 7 := by
    rw [gt_iff_lt, UInt32.lt_iff_toNat_lt, UInt8.toNat_toUInt32]
    exact Nat.not_lt.mpr small
  have parts := first.bind (k := fun mode => do
    let type ← Decoder.elemType tag.toNat
    let items ← Decoder.elemItems tag.toNat
    return (⟨mode, type, items, tag⟩ : ElemSegment)) (second.bind third.map)
  refine afterNumber (by omega) ?_
  rw [if_neg inside, UInt8.toNat_toUInt32, UInt8.toUInt8_toUInt32]
  exact parts

/-- An element segment is read back in each of its eight forms. -/
theorem elemSegment (e : ElemSource) : Decoder.elemSegment.Reads e.encode e.segment := by
  cases e with
  | activeFuncs offset funcs =>
    change Decoder.elemSegment.Reads
      (0x00 :: (offset.encode ++ ([] ++ encodeVec Idx.encode funcs))) _
    exact elemParts 0 (by decide) (sequence offset).map (.pure _) (funcItems 0 (by decide) funcs)
  | passiveFuncs funcs =>
    exact elemParts 1 (by decide) (.pure _) elemKind (funcItems 1 (by decide) funcs)
  | activeFuncsAt table offset funcs =>
    exact elemParts 2 (by decide) ((idx table).bind (sequence offset).map) elemKind
      (funcItems 2 (by decide) funcs)
  | declaredFuncs funcs =>
    exact elemParts 3 (by decide) (.pure _) elemKind (funcItems 3 (by decide) funcs)
  | activeExprs offset exprs =>
    change Decoder.elemSegment.Reads
      (0x04 :: (offset.encode ++ ([] ++ encodeVec Expr.encode exprs))) _
    exact elemParts 4 (by decide) (sequence offset).map (.pure _) (exprItems 4 (by decide) exprs)
  | passiveExprs type exprs =>
    exact elemParts 5 (by decide) (.pure _) (refType type) (exprItems 5 (by decide) exprs)
  | activeExprsAt table offset type exprs =>
    exact elemParts 6 (by decide) ((idx table).bind (sequence offset).map) (refType type)
      (exprItems 6 (by decide) exprs)
  | declaredExprs type exprs =>
    exact elemParts 7 (by decide) (.pure _) (refType type) (exprItems 7 (by decide) exprs)

/-- A data segment is read back in each of its three forms. -/
theorem dataSegment (d : DataSource) : Decoder.dataSegment.Reads d.encode d.segment := by
  have mode {bs cs : List UInt8} {m : DataMode} (first : Decoder.dataMode.Reads bs m) :
      Decoder.dataSegment.Reads (bs ++ encodeBytes cs) ⟨m, cs⟩ := first.bind (bytes cs).map
  cases d with
  | active offset content => exact mode (afterNumber (by decide) (sequence offset).map)
  | passive content => exact mode (afterNumber (n := 0x01) (by decide) (.pure _))
  | activeAt mem offset content =>
    exact mode (afterNumber (by decide) ((idx mem).bind (sequence offset).map))

end Decoder.Reads

end WasmMachine
