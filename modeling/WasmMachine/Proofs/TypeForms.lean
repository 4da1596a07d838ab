import WasmMachine.Binary.Types
import WasmMachine.Proofs.Numbers

/-!
# The forms of types

The bytes of each type, and that they are read back as it.  The forms are written out here on
their own, so that they can be held against what the decoders do.
-/

namespace WasmMachine

open Leb128 (ofNat ofInt)

/-! ## Indices, counted sequences and names -/

def Idx.encode {space : IndexSpace} (i : Idx space) : List UInt8 := ofNat i.toNat

/-- A count, then the items. -/
def encodeVec {α : Type} (item : α → List UInt8) (xs : List α) : List UInt8 :=
  ofNat xs.length ++ xs.flatMap item

/-- Bytes after their number. -/
def encodeBytes (bs : List UInt8) : List UInt8 := ofNat bs.length ++ bs

/-- A name is written in UTF-8. -/
def encodeName (name : String) : List UInt8 := encodeBytes name.toByteArray.data.toList

theorem encodeName_ne_nil (name : String) : encodeName name ≠ [] :=
  List.append_ne_nil_of_left_ne_nil (Leb128.ofNat_ends _).ne_nil _

/-- Items that take bytes are no more than the bytes that they take. -/
theorem length_le_of_flatMap {α : Type} {item : α → List UInt8} (nonempty : ∀ x, item x ≠ [])
    (xs : List α) : xs.length ≤ (xs.flatMap item).length := by
  induction xs with
  | nil => exact Nat.le_refl 0
  | cons x xs ih =>
    have first := List.length_pos_iff.mpr (nonempty x)
    rw [List.flatMap_cons, List.length_append, List.length_cons]
    omega

namespace Decoder.Reads

variable {α γ : Type} {d : Decoder α} {bs : List UInt8} {a : α}

/-- What is asked of bytes that are short enough may assume that they are. -/
theorem ofShort (reads : bs.length < UInt32.size → d.Reads bs a) : d.Reads bs a :=
  fun short => reads short short

/-- A counted sequence of things that have forms is read as such: the count fits a word, since
each thing takes a byte at least. -/
theorem vec {item : γ → List UInt8} {val : γ → α} (nonempty : ∀ x, item x ≠ [])
    (each : ∀ x, d.Reads (item x) (val x)) (xs : List γ) :
    (Decoder.vec d).Reads (encodeVec item xs) (xs.map val) := by
  refine .ofShort fun short => ?_
  have bound := length_le_of_flatMap nonempty xs
  rw [encodeVec, List.length_append] at short
  have small : xs.length < UInt32.size := by omega
  refine (size small).bind ?_
  rw [UInt32.toNat_ofNat_of_lt' small]
  exact times each xs

/-- A sequence whose items are read as what was written. -/
theorem vecOf {item : α → List UInt8} (nonempty : ∀ x, item x ≠ [])
    (each : ∀ x, d.Reads (item x) x) (xs : List α) :
    (Decoder.vec d).Reads (encodeVec item xs) xs := by
  have reads : (Decoder.vec d).Reads (encodeVec item xs) (xs.map id) := vec nonempty each xs
  rwa [List.map_id] at reads

theorem indices {space : IndexSpace} (is : List (Idx space)) :
    (Decoder.vec Decoder.idx).Reads (encodeVec Idx.encode is) is :=
  vecOf (fun i => (Leb128.ofNat_ends i.toNat).ne_nil) idx is

/-- Bytes behind their number. -/
theorem bytes (bs : List UInt8) : Decoder.bytes.Reads (encodeBytes bs) bs := by
  refine .ofShort fun short => ?_
  rw [encodeBytes, List.length_append] at short
  have small : bs.length < UInt32.size := by omega
  refine (size small).bind ?_
  rw [UInt32.toNat_ofNat_of_lt' small]
  exact take bs

/-- A string is valid UTF-8, so that a name is read as what has been written. -/
theorem name (s : String) : Decoder.name.Reads (encodeName s) s := by
  have valid : String.fromUTF8? s.toByteArray.data.toList.toByteArray = some s := by
    have same : s.toByteArray.data.toList.toByteArray = s.toByteArray := by
      apply ByteArray.ext
      rw [List.data_toByteArray, Array.toArray_toList]
    rw [same, String.fromUTF8?, dif_pos s.isValidUTF8]
    exact congrArg some (String.toByteArray_inj.mp rfl)
  intro short pos rest
  have read := bytes s.toByteArray.data.toList short pos rest
  change Decoder.run (Decoder.bytes >>= _) _ = _
  rw [run_bind, encodeName, read]
  simp only [valid]
  rfl

end Decoder.Reads

/-! ## Types -/

/-- The byte of a reference type. -/
def RefType.toByte : RefType → UInt8
  | .funcRef => 0x70
  | .externRef => 0x6f

/-- The byte of a value type. -/
def ValType.toByte : ValType → UInt8
  | .i32 => 0x7f
  | .i64 => 0x7e
  | .f32 => 0x7d
  | .f64 => 0x7c
  | .v128 => 0x7b
  | .ref type => type.toByte

/-- The byte of a mutability. -/
def Mutability.toByte : Mutability → UInt8
  | .const => 0x00
  | .var => 0x01

/-- A value type as an item of a sequence. -/
def ValType.encode (t : ValType) : List UInt8 := [t.toByte]

def FuncType.encode (t : FuncType) : List UInt8 :=
  0x60 :: (encodeVec ValType.encode t.params ++ encodeVec ValType.encode t.results)

def Limits.encode : Limits → List UInt8
  | .atLeast min => 0x00 :: ofNat min.toNat
  | .between min max => 0x01 :: (ofNat min.toNat ++ ofNat max.toNat)

def MemType.encode (t : MemType) : List UInt8 := t.limits.encode

def TableType.encode (t : TableType) : List UInt8 := t.elem.toByte :: t.limits.encode

def GlobalType.encode (t : GlobalType) : List UInt8 := [t.value.toByte, t.mutability.toByte]

/-- A block type without an index is one byte; an index has to have a sign. -/
def BlockType.encode : BlockType → List UInt8
  | .empty => [0x40]
  | .val type => [type.toByte]
  | .typeIndex idx => ofInt idx.toNat

theorem FuncType.encode_ne_nil (t : FuncType) : t.encode ≠ [] := List.cons_ne_nil _ _

theorem Limits.encode_ne_nil (l : Limits) : l.encode ≠ [] := by
  cases l <;> exact List.cons_ne_nil _ _

theorem MemType.encode_ne_nil (t : MemType) : t.encode ≠ [] := t.limits.encode_ne_nil

theorem TableType.encode_ne_nil (t : TableType) : t.encode ≠ [] := List.cons_ne_nil _ _

def MemArg.encode (arg : MemArg) : List UInt8 := ofNat arg.align.toNat ++ ofNat arg.offset.toNat

/-! ## Reading types -/

@[simp] theorem RefType.ofByte?_toByte (t : RefType) : RefType.ofByte? t.toByte = some t := by
  cases t <;> rfl

@[simp] theorem ValType.ofByte?_toByte (t : ValType) : ValType.ofByte? t.toByte = some t := by
  cases t with
  | ref type => cases type <;> rfl
  | _ => rfl

namespace Decoder.Reads

/-- A byte that is found in its table is read as what the table says. -/
theorem coded {α : Type} {decode? : UInt8 → Option α} {error : UInt8 → DecodeError} {b : UInt8}
    {a : α} (found : decode? b = some a) : (Decoder.coded decode? error).Reads [b] a := by
  refine afterByte ?_
  rw [found]
  exact .pure a

theorem refType (t : RefType) : Decoder.refType.Reads [t.toByte] t := coded t.ofByte?_toByte

theorem valType (t : ValType) : Decoder.valType.Reads t.encode t := coded t.ofByte?_toByte

theorem valTypes (ts : List ValType) :
    (Decoder.vec Decoder.valType).Reads (encodeVec ValType.encode ts) ts :=
  vecOf (fun _ => List.cons_ne_nil _ _) valType ts

theorem mutability (m : Mutability) : Decoder.mutability.Reads [m.toByte] m := by
  cases m <;> exact coded rfl

theorem funcType (t : FuncType) : Decoder.funcType.Reads t.encode t :=
  afterByte ((valTypes t.params).bind (valTypes t.results).map)

theorem limits (l : Limits) : Decoder.limits.Reads l.encode l := by
  cases l with
  | atLeast min => exact afterByte (u32 min).map
  | between min max => exact afterByte ((u32 min).bind (u32 max).map)

theorem memType (t : MemType) : Decoder.memType.Reads t.encode t := (limits t.limits).map

theorem tableType (t : TableType) : Decoder.tableType.Reads t.encode t :=
  (refType t.elem).bind (limits t.limits).map

theorem globalType (t : GlobalType) : Decoder.globalType.Reads t.encode t :=
  (valType t.value).bind (mutability t.mutability).map

theorem memArg (arg : MemArg) : Decoder.memArg.Reads arg.encode arg :=
  (u32 arg.align).bind (u32 arg.offset).map

/-- A number with a sign that one byte has room for. -/
theorem i64Byte (n : Int64) (low : -64 ≤ n.toInt) (high : n.toInt < 64) :
    Decoder.i64.Reads [UInt8.ofNat (n.toInt % 128).toNat] n := by
  have reads := i64 n
  rwa [ofInt, if_pos ⟨low, high⟩] at reads

/-- A block type is read from any form of its number. -/
theorem blockTypeOf {t : BlockType} {i : Int64} {bs : List UInt8}
    (number : Decoder.i64.Reads bs i)
    (found : BlockType.ofInt? i.toInt = some t) : Decoder.blockType.Reads bs t := by
  intro short pos rest
  change Decoder.run (Decoder.i64 >>= _) _ = _
  rw [run_bind, number short]
  simp only [found]
  rfl

/-- The single bytes of block types are numbers below zero, and the indices are the others. -/
theorem blockType (t : BlockType) : Decoder.blockType.Reads t.encode t := by
  cases t with
  | empty => exact blockTypeOf (i64Byte (-64) (by decide) (by decide)) rfl
  | val type =>
    cases type with
    | i32 => exact blockTypeOf (i64Byte (-1) (by decide) (by decide)) rfl
    | i64 => exact blockTypeOf (i64Byte (-2) (by decide) (by decide)) rfl
    | f32 => exact blockTypeOf (i64Byte (-3) (by decide) (by decide)) rfl
    | f64 => exact blockTypeOf (i64Byte (-4) (by decide) (by decide)) rfl
    | v128 => exact blockTypeOf (i64Byte (-5) (by decide) (by decide)) rfl
    | ref type =>
      cases type with
      | funcRef => exact blockTypeOf (i64Byte (-16) (by decide) (by decide)) rfl
      | externRef => exact blockTypeOf (i64Byte (-17) (by decide) (by decide)) rfl
  | typeIndex idx =>
    have bound := idx.toNat_lt
    rw [UInt32.size] at bound
    have value : (Int64.ofInt idx.toNat).toInt = idx.toNat :=
      Int64.toInt_ofInt_of_le (by omega) (by omega)
    have number := i64 (Int64.ofInt idx.toNat)
    rw [value] at number
    refine blockTypeOf number ?_
    have back : UInt32.ofNat (idx.toNat : Int).toNat = idx.val := UInt32.ofNat_toNat
    rw [value, BlockType.ofInt?, if_neg (by simp), if_neg (by omega), if_neg (by omega),
      if_pos (by rw [UInt32.size]; omega), back]

end Decoder.Reads

end WasmMachine
