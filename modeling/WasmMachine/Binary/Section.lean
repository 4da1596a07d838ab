import WasmMachine.Binary.Instr

/-!
# The binary form of sections

A section is an identifying byte, the size of its payload, and the payload (`framed`).  What the
payload means depends on the identifier alone (`Section.decode`), and a standard section has to
fill its payload.  A module's sections are collected in `Sections`; of two sections of one
standard kind the later counts, and all custom ones are kept.
-/

namespace WasmMachine

namespace Decoder

/-! ## Imports and exports -/

/-- A byte for the kind, then the type that is asked for. -/
def importDesc : Decoder ImportDesc := do
  match ← byte with
  | 0 => return .func (← idx)
  | 1 => return .table (← tableType)
  | 2 => return .mem (← memType)
  | 3 => return .global (← globalType)
  | kind => fail (.badImportKind kind)

/-- The two names of an import and what it asks for. -/
def importDecl : Decoder Import := do
  return ⟨← name, ← name, ← importDesc⟩

/-- A byte for the kind, then an index. -/
def exportDesc : Decoder ExportDesc := do
  match ← byte with
  | 0 => return .func (← idx)
  | 1 => return .table (← idx)
  | 2 => return .mem (← idx)
  | 3 => return .global (← idx)
  | kind => fail (.badExportKind kind)

/-- The name of an export and what it hands out. -/
def exportDecl : Decoder Export := do
  return ⟨← name, ← exportDesc⟩

/-! ## Definitions -/

/-- The type of a global and its initialiser. -/
def global : Decoder Global := do
  return ⟨← globalType, ← sequence⟩

/-- A count of locals and their type. -/
def localGroup : Decoder LocalGroup := do
  return ⟨← u32, ← valType⟩

/-- The locals and the code of a function. -/
def bodyContents : Decoder Body := do
  return ⟨← vec localGroup, ← sequence⟩

/-- A function body has to fill the size that stands before it. -/
def body : Decoder Body := do
  isolated (← u32).toNat bodyContents

/-! ## Segments -/

/-- The byte of an element kind; the only kind is a function. -/
def elemKind : Decoder RefType := do
  let kind ← byte
  if kind ≠ 0 then
    fail (.badElemKind kind)
  else
    return .funcRef

/-- The mode of an element segment, from the low two bits of its tag. -/
def elemMode : Nat → Decoder ElemMode
  | 0 => return .active ⟨0⟩ (← sequence)
  | 1 => return .passive
  | 2 => return .active (← idx) (← sequence)
  | _ => return .declarative

/-- What the items of an element segment are, from its tag. -/
def elemType : Nat → Decoder RefType
  | 0 | 4 => return .funcRef
  | 1 | 2 | 3 => elemKind
  | _ => refType

/-- The items of an element segment, from its tag. -/
def elemItems (tag : Nat) : Decoder ElemItems := do
  if tag < 4 then
    return .funcs (← vec idx)
  else
    return .exprs (← vec sequence)

/-- The tag of an element segment decides the form of all its parts. -/
def elemSegment : Decoder ElemSegment := do
  let tag ← u32
  if tag > 7 then
    fail (.badElemTag tag)
  else
    let mode ← elemMode (tag.toNat % 4)
    let type ← elemType tag.toNat
    let items ← elemItems tag.toNat
    return ⟨mode, type, items, tag.toUInt8⟩

/-- The tag of a data segment and, for an active one, where it goes. -/
def dataMode : Decoder DataMode := do
  match ← u32 with
  | 0 => return .active ⟨0⟩ (← sequence)
  | 1 => return .passive
  | 2 => return .active (← idx) (← sequence)
  | tag => fail (.badDataTag tag)

/-- A data segment: its mode and its bytes. -/
def dataSegment : Decoder DataSegment := do
  return ⟨← dataMode, ← bytes⟩

end Decoder

/-! ## Sections -/

/-- A section that has been decoded. -/
inductive Section where
  | custom (contents : CustomSection)
  | types (contents : List FuncType)
  | imports (contents : List Import)
  | funcs (contents : List TypeIdx)
  | tables (contents : List TableType)
  | memories (contents : List MemType)
  | globals (contents : List Global)
  | exports (contents : List Export)
  | start (func : FuncIdx)
  | elems (contents : List ElemSegment)
  | bodies (contents : List Body)
  | datas (contents : List DataSegment)
  | dataCount (count : UInt32)
  deriving DecidableEq, Repr

/-- Add a section to those before it. -/
def Sections.add (s : Sections) : Section → Sections
  | .custom c => { s with custom := s.custom ++ [c] }
  | .types xs => { s with types := xs }
  | .imports xs => { s with imports := xs }
  | .funcs xs => { s with funcs := xs }
  | .tables xs => { s with tables := xs }
  | .memories xs => { s with memories := xs }
  | .globals xs => { s with globals := xs }
  | .exports xs => { s with exports := xs }
  | .start f => { s with start := some f }
  | .elems xs => { s with elems := xs }
  | .bodies xs => { s with bodies := xs }
  | .datas xs => { s with datas := xs }
  | .dataCount n => { s with dataCount := some n }

/-- The contents of a custom section: a name, then anything. -/
def Decoder.customSection : Decoder CustomSection := do
  return ⟨← name, ← remaining⟩

/-- Decode a payload by the section's identifier. A section with an unknown identifier is a
custom one whose name is the identifier in decimal. -/
def Section.decode (id : UInt8) (payload : Input) : Except DecodeError Section :=
  match id with
  | 0 => .custom <$> Decoder.customSection.whole payload
  | 1 => .types <$> (Decoder.vec .funcType).whole payload
  | 2 => .imports <$> (Decoder.vec .importDecl).whole payload
  | 3 => .funcs <$> (Decoder.vec .idx).whole payload
  | 4 => .tables <$> (Decoder.vec .tableType).whole payload
  | 5 => .memories <$> (Decoder.vec .memType).whole payload
  | 6 => .globals <$> (Decoder.vec .global).whole payload
  | 7 => .exports <$> (Decoder.vec .exportDecl).whole payload
  | 8 => .start <$> Decoder.idx.whole payload
  | 9 => .elems <$> (Decoder.vec .elemSegment).whole payload
  | 10 => .bodies <$> (Decoder.vec .body).whole payload
  | 11 => .datas <$> (Decoder.vec .dataSegment).whole payload
  | 12 => .dataCount <$> Decoder.u32.whole payload
  | _ => .ok (.custom ⟨toString id.toNat, payload.bytes⟩)

/-- A section's identifier and payload. -/
def Decoder.framed : Decoder (UInt8 × Input) := do
  let id ← byte
  let payload ← sub (← u32).toNat
  return (id, payload)

end WasmMachine
