import WasmMachine.Proofs.SectionForms

/-!
# The forms of modules

A section as it is written is one of thirteen kinds, with its contents (`SectionSource`); in a
module's form it stands behind its identifier and its size.  A row of sections is decoded to what
they declare, one added to the other (`Decoder.sectionsFrom_encode`).

A `ModuleSource` is a module as it is written.  Its sections stand in the order that the format
prescribes, those that would be empty are left out, and custom sections may stand between any two
of them.
-/

namespace WasmMachine

open Leb128 (ofNat)

/-! ## Sections -/

/-- A section as it is written. -/
inductive SectionSource where
  | custom (contents : CustomSection)
  | types (contents : List FuncType)
  | imports (contents : List Import)
  | funcs (contents : List TypeIdx)
  | tables (contents : List TableType)
  | memories (contents : List MemType)
  | globals (contents : List GlobalSource)
  | exports (contents : List Export)
  | start (func : FuncIdx)
  | elems (contents : List ElemSource)
  | bodies (contents : List BodySource)
  | datas (contents : List DataSource)
  | dataCount (count : UInt32)

namespace SectionSource

/-- The byte of the kind. -/
def id : SectionSource → UInt8
  | .custom _ => 0
  | .types _ => 1
  | .imports _ => 2
  | .funcs _ => 3
  | .tables _ => 4
  | .memories _ => 5
  | .globals _ => 6
  | .exports _ => 7
  | .start _ => 8
  | .elems _ => 9
  | .bodies _ => 10
  | .datas _ => 11
  | .dataCount _ => 12

def payload : SectionSource → List UInt8
  | .custom c => encodeName c.name ++ c.bytes
  | .types xs => encodeVec FuncType.encode xs
  | .imports xs => encodeVec Import.encode xs
  | .funcs xs => encodeVec Idx.encode xs
  | .tables xs => encodeVec TableType.encode xs
  | .memories xs => encodeVec MemType.encode xs
  | .globals xs => encodeVec GlobalSource.encode xs
  | .exports xs => encodeVec Export.encode xs
  | .start func => func.encode
  | .elems xs => encodeVec ElemSource.encode xs
  | .bodies xs => encodeVec BodySource.encode xs
  | .datas xs => encodeVec DataSource.encode xs
  | .dataCount count => ofNat count.toNat

/-- What a section declares, with the code flattened. -/
def contents : SectionSource → Section
  | .custom c => .custom c
  | .types xs => .types xs
  | .imports xs => .imports xs
  | .funcs xs => .funcs xs
  | .tables xs => .tables xs
  | .memories xs => .memories xs
  | .globals xs => .globals (xs.map GlobalSource.global)
  | .exports xs => .exports xs
  | .start func => .start func
  | .elems xs => .elems (xs.map ElemSource.segment)
  | .bodies xs => .bodies (xs.map BodySource.body)
  | .datas xs => .datas (xs.map DataSource.segment)
  | .dataCount count => .dataCount count

/-- The identifier, the size and the payload. -/
def encode (s : SectionSource) : List UInt8 := s.id :: encodeBytes s.payload

end SectionSource

theorem Decoder.customSection_whole (c : CustomSection)
    (short : (encodeName c.name ++ c.bytes).length < UInt32.size) (pos : Nat) :
    customSection.whole ⟨pos, encodeName c.name ++ c.bytes⟩ = .ok c := by
  rw [List.length_append] at short
  have named := Reads.name c.name (by omega) pos c.bytes
  have run : customSection.run ⟨pos, encodeName c.name ++ c.bytes⟩
      = .ok (c, ⟨pos + (encodeName c.name).length + c.bytes.length, []⟩) := by
    rw [customSection, run_bind, named]
    rfl
  rw [whole, run]
  rfl

/-- A payload is decoded to what the section declares. -/
theorem Section.decode_payload (s : SectionSource) (short : s.payload.length < UInt32.size)
    (pos : Nat) : Section.decode s.id ⟨pos, s.payload⟩ = .ok s.contents := by
  open Decoder.Reads in
  cases s with
  | custom c => exact congrArg (Section.custom <$> ·) (Decoder.customSection_whole c short pos)
  | types xs =>
    exact congrArg (Section.types <$> ·)
      ((vecOf FuncType.encode_ne_nil funcType xs).whole short pos)
  | imports xs =>
    exact congrArg (Section.imports <$> ·)
      ((vecOf Import.encode_ne_nil importDecl xs).whole short pos)
  | funcs xs => exact congrArg (Section.funcs <$> ·) ((indices xs).whole short pos)
  | tables xs =>
    exact congrArg (Section.tables <$> ·)
      ((vecOf TableType.encode_ne_nil tableType xs).whole short pos)
  | memories xs =>
    exact congrArg (Section.memories <$> ·)
      ((vecOf MemType.encode_ne_nil memType xs).whole short pos)
  | globals xs =>
    exact congrArg (Section.globals <$> ·)
      ((vec GlobalSource.encode_ne_nil global xs).whole short pos)
  | exports xs =>
    exact congrArg (Section.exports <$> ·)
      ((vecOf Export.encode_ne_nil exportDecl xs).whole short pos)
  | start func => exact congrArg (Section.start <$> ·) ((idx func).whole short pos)
  | elems xs =>
    exact congrArg (Section.elems <$> ·)
      ((vec ElemSource.encode_ne_nil elemSegment xs).whole short pos)
  | bodies xs =>
    exact congrArg (Section.bodies <$> ·) ((vec BodySource.encode_ne_nil body xs).whole short pos)
  | datas xs =>
    exact congrArg (Section.datas <$> ·)
      ((vec DataSource.encode_ne_nil dataSegment xs).whole short pos)
  | dataCount count => exact congrArg (Section.dataCount <$> ·) ((u32 count).whole short pos)

/-! ## Rows of sections -/

/-- Add what a section declares to what those before it do. -/
def Sections.withSource (acc : Sections) (s : SectionSource) : Sections := acc.add s.contents

/-- Add custom sections. -/
def Sections.withCustom (acc : Sections) (cs : List CustomSection) : Sections :=
  { acc with custom := acc.custom ++ cs }

namespace Decoder

theorem framed_run (s : SectionSource) (short : s.payload.length < UInt32.size) (pos : Nat)
    (rest : List UInt8) :
    ∃ inner, framed.run ⟨pos, s.encode ++ rest⟩
      = .ok ((s.id, ⟨inner, s.payload⟩), ⟨pos + s.encode.length, rest⟩) := by
  have digits : (ofNat s.payload.length).length ≤ 4 + 1 :=
    Leb128.length_ofNat_le (Nat.lt_trans short (by decide))
  have sized := Reads.size short (Nat.lt_of_le_of_lt digits (by decide)) (pos + 1)
    (s.payload ++ rest)
  have cut := Reads.sub_run s.payload rest (pos + 1 + (ofNat s.payload.length).length)
  have counted := UInt32.toNat_ofNat_of_lt' short
  have width : s.encode.length = 1 + (ofNat s.payload.length).length + s.payload.length := by
    rw [SectionSource.encode, encodeBytes, List.length_cons, List.length_append]
    omega
  refine ⟨pos + 1 + (ofNat s.payload.length).length, ?_⟩
  rw [width, SectionSource.encode, encodeBytes, List.cons_append, List.append_assoc,
    framed, run_bind]
  change Decoder.run (u32 >>= _) _ = _
  rw [run_bind, sized]
  simp only [counted, run_bind, cut, run_pure]
  rw [← Nat.add_assoc, ← Nat.add_assoc]

theorem sectionsFrom_nil (acc : Sections) (pos : Nat) : sectionsFrom acc ⟨pos, []⟩ = .ok acc := by
  rw [sectionsFrom]
  rfl

theorem sectionsFrom_step {acc : Sections} {s t : Input} {id : UInt8} {payload : Input}
    {contents : Section} (more : s.bytes ≠ []) (read : framed.run s = .ok ((id, payload), t))
    (known : Section.decode id payload = .ok contents) :
    sectionsFrom acc s = sectionsFrom (acc.add contents) t := by
  rw [sectionsFrom, if_neg (by rwa [List.isEmpty_iff])]
  split
  · next failed =>
    rw [read] at failed
    cases failed
  · next found =>
    rw [read] at found
    cases found
    rw [known]

/-- A row of sections is decoded to what they declare, one added to the other. -/
theorem sectionsFrom_encode {row : List SectionSource}
    (short : ∀ s ∈ row, s.payload.length < UInt32.size) (acc : Sections) (pos : Nat) :
    sectionsFrom acc ⟨pos, row.flatMap SectionSource.encode⟩
      = .ok (row.foldl Sections.withSource acc) := by
  induction row generalizing acc pos with
  | nil => exact sectionsFrom_nil acc pos
  | cons s row ih =>
    have small := short s List.mem_cons_self
    obtain ⟨inner, read⟩ := framed_run s small pos (row.flatMap SectionSource.encode)
    rw [List.flatMap_cons,
      sectionsFrom_step (List.cons_ne_nil _ _) read (Section.decode_payload s small inner)]
    exact ih (fun s' mem => short s' (.tail s mem)) (acc.withSource s) _

end Decoder

/-! ## Modules -/

/-- A module as it is written. Custom sections may stand between any two of the twelve other ones:
`custom k` are those that stand behind the first `k` of them. -/
structure ModuleSource where
  types : List FuncType := []
  imports : List Import := []
  funcs : List TypeIdx := []
  tables : List TableType := []
  memories : List MemType := []
  globals : List GlobalSource := []
  exports : List Export := []
  start : Option FuncIdx := none
  elems : List ElemSource := []
  dataCount : Option UInt32 := none
  bodies : List BodySource := []
  datas : List DataSource := []
  custom : Nat → List CustomSection := fun _ => []

/-- A section that is left out if there is nothing in it. -/
def SectionSource.unlessEmpty {α : Type} (make : List α → SectionSource) (xs : List α) :
    Option SectionSource :=
  if xs.isEmpty then none else some (make xs)

namespace ModuleSource

open SectionSource (unlessEmpty)

/-- The sections with a meaning, in the order that the format prescribes. The number of data
segments comes before the bodies that refer to them. -/
def standard (m : ModuleSource) : List (Option SectionSource) :=
  [unlessEmpty .types m.types, unlessEmpty .imports m.imports, unlessEmpty .funcs m.funcs,
    unlessEmpty .tables m.tables, unlessEmpty .memories m.memories,
    unlessEmpty .globals m.globals, unlessEmpty .exports m.exports, m.start.map .start,
    unlessEmpty .elems m.elems, m.dataCount.map .dataCount, unlessEmpty .bodies m.bodies,
    unlessEmpty .datas m.datas]

/-- The custom sections of a place. -/
def customAt (m : ModuleSource) (k : Nat) : List SectionSource := (m.custom k).map .custom

/-- All sections, with the custom ones in their places. -/
def sections (m : ModuleSource) : List SectionSource :=
  m.standard.zipIdx.flatMap (fun (s, k) => m.customAt k ++ s.toList) ++ m.customAt 12

/-- The magic bytes, the version, and the sections. -/
def encode (m : ModuleSource) : List UInt8 :=
  [0x00, 0x61, 0x73, 0x6d, 0x01, 0x00, 0x00, 0x00] ++ m.sections.flatMap SectionSource.encode

/-- All custom sections, in order. -/
def customSections (m : ModuleSource) : List CustomSection := (List.range 13).flatMap m.custom

/-- What the sections declare, with the code flattened. -/
def declared (m : ModuleSource) : Sections where
  types := m.types
  imports := m.imports
  funcs := m.funcs
  tables := m.tables
  memories := m.memories
  globals := m.globals.map GlobalSource.global
  exports := m.exports
  start := m.start
  elems := m.elems.map ElemSource.segment
  bodies := m.bodies.map BodySource.body
  datas := m.datas.map DataSource.segment
  dataCount := m.dataCount
  custom := m.customSections

theorem foldl_customAt (m : ModuleSource) (k : Nat) (acc : Sections) :
    (m.customAt k).foldl Sections.withSource acc = acc.withCustom (m.custom k) := by
  rw [customAt]
  generalize m.custom k = cs
  induction cs generalizing acc with
  | nil => simp [Sections.withCustom]
  | cons c cs ih =>
    rw [List.map_cons, List.foldl_cons, ih]
    simp [Sections.withCustom, Sections.withSource, SectionSource.contents, Sections.add]

/-- A section that is left out would not have changed anything. -/
theorem foldl_unlessEmpty {α : Type} (make : List α → SectionSource) (xs : List α)
    {acc : Sections} (same : acc.withSource (make []) = acc) :
    (unlessEmpty make xs).toList.foldl Sections.withSource acc = acc.withSource (make xs) := by
  cases xs with
  | nil => exact same.symm
  | cons x xs => rfl

theorem foldl_start (start : Option FuncIdx) {acc : Sections} (unset : acc.start = none) :
    (start.map SectionSource.start).toList.foldl Sections.withSource acc
      = { acc with start := start } := by
  cases start with
  | none => exact congrArg (fun start => { acc with start := start }) unset
  | some func => rfl

theorem foldl_dataCount (count : Option UInt32) {acc : Sections} (unset : acc.dataCount = none) :
    (count.map SectionSource.dataCount).toList.foldl Sections.withSource acc
      = { acc with dataCount := count } := by
  cases count with
  | none => exact congrArg (fun count => { acc with dataCount := count }) unset
  | some count => rfl

theorem foldl_sections (m : ModuleSource) :
    m.sections.foldl Sections.withSource {} = m.declared := by
  have order : m.customSections = [] ++ m.custom 0 ++ m.custom 1 ++ m.custom 2 ++ m.custom 3
      ++ m.custom 4 ++ m.custom 5 ++ m.custom 6 ++ m.custom 7 ++ m.custom 8 ++ m.custom 9
      ++ m.custom 10 ++ m.custom 11 ++ m.custom 12 := by
    simp [customSections, List.range_succ]
  simp only [sections, standard, List.zipIdx_cons, List.zipIdx_nil, List.flatMap_cons,
    List.flatMap_nil, List.foldl_append, foldl_customAt, List.foldl_nil]
  rw [foldl_unlessEmpty .types, foldl_unlessEmpty .imports, foldl_unlessEmpty .funcs,
    foldl_unlessEmpty .tables, foldl_unlessEmpty .memories, foldl_unlessEmpty .globals,
    foldl_unlessEmpty .exports, foldl_start, foldl_unlessEmpty .elems, foldl_dataCount,
    foldl_unlessEmpty .bodies, foldl_unlessEmpty .datas, declared, order]
  all_goals rfl

end ModuleSource

end WasmMachine
