import WasmMachine.Proofs.Loops
import WasmMachine.Proofs.Truncation

/-!
# No list of a module is longer than its bytes

A list is read from at least as many bytes as it has items, for each of them takes one, and the
lists in an item are read from a part of them (`Decoder.Spans`).  Building a module joins lists of
different sections.  These have been read from different parts of its bytes, so that all entries
together are no more than its bytes either (`SectionFrame.ofLast_spans`), and with them the joint
lists (`Sections.lengths_joined`). Only locals are written out that are not there one by one: a
few bytes can claim as many as there may be (`Module.decode_bounded`).
-/

namespace WasmMachine

/-! ## Lengths -/

/-- Some lengths are at most a number. -/
def AtMost (n : Nat) (lengths : List Nat) : Prop := ∀ k ∈ lengths, k ≤ n

/-- The length of a list, and the lengths of the lists in its items. -/
def listLengths {α : Type} (inner : α → List Nat) (xs : List α) : List Nat :=
  xs.length :: xs.flatMap inner

namespace AtMost

variable {α : Type} {n m k : Nat} {lengths lengths' : List Nat}

@[simp] theorem nil : AtMost n [] := List.forall_mem_nil _

@[simp] theorem cons_iff : AtMost n (k :: lengths) ↔ k ≤ n ∧ AtMost n lengths :=
  List.forall_mem_cons

@[simp] theorem append_iff :
    AtMost n (lengths ++ lengths') ↔ AtMost n lengths ∧ AtMost n lengths' :=
  List.forall_mem_append

@[simp] theorem flatMap_iff {inner : α → List Nat} {xs : List α} :
    AtMost n (xs.flatMap inner) ↔ ∀ x ∈ xs, AtMost n (inner x) := List.forall_mem_flatMap

@[simp] theorem listLengths_iff {inner : α → List Nat} {xs : List α} :
    AtMost n (listLengths inner xs) ↔ xs.length ≤ n ∧ ∀ x ∈ xs, AtMost n (inner x) := by
  rw [listLengths, cons_iff, flatMap_iff]

theorem mono (bounded : AtMost n lengths) (le : n ≤ m) : AtMost m lengths :=
  fun k mem => Nat.le_trans (bounded k mem) le

/-- The lists of two parts, with the bytes of both. -/
theorem both {x y : List UInt8} (first : AtMost x.length lengths)
    (second : AtMost y.length lengths') :
    AtMost (x ++ y).length (lengths ++ lengths') := by
  rw [List.length_append, append_iff]
  exact ⟨first.mono (Nat.le_add_right _ _), second.mono (Nat.le_add_left _ _)⟩

end AtMost

/-- The lengths of the parameters and of the results. -/
def FuncType.lengths (t : FuncType) : List Nat := [t.params.length, t.results.length]

/-- The lengths of the lists in an instruction. -/
def Instr.lengths : Instr → List Nat
  | .brTable labels _ => [labels.length]
  | .selectTyped types => [types.length]
  | _ => []

/-- The number of instructions, and the lengths of the lists in them. -/
def Code.lengths (code : Code) : List Nat := listLengths Instr.lengths code.toList

/-- The lengths of the two names. -/
def Import.lengths (i : Import) : List Nat := [i.module.utf8ByteSize, i.name.utf8ByteSize]

/-- The length of the name. -/
def Export.lengths (e : Export) : List Nat := [e.name.utf8ByteSize]

def Global.lengths (g : Global) : List Nat := Code.lengths g.init

def ElemMode.lengths : ElemMode → List Nat
  | .active _ offset => Code.lengths offset
  | _ => []

def ElemItems.lengths : ElemItems → List Nat
  | .funcs is => [is.length]
  | .exprs es => listLengths Code.lengths es

def ElemSegment.lengths (e : ElemSegment) : List Nat := e.mode.lengths ++ e.items.lengths

def DataMode.lengths : DataMode → List Nat
  | .active _ offset => Code.lengths offset
  | _ => []

def DataSegment.lengths (d : DataSegment) : List Nat := d.mode.lengths ++ [d.bytes.length]

/-- The number of groups of locals, and the lengths in the code. -/
def Body.lengths (b : Body) : List Nat := b.locals.length :: Code.lengths b.code

/-- The lengths of the name and of the bytes. -/
def CustomSection.lengths (c : CustomSection) : List Nat := [c.name.utf8ByteSize, c.bytes.length]

/-- The lengths of the lists of a function, apart from that of its locals. -/
def FuncDecl.lengths (d : FuncDecl) : List Nat :=
  d.type.lengths ++ match d.body with
    | some b => Code.lengths b.code
    | none => []

def GlobalDecl.lengths (g : GlobalDecl) : List Nat :=
  match g.init with
  | some init => Code.lengths init
  | none => []

/-- The lengths of all lists of a module and of all that is in them, apart from the locals of
functions. -/
def Module.lengths (m : Module) : List Nat :=
  listLengths FuncType.lengths m.types.toList ++
    (listLengths Import.lengths m.imports ++
    (listLengths FuncDecl.lengths m.funcs ++
    ([m.tables.length, m.memories.length] ++
    (listLengths GlobalDecl.lengths m.globals ++
    (listLengths ElemSegment.lengths m.elems ++
    (listLengths DataSegment.lengths m.datas ++
    (listLengths Export.lengths m.exports ++
    listLengths CustomSection.lengths m.custom)))))))

/-! ## What lists are read from -/

theorem Instr.Spelled.lengths {i : Instr} {bs : List UInt8} (spelled : i.Spelled bs) :
    AtMost bs.length i.lengths := by
  obtain ⟨x, y, rfl, -, operands⟩ := spelled
  rw [List.length_cons, List.length_append]
  cases i with
  | brTable labels fallback =>
    obtain ⟨z, w, listed, -, rfl⟩ := operands
    have few := listed.length_le fun _ _ number => number.1.ne_nil
    rw [List.length_append, Instr.lengths, AtMost.cons_iff]
    exact ⟨by omega, .nil⟩
  | selectTyped types =>
    have listed : SpelledVec (fun type z => z = type.encode) types y := operands
    have few := listed.length_le (by rintro _ _ rfl; exact List.cons_ne_nil _ [])
    rw [Instr.lengths, AtMost.cons_iff]
    exact ⟨by omega, .nil⟩
  | _ => exact .nil

theorem Instr.lengths_bare (i : Instr) : i.bare.lengths = i.lengths := by cases i <;> rfl

namespace Decoder

variable {α β γ : Type} {d : Decoder α} {d' : Decoder β}

/-- No list in what is read is longer than what it is read from. -/
def Spans (d : Decoder α) (lengths : α → List Nat) : Prop :=
  d.Finds fun a bs => AtMost bs.length (lengths a)

namespace Spans

variable {inner lengths : α → List Nat} {inner' : β → List Nat}

/-- There are no lists in what is read. -/
theorem none (d : Decoder α) : d.Spans fun _ => [] :=
  (Finds.trivially d).mono fun _ _ _ => .nil

theorem pure {a : α} (empty : lengths a = []) : (Pure.pure a : Decoder α).Spans lengths :=
  Finds.pure (empty ▸ .nil)

theorem fail {e : DecodeError} : (Decoder.fail e : Decoder α).Spans lengths := Finds.fail

/-- All lists are in the second of two parts. -/
theorem behind {k : α → Decoder β} (second : ∀ a, (k a).Spans inner') : (d >>= k).Spans inner' :=
  (none d).bind fun a _ before => (second a).mono fun _ _ after => before.both after

/-- The lists are those of one part. -/
theorem map {f : α → γ} {lengths : γ → List Nat} (part : d.Spans inner)
    (made : ∀ a, lengths (f a) = inner a) :
    (d >>= fun a => Pure.pure (f a) : Decoder γ).Spans lengths :=
  Finds.map part fun a _ spans => made a ▸ spans

/-- The lists are those of two parts. -/
theorem map₂ {f : α → β → γ} {lengths : γ → List Nat} (first : d.Spans inner)
    (second : d'.Spans inner') (made : ∀ a b, lengths (f a b) = inner a ++ inner' b) :
    (d >>= fun a => d' >>= fun b => Pure.pure (f a b) : Decoder γ).Spans lengths :=
  Finds.map₂ first second fun a b _ _ spans spans' => made a b ▸ spans.both spans'

/-- A list of items that take at least a byte each. -/
theorem vec (progress : d.Progresses) (each : d.Spans inner) :
    (Decoder.vec d).Spans (listLengths inner) := by
  refine (Finds.vec (progress.and each)).mono ?_
  rintro as _ ⟨n, x, y, -, -, row, rfl⟩
  have few : as.length ≤ y.length := row.length_le fun _ _ item => item.1
  rw [AtMost.listLengths_iff, List.length_append]
  refine ⟨Nat.le_add_left_of_le few, fun a mem => ?_⟩
  obtain ⟨z, ⟨-, spans⟩, le⟩ := row.exists_of_mem mem
  exact spans.mono (Nat.le_add_left_of_le le)

/-- A list of items without lists. -/
theorem items (progress : d.Progresses) : (Decoder.vec d).Spans fun as => [as.length] :=
  (vec progress (none d)).mono fun _ _ spans => by
    simpa using (AtMost.listLengths_iff.mp spans).1

theorem isolated (n : Nat) (part : d.Spans inner) : (Decoder.isolated n d).Spans inner :=
  Finds.isolated part n

/-! ### Names and types -/

theorem bytes : Decoder.bytes.Spans fun bs => [bs.length] :=
  behind fun n => (Exactly.take n.toNat).finds.mono fun bs x ⟨same, _⟩ => by simp [same]

theorem name : Decoder.name.Spans fun s => [s.utf8ByteSize] := by
  refine behind fun pos => Finds.bind bytes fun bs x spans => ?_
  cases text : String.fromUTF8? bs.toByteArray with
  | none => exact Finds.fail
  | some s =>
    refine Finds.pure ?_
    have size : s.utf8ByteSize = bs.length := by
      rw [String.fromUTF8?] at text
      split at text
      · cases text
        exact List.size_toByteArray
      · cases text
    rw [List.append_nil]
    dsimp only at spans ⊢
    rwa [size]

theorem funcType : Decoder.funcType.Spans FuncType.lengths := by
  refine behind fun form => ?_
  split
  · exact fail
  · exact (items (ItemKind.progresses .valType)).map₂ (items (ItemKind.progresses .valType))
      fun _ _ => rfl

/-! ### Code -/

theorem sequence : Decoder.sequence.Spans Code.lengths := by
  refine Exactly.sequence.finds.mono ?_
  rintro code bs ⟨is, row, -, flat⟩
  obtain ⟨f, pushed, rfl⟩ := Except.exists_of_map flat
  have tracks := Flattener.tracks_of_foldlM pushed
  have few : is.length ≤ bs.length := row.length_le fun _ _ spelled => spelled.ne_nil
  rw [Code.lengths, AtMost.listLengths_iff, Array.length_toList, tracks.size_eq]
  refine ⟨few, fun i mem => ?_⟩
  -- flattening changes the targets of an instruction, but not its lists
  have listed : i.bare ∈ is.map Instr.bare := tracks.bare ▸ List.mem_map_of_mem mem
  obtain ⟨j, mem', same⟩ := List.mem_map.mp listed
  obtain ⟨x, spelled, le⟩ := row.exists_of_mem mem'
  rw [← i.lengths_bare, ← same, j.lengths_bare]
  exact spelled.lengths.mono le

/-! ### Items of sections -/

theorem importDecl : Decoder.importDecl.Spans Import.lengths :=
  Finds.bind name fun _ _ spans => Finds.map₂ name (none Decoder.importDesc)
    fun _ _ _ _ spans' _ =>
    spans.both (spans'.both .nil)

theorem exportDecl : Decoder.exportDecl.Spans Export.lengths :=
  name.map₂ (none Decoder.exportDesc) fun _ _ => rfl

theorem global : Decoder.global.Spans Global.lengths := behind fun _ => sequence.map fun _ => rfl

theorem body : Decoder.body.Spans Body.lengths := by
  have contents : Decoder.bodyContents.Spans Body.lengths :=
    (items (ItemKind.progresses .localGroup)).map₂ sequence fun _ _ => rfl
  exact behind fun size => contents.isolated size.toNat

theorem elemMode (tag : Nat) : (Decoder.elemMode tag).Spans ElemMode.lengths := by
  unfold Decoder.elemMode
  split
  · exact sequence.map fun _ => rfl
  · exact pure rfl
  · exact behind fun _ => sequence.map fun _ => rfl
  · exact pure rfl

theorem elemItems (tag : Nat) : (Decoder.elemItems tag).Spans ElemItems.lengths := by
  unfold Decoder.elemItems
  split
  · exact (items (ItemKind.progresses (.idx .func))).map fun _ => rfl
  · exact (vec (ItemKind.progresses .expr) sequence).map fun _ => rfl

theorem elemSegment : Decoder.elemSegment.Spans ElemSegment.lengths := by
  refine behind fun tag => ?_
  split
  · exact fail
  · exact Finds.bind (elemMode _) fun _ _ spans =>
      Finds.map₂ (none (elemType _)) (elemItems _) fun _ _ _ _ _ spans' =>
        spans.both (AtMost.nil.both spans')

theorem dataMode : Decoder.dataMode.Spans DataMode.lengths := by
  refine behind fun tag => ?_
  split
  · exact sequence.map fun _ => rfl
  · exact pure rfl
  · exact behind fun _ => sequence.map fun _ => rfl
  · exact fail

theorem dataSegment : Decoder.dataSegment.Spans DataSegment.lengths :=
  dataMode.map₂ bytes fun _ _ => rfl

theorem remaining : Decoder.remaining.Spans fun bs => [bs.length] := by
  intro s bs t run
  cases run
  exact ⟨s.bytes, by simp, (List.append_nil _).symm, rfl⟩

theorem customSection : Decoder.customSection.Spans CustomSection.lengths :=
  name.map₂ remaining fun _ _ => rfl

end Spans

end Decoder

/-! ## Sections -/

/-- The number of entries of a section. -/
def Section.entries : Section → Nat
  | .custom _ => 1
  | .types xs => xs.length
  | .imports xs => xs.length
  | .funcs xs => xs.length
  | .tables xs => xs.length
  | .memories xs => xs.length
  | .globals xs => xs.length
  | .exports xs => xs.length
  | .elems xs => xs.length
  | .bodies xs => xs.length
  | .datas xs => xs.length
  | .start _ | .dataCount _ => 0

/-- The lengths of the lists in the entries of a section. -/
def Section.lengths : Section → List Nat
  | .custom c => c.lengths
  | .types xs => xs.flatMap FuncType.lengths
  | .imports xs => xs.flatMap Import.lengths
  | .globals xs => xs.flatMap Global.lengths
  | .exports xs => xs.flatMap Export.lengths
  | .elems xs => xs.flatMap ElemSegment.lengths
  | .bodies xs => xs.flatMap Body.lengths
  | .datas xs => xs.flatMap DataSegment.lengths
  | .funcs _ | .tables _ | .memories _ | .start _ | .dataCount _ => []

namespace Sections

/-- The number of entries of all sections. -/
def entries (s : Sections) : Nat :=
  s.types.length + s.imports.length + s.funcs.length + s.tables.length + s.memories.length +
    s.globals.length + s.exports.length + s.elems.length + s.bodies.length + s.datas.length +
    s.custom.length

/-- The lengths of the lists in the entries of all sections. -/
def lengths (s : Sections) : List Nat :=
  s.types.flatMap FuncType.lengths ++ (s.imports.flatMap Import.lengths ++
    (s.globals.flatMap Global.lengths ++ (s.exports.flatMap Export.lengths ++
    (s.elems.flatMap ElemSegment.lengths ++ (s.bodies.flatMap Body.lengths ++
    (s.datas.flatMap DataSegment.lengths ++ s.custom.flatMap CustomSection.lengths))))))

variable {s : Sections} {c : Section} {n : Nat}

theorem entries_add_le (s : Sections) (c : Section) :
    (s.add c).entries ≤ s.entries + c.entries := by
  cases c <;> simp [entries, add, Section.entries] <;> omega

theorem lengths_add (sofar : AtMost n s.lengths) (new : AtMost n c.lengths) :
    AtMost n (s.add c).lengths := by
  simp only [lengths, AtMost.append_iff, AtMost.flatMap_iff] at sofar ⊢
  cases c with
  | custom c =>
    simp only [add, List.forall_mem_append, List.forall_mem_singleton]
    tauto
  | _ =>
    simp only [add, Section.lengths, AtMost.flatMap_iff] at new ⊢
    tauto

end Sections

/-- A byte in decimal has up to three digits. -/
theorem utf8ByteSize_toString_le (b : UInt8) : (toString b.toNat).utf8ByteSize ≤ 3 := by
  have all : ∀ n : Fin 256, (toString n.val).utf8ByteSize ≤ 3 := by decide +kernel
  exact all ⟨b.toNat, b.toNat_lt⟩

/-- What a section says is no longer than its payload, but for the name of a section of an unknown
identifier, which is that number in up to three digits. -/
theorem Section.decode_spans {id : UInt8} {payload : Input} {c : Section}
    (known : Section.decode id payload = .ok c) :
    c.entries ≤ payload.bytes.length + 1 ∧ AtMost (payload.bytes.length + 3) c.lengths := by
  have listed {α : Type} {d : Decoder α} {inner : α → List Nat} {xs : List α}
      (progress : d.Progresses)
      (each : d.Spans inner) (read : (Decoder.vec d).whole payload = .ok xs) :
      xs.length ≤ payload.bytes.length + 1 ∧
      AtMost (payload.bytes.length + 3) (xs.flatMap inner) := by
    obtain ⟨few, short⟩ := AtMost.cons_iff.mp ((Decoder.Spans.vec progress each).whole read)
    exact ⟨Nat.le_succ_of_le few, short.mono (Nat.le_add_right _ _)⟩
  have counted {α : Type} {d : Decoder α} {xs : List α} (progress : d.Progresses)
      (read : (Decoder.vec d).whole payload = .ok xs) :
      xs.length ≤ payload.bytes.length + 1 ∧ AtMost (payload.bytes.length + 3) [] :=
    ⟨(listed progress (.none d) read).1, .nil⟩
  open Decoder Spans in
  unfold Section.decode at known
  split at known
  case h_14 =>
    cases known
    refine ⟨Nat.le_add_left 1 _, ?_⟩
    rw [lengths, CustomSection.lengths, AtMost.cons_iff, AtMost.cons_iff]
    exact ⟨Nat.le_add_left_of_le (utf8ByteSize_toString_le id), Nat.le_add_right _ _, .nil⟩
  all_goals obtain ⟨items, read, rfl⟩ := Except.exists_of_map known
  case h_1 => exact ⟨Nat.le_add_left 1 _, AtMost.mono (customSection.whole read)
    (Nat.le_add_right _ _)⟩
  case h_2 => exact listed (ItemKind.progresses .funcType) funcType read
  case h_3 => exact listed (ItemKind.progresses .importDecl) importDecl read
  case h_4 => exact counted (ItemKind.progresses (.idx .type)) read
  case h_5 => exact counted (ItemKind.progresses .tableType) read
  case h_6 => exact counted (ItemKind.progresses .memType) read
  case h_7 => exact listed (ItemKind.progresses .global) global read
  case h_8 => exact listed (ItemKind.progresses .exportDecl) exportDecl read
  case h_10 => exact listed (ItemKind.progresses .elemSegment) elemSegment read
  case h_11 => exact listed (ItemKind.progresses .body) body read
  case h_12 => exact listed (ItemKind.progresses .dataSegment) dataSegment read
  all_goals exact ⟨Nat.zero_le _, .nil⟩

/-! ## Modules -/

namespace SectionFrame

/-- What a section says is no longer than the section, but for a name. -/
theorem contents?_spans {f : SectionFrame} {c : Section} (known : f.contents? = some c) :
    c.entries ≤ f.bytes.length ∧ AtMost (f.bytes.length + 1) c.lengths := by
  have read : f.decodeAt 0 = .ok c := decodeAt_eq_ok.mpr known
  obtain ⟨few, short⟩ := Section.decode_spans read
  have sized := List.length_pos_iff.mpr f.ends.ne_nil
  have length := f.length_bytes
  dsimp only at few short
  exact ⟨by omega, short.mono (by omega)⟩

/-- The sections in a row share its bytes. -/
theorem entries_foldl_le (row : List SectionFrame) (s : Sections) :
    ((row.filterMap contents?).foldl Sections.add s).entries ≤ s.entries + (row.flatMap
      bytes).length := by
  induction row generalizing s with
  | nil => exact Nat.le_refl _
  | cons f row ih =>
    rw [List.flatMap_cons, List.length_append]
    cases known : f.contents? with
    | none =>
      rw [List.filterMap_cons_none known]
      have rest := ih s
      omega
    | some c =>
      rw [List.filterMap_cons_some known, List.foldl_cons]
      have rest := ih (s.add c)
      have here := s.entries_add_le c
      have few := (contents?_spans known).1
      omega

theorem lengths_foldl {n : Nat} (row : List SectionFrame) {s : Sections}
    (sofar : AtMost n s.lengths) (within : (row.flatMap bytes).length < n) :
    AtMost n ((row.filterMap contents?).foldl Sections.add s).lengths := by
  induction row generalizing s with
  | nil => exact sofar
  | cons f row ih =>
    rw [List.flatMap_cons, List.length_append] at within
    have later : (row.flatMap bytes).length < n := by omega
    cases known : f.contents? with
    | none =>
      rw [List.filterMap_cons_none known]
      exact ih sofar later
    | some c =>
      have here : AtMost n c.lengths := (contents?_spans known).2.mono (by omega)
      rw [List.filterMap_cons_some known, List.foldl_cons]
      exact ih (Sections.lengths_add sofar here) later

/-- The sections that are kept of a module have no more entries than it has bytes, and no longer
lists. -/
theorem ofLast_spans (row : List SectionFrame) :
    (Sections.ofLast (row.filterMap contents?)).entries ≤ (moduleBytes row).length ∧
      AtMost (moduleBytes row).length (Sections.ofLast (row.filterMap contents?)).lengths := by
  rw [← Sections.foldl_add, length_moduleBytes]
  constructor
  · have few := entries_foldl_le row {}
    have none : Sections.entries {} = 0 := rfl
    omega
  · exact lengths_foldl row .nil (by omega)

end SectionFrame

namespace Sections

variable {s : Sections} {n : Nat}

theorem lengths_typeAt (types : ∀ t ∈ s.types, AtMost n t.lengths) (idx : TypeIdx) :
    AtMost n (typeAt s.types.toArray idx).lengths := by
  rw [typeAt]
  cases found : s.types.toArray[idx.toNat]? with
  | none => exact AtMost.cons_iff.mpr ⟨Nat.zero_le n, AtMost.cons_iff.mpr ⟨Nat.zero_le n, .nil⟩⟩
  | some t => exact types t (List.mem_of_getElem? (List.getElem?_toArray ▸ found))

/-- A function has the lists of its type and those of its body. -/
theorem lengths_funcs (types : ∀ t ∈ s.types, AtMost n t.lengths)
    (bodies : ∀ b ∈ s.bodies, AtMost n b.lengths) : ∀ d ∈ s.joined.funcs, AtMost n d.lengths := by
  intro d mem
  rcases List.mem_append.mp mem with isImported | isDefined
  · obtain ⟨idx, -, rfl⟩ := List.mem_map.mp isImported
    exact AtMost.append_iff.mpr ⟨lengths_typeAt types idx, .nil⟩
  · obtain ⟨⟨idx, b⟩, listed, rfl⟩ := List.mem_map.mp isDefined
    have code := (AtMost.cons_iff.mp (bodies b (List.of_mem_zip listed).2)).2
    exact AtMost.append_iff.mpr ⟨lengths_typeAt types idx, code⟩

theorem lengths_globals (globals : ∀ g ∈ s.globals, AtMost n g.lengths) :
    ∀ g ∈ s.joined.globals, AtMost n g.lengths := by
  intro g mem
  rcases List.mem_append.mp mem with isImported | isDefined
  · obtain ⟨type, -, rfl⟩ := List.mem_map.mp isImported
    exact .nil
  · obtain ⟨own, listed, rfl⟩ := List.mem_map.mp isDefined
    exact globals own listed

/-- Lists that are joined are no longer than what they are joined from. -/
theorem lengths_joined (few : s.entries ≤ n) (short : AtMost n s.lengths) :
    AtMost n s.joined.lengths := by
  simp only [lengths, AtMost.append_iff, AtMost.flatMap_iff] at short
  obtain ⟨types, imports, globals, exports, elems, bodies, datas, custom⟩ := short
  have imported {α : Type} (kind : Import → Option α) :
      (s.imports.filterMap kind).length ≤ s.imports.length := List.length_filterMap_le ..
  have funcs : s.joined.funcs.length ≤ s.imports.length + s.funcs.length := by
    have first := imported (·.desc.func?)
    simp only [joined, importedFuncs, List.length_append, List.length_map, List.length_zip]
    omega
  have tables : s.joined.tables.length ≤ s.imports.length + s.tables.length :=
    List.length_append ▸ Nat.add_le_add_right (imported _) _
  have memories : s.joined.memories.length ≤ s.imports.length + s.memories.length :=
    List.length_append ▸ Nat.add_le_add_right (imported _) _
  have own_globals : s.joined.globals.length ≤ s.imports.length + s.globals.length := by
    have first := imported (·.desc.global?)
    simp only [joined, List.length_append, List.length_map]
    omega
  rw [entries] at few
  simp only [Module.lengths, AtMost.append_iff, AtMost.cons_iff, AtMost.listLengths_iff]
  refine ⟨⟨?_, types⟩, ⟨?_, imports⟩, ⟨?_, lengths_funcs types bodies⟩, ⟨?_, ?_, .nil⟩,
    ⟨?_, lengths_globals globals⟩, ⟨?_, elems⟩, ⟨?_, datas⟩, ⟨?_, exports⟩, ?_, custom⟩
  all_goals
    dsimp only [joined] at *
    omega

end Sections

namespace Module

variable {bytes : List UInt8} {m : Module}

/-- What is decoded joins the sections that are kept of a row. -/
theorem exists_joined (accepted : Module.decode bytes = .ok m) :
    ∃ (row : List SectionFrame) (s : Sections),
    bytes = SectionFrame.moduleBytes row ∧ s = .ofLast (row.filterMap SectionFrame.contents?) ∧
      s.defects = [] ∧ s.joined = m := by
  obtain ⟨row, rfl, sound⟩ := exists_row accepted
  rw [decode_sound sound] at accepted
  cases built : (Sections.ofLast (row.filterMap SectionFrame.contents?)).build with
  | error e =>
    rw [built] at accepted
    cases accepted
  | ok m' =>
    rw [built] at accepted
    cases accepted
    exact ⟨row, _, rfl, rfl, Sections.build_eq_ok.mp built⟩

/-- No list of a decoded module is longer than its bytes. -/
theorem lengths_decode (accepted : Module.decode bytes = .ok m) :
    AtMost bytes.length m.lengths := by
  obtain ⟨row, s, rfl, rfl, -, rfl⟩ := exists_joined accepted
  obtain ⟨few, short⟩ := SectionFrame.ofLast_spans row
  exact Sections.lengths_joined few short

/-- A function of a decoded module has no more locals than it may have. -/
theorem length_locals_decode (accepted : Module.decode bytes = .ok m) {d : FuncDecl}
    (declared : d ∈ m.funcs) {b : FuncBody} (body : d.body = some b) :
    b.locals.length ≤ maxLocals := by
  obtain ⟨row, s, -, -, sound, rfl⟩ := exists_joined accepted
  obtain ⟨-, -, -, few⟩ := Sections.defects_eq_nil.mp sound
  rcases List.mem_append.mp declared with isImported | isDefined
  · obtain ⟨idx, -, rfl⟩ := List.mem_map.mp isImported
    cases body
  · obtain ⟨⟨idx, own⟩, listed, rfl⟩ := List.mem_map.mp isDefined
    cases body
    exact own.length_expandLocals ▸ few own (List.of_mem_zip listed).2

/-- The bytes of a module with one function, whose locals are declared by one group: 50000 of
them. -/
def manyLocals : List UInt8 :=
  [0x00, 0x61, 0x73, 0x6d, 0x01, 0x00, 0x00, 0x00,
    0x01, 0x04, 0x01, 0x60, 0x00, 0x00,
    0x03, 0x02, 0x01, 0x00,
    0x0a, 0x08, 0x01, 0x06, 0x01, 0xd0, 0x86, 0x03, 0x7f, 0x0b]

theorem decode_manyLocals : ∃ m, Module.decode manyLocals = .ok m ∧
    ∃ d ∈ m.funcs, ∃ b, d.body = some b ∧ b.locals.length = 50000 := by
  -- the locals are never written out, only counted
  let own : Body := ⟨[⟨50000, .i32⟩], #[.endOf]⟩
  let s : Sections := { types := [⟨[], []⟩], funcs := [⟨0⟩], bodies := [own] }
  have head : Decoder.header.run ⟨0, manyLocals⟩ = .ok ((), ⟨8, manyLocals.drop 8⟩) := rfl
  have read : Decoder.sectionsFrom {} ⟨8, manyLocals.drop 8⟩ = .ok s := by decide +kernel
  have built : s.build = .ok s.joined :=
    Sections.build_eq_ok.mpr ⟨Sections.defects_eq_nil.mpr (by decide), rfl⟩
  refine ⟨s.joined, ?_, definedDecl s.types.toArray (⟨0⟩, own),
    List.mem_singleton.mpr rfl, _, rfl, ?_⟩
  · rw [Module.decode, head]
    dsimp only [bind, Except.bind]
    rw [read]
    dsimp only
    rw [built]
    rfl
  · exact own.length_expandLocals

/-- What a count claims does not decide how much is done or how long a list is. Each item that is
counted takes at least a byte, so that the loop over them ends after as many passes as there are
bytes and then one, if not before; what it reads has as many items as are claimed, and no more
than it takes bytes. The loops over instructions and over sections end as well, on every input. So
no list in any part of a decoded module is longer than its bytes, except for the locals of its
functions once they are written out: there are up to 50000 of these in a function, which can be
more than there are bytes. -/
theorem decode_bounded :
    (∀ kind : ItemKind, kind.decoder.Bounded) ∧
    (∀ f s, Decoder.instrLoop.Ends (f, s) (s.bytes.length + 1) (Decoder.sequenceFrom f s)) ∧
    (∀ acc s, Decoder.sectionLoop.Ends (acc, s) s.bytes.length (Decoder.sectionsFrom acc s)) ∧
    (∀ bytes m, Module.decode bytes = .ok m → (∀ n ∈ m.lengths, n ≤ bytes.length) ∧
      ∀ d ∈ m.funcs, ∀ b, d.body = some b → b.locals.length ≤ 50000) ∧
    ∃ bytes m, Module.decode bytes = .ok m ∧ bytes.length < 50000 ∧
      ∃ d ∈ m.funcs, ∃ b, d.body = some b ∧ b.locals.length = 50000 := by
  refine ⟨fun kind => kind.progresses.bounded, Decoder.instrLoop_ends,
    Decoder.sectionLoop_ends, ?_, ?_⟩
  · intro bytes m accepted
    exact ⟨lengths_decode accepted, fun d declared b body =>
      length_locals_decode accepted declared body⟩
  · obtain ⟨m, accepted, many⟩ := decode_manyLocals
    exact ⟨manyLocals, m, accepted, by decide, many⟩

/-- A count of 4294967295 types in front of one byte, and the module of 28 bytes that has 50000
locals. -/
theorem decode_bounded_of_huge_count :
    let counted : Input := ⟨0, [0xff, 0xff, 0xff, 0xff, 0x0f, 0x7f]⟩
    Decoder.u32.run counted = .ok (0xffffffff, ⟨5, [0x7f]⟩) ∧
    (Decoder.itemLoop Decoder.valType).Ends (4294967295, [], ⟨5, [0x7f]⟩) 2
      (.error (.malformed 6 .eof)) ∧
    ∃ m, Module.decode manyLocals = .ok m ∧ ∀ n ∈ m.lengths, n ≤ 28 := by
  intro counted
  obtain ⟨items, -, -, lists, -⟩ := decode_bounded
  have known : Decoder.u32.run counted = .ok (0xffffffff, ⟨5, [0x7f]⟩) := by decide
  have stopped : (Decoder.vec Decoder.valType).run counted = .error (.malformed 6 .eof) := by
    decide +kernel
  have ends := (items .valType).passes known
  obtain ⟨m, accepted, -⟩ := decode_manyLocals
  exact ⟨known, stopped ▸ ends, m, accepted, (lists _ m accepted).1⟩

end Module

end WasmMachine
