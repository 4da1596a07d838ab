import WasmMachine.Binary.Module
import WasmMachine.Proofs.Building
import WasmMachine.Proofs.DecodedCode
import WasmMachine.Proofs.Reads

/-!
# All code of a decoded module is resolved

A module has code in its functions, in the initialisers of its globals, and in the offsets and
items of its segments.  All of it has been read by `Decoder.sequence`, so what holds of every
sequence holds of all code of a module (`Module.decode_allCode`).
-/

namespace WasmMachine

/-! ## What a decoder reads -/

/-- Everything that a decoder reads has a property. -/
def Decoder.Yields {α : Type} (d : Decoder α) (P : α → Prop) : Prop :=
  ∀ ⦃s a t⦄, d.run s = .ok (a, t) → P a

namespace Decoder.Yields

variable {α β : Type} {P : α → Prop} {Q : β → Prop} {d : Decoder α}

theorem trivially (d : Decoder α) : d.Yields fun _ => True := fun _ _ _ _ => trivial

theorem pure {a : α} (holds : P a) : (Pure.pure a : Decoder α).Yields P := by
  intro s b t run
  cases run
  exact holds

theorem fail (e : DecodeError) : (Decoder.fail e : Decoder α).Yields P := by
  intro s b t run
  cases run

/-- What the first part yields is known to the second one. -/
theorem bind {k : α → Decoder β} (first : d.Yields P) (rest : ∀ a, P a → (k a).Yields Q) :
    (d >>= k).Yields Q := by
  intro s b t run
  obtain ⟨a, u, head, tail⟩ := Decoder.exists_of_bind run
  exact rest a (first head) tail

theorem whole {s : Input} {a : α} (each : d.Yields P) (run : d.whole s = .ok a) : P a := by
  obtain ⟨u, read, -⟩ := Decoder.exists_of_whole run
  exact each read

/-- A value with a size in front has been read by its own decoder. -/
theorem isolated (n : Nat) (each : d.Yields P) : (Decoder.isolated n d).Yields P := by
  intro s a t run
  obtain ⟨front, -, filled⟩ := Decoder.exists_of_isolated run
  exact each.whole filled

/-- What each of the values satisfies, all of them do. -/
theorem times (n : Nat) (each : d.Yields P) :
    (Decoder.times n d).Yields fun as => ∀ a ∈ as, P a := by
  have all : ∀ (acc : List α) ⦃s as t⦄, (∀ a ∈ acc, P a) →
      Decoder.timesFrom d n acc s = .ok (as, t) → ∀ a ∈ as, P a := by
    induction n with
    | zero =>
      intro acc s as t before run
      cases run
      exact fun a mem => before a (List.mem_reverse.mp mem)
    | succ n ih =>
      intro acc s as t before run
      unfold Decoder.timesFrom at run
      cases head : d.run s with
      | error e =>
        rw [head] at run
        cases run
      | ok p =>
        rw [head] at run
        exact ih (p.1 :: acc) (List.forall_mem_cons.mpr ⟨each head, before⟩) run
  exact fun s as t run => all [] (fun _ mem => absurd mem List.not_mem_nil) run

theorem vec (each : d.Yields P) : (Decoder.vec d).Yields fun as => ∀ a ∈ as, P a :=
  .bind (trivially _) fun n _ => times n.toNat each

end Decoder.Yields

/-! ## The code of a module -/

section AllCode

variable (P : Code → Prop)

/-- All code of an element segment. -/
def ElemSegment.AllCode (e : ElemSegment) : Prop :=
  (∀ table offset, e.mode = .active table offset → P offset) ∧
    ∀ exprs, e.items = .exprs exprs → ∀ code ∈ exprs, P code

/-- All code of a data segment. -/
def DataSegment.AllCode (d : DataSegment) : Prop :=
  ∀ mem offset, d.mode = .active mem offset → P offset

/-- All code of a section. -/
def Section.AllCode : Section → Prop
  | .globals gs => ∀ g ∈ gs, P g.init
  | .elems es => ∀ e ∈ es, e.AllCode P
  | .bodies bs => ∀ b ∈ bs, P b.code
  | .datas ds => ∀ d ∈ ds, d.AllCode P
  | _ => True

/-- All code of some sections. -/
structure Sections.AllCode (s : Sections) : Prop where
  globals : ∀ g ∈ s.globals, P g.init
  elems : ∀ e ∈ s.elems, e.AllCode P
  bodies : ∀ b ∈ s.bodies, P b.code
  datas : ∀ d ∈ s.datas, d.AllCode P

/-- All code of a module. -/
structure Module.AllCode (m : Module) : Prop where
  funcs : ∀ d ∈ m.funcs, ∀ b, d.body = some b → P b.code
  globals : ∀ g ∈ m.globals, ∀ init, g.init = some init → P init
  elems : ∀ e ∈ m.elems, e.AllCode P
  datas : ∀ d ∈ m.datas, d.AllCode P

end AllCode

/-! ## Taking results apart -/

theorem Except.exists_of_map {ε α β : Type} {g : α → β} {r : Except ε α} {b : β}
    (mapped : g <$> r = .ok b) : ∃ a, r = .ok a ∧ b = g a := by
  cases r with
  | error e => cases mapped
  | ok a =>
    cases mapped
    exact ⟨a, rfl, rfl⟩

theorem Except.exists_of_bind {ε α β : Type} {r : Except ε α} {k : α → Except ε β} {b : β}
    (bound : r >>= k = .ok b) : ∃ a, r = .ok a ∧ k a = .ok b := by
  cases r with
  | error e => cases bound
  | ok a => exact ⟨a, rfl, bound⟩

/-- A result that is there has been one all along. -/
theorem Except.of_toOption {ε α : Type} {x : Except ε α} {a : α} (some : x.toOption = some a) :
    x = .ok a := by
  cases x <;> cases some
  rfl

/-- What a list is mapped to has been made of its items. -/
theorem Except.exists_of_mem_mapM {ε α β : Type} {f : α → Except ε β} {xs : List α} {ys : List β}
    {y : β} (run : xs.mapM f = .ok ys) (mem : y ∈ ys) : ∃ x ∈ xs, f x = .ok y := by
  induction xs generalizing ys with
  | nil =>
    cases run
    cases mem
  | cons x xs ih =>
    rw [List.mapM_cons] at run
    obtain ⟨z, first, rest⟩ := Except.exists_of_bind run
    obtain ⟨zs, others, done⟩ := Except.exists_of_bind rest
    cases done
    rcases List.mem_cons.mp mem with rfl | later
    · exact ⟨x, List.mem_cons_self, first⟩
    · obtain ⟨x', mem', made⟩ := ih others later
      exact ⟨x', .tail x mem', made⟩

/-! ## Decoded sections -/

section Decoding

open Decoder

variable {P : Code → Prop} (sequences : sequence.Yields P)

include sequences

theorem Decoder.global_yields : global.Yields fun g => P g.init :=
  .bind (.trivially _) fun _ _ => .bind sequences fun _ code => .pure code

theorem Decoder.body_yields : body.Yields fun b => P b.code :=
  .bind (.trivially _) fun _ _ => .isolated _ <|
    .bind (.trivially _) fun _ _ => .bind sequences fun _ code => .pure code

theorem Decoder.elemMode_yields (tag : Nat) :
    (elemMode tag).Yields fun mode => ∀ table offset, mode = .active table offset → P offset := by
  unfold elemMode
  split
  · refine .bind sequences fun code holds => .pure fun table offset same => ?_
    cases same
    exact holds
  · exact .pure fun table offset same => by cases same
  · refine .bind (.trivially _) fun _ _ => .bind sequences fun code holds =>
      .pure fun table offset same => ?_
    cases same
    exact holds
  · exact .pure fun table offset same => by cases same

/-- The items of a segment are code only if its tag says so. -/
theorem Decoder.elemItems_yields (tag : Nat) :
    (elemItems tag).Yields fun items => ∀ exprs, items = .exprs exprs →
    ∀ code ∈ exprs, P code := by
  unfold elemItems
  split
  · exact .bind (.trivially _) fun _ _ => .pure fun exprs same => by cases same
  · refine .bind (.vec sequences) fun codes hold => .pure fun exprs same => ?_
    cases same
    exact hold

theorem Decoder.elemSegment_yields : elemSegment.Yields (ElemSegment.AllCode P) := by
  refine .bind (.trivially _) fun tag _ => ?_
  split
  · exact .fail _
  · exact .bind (elemMode_yields sequences _) fun mode inMode =>
      .bind (.trivially _) fun type _ =>
        .bind (elemItems_yields sequences _) fun items inItems => .pure ⟨inMode, inItems⟩

theorem Decoder.dataMode_yields :
    dataMode.Yields fun mode => ∀ mem offset, mode = .active mem offset → P offset := by
  refine .bind (.trivially _) fun tag _ => ?_
  split
  · refine .bind sequences fun code holds => .pure fun mem offset same => ?_
    cases same
    exact holds
  · exact .pure fun mem offset same => by cases same
  · refine .bind (.trivially _) fun _ _ => .bind sequences fun code holds =>
      .pure fun mem offset same => ?_
    cases same
    exact holds
  · exact .fail _

theorem Decoder.dataSegment_yields : dataSegment.Yields (DataSegment.AllCode P) :=
  .bind (dataMode_yields sequences) fun _ inMode => .bind (.trivially _) fun _ _ => .pure inMode

/-- The code of a section has been read as sequences. -/
theorem Section.decode_allCode {id : UInt8} {payload : Input} {contents : Section}
    (run : Section.decode id payload = .ok contents) : contents.AllCode P := by
  unfold Section.decode at run
  split at run
  case h_14 =>
    cases run
    trivial
  all_goals obtain ⟨items, decoded, rfl⟩ := Except.exists_of_map run
  case h_7 => exact (global_yields sequences).vec.whole decoded
  case h_10 => exact (elemSegment_yields sequences).vec.whole decoded
  case h_11 => exact (body_yields sequences).vec.whole decoded
  case h_12 => exact (dataSegment_yields sequences).vec.whole decoded
  all_goals trivial

/-- Reading sections adds no code but what is in them. -/
theorem Decoder.sectionsFrom_allCode {before after : Sections} {s : Input}
    (sofar : before.AllCode P) (run : sectionsFrom before s = .ok after) : after.AllCode P := by
  fun_induction sectionsFrom before s with
  | case1 =>
    cases run
    exact sofar
  | case2 => cases run
  | case3 => cases run
  | case4 acc s more id payload t framed contents decoded ih =>
    refine ih ?_ run
    have all := Section.decode_allCode sequences decoded
    cases contents with
    | globals gs => exact { sofar with globals := all }
    | elems es => exact { sofar with elems := all }
    | bodies bs => exact { sofar with bodies := all }
    | datas ds => exact { sofar with datas := all }
    | _ => exact ⟨sofar.globals, sofar.elems, sofar.bodies, sofar.datas⟩

end Decoding

/-! ## Decoded modules -/

variable {P : Code → Prop}

/-- A module has the code of its sections. -/
theorem Sections.build_allCode {s : Sections} {m : Module} (all : s.AllCode P)
    (run : s.build = .ok m) : m.AllCode P := by
  obtain ⟨-, rfl⟩ := Sections.build_eq_ok.mp run
  refine ⟨?_, ?_, all.elems, all.datas⟩
  · intro d mem b body
    rcases List.mem_append.mp mem with isImported | isDefined
    · obtain ⟨idx, -, rfl⟩ := List.mem_map.mp isImported
      cases body
    · obtain ⟨⟨idx, own⟩, listed, rfl⟩ := List.mem_map.mp isDefined
      cases body
      exact all.bodies own (List.of_mem_zip listed).2
  · intro g mem init there
    rcases List.mem_append.mp mem with isImported | isDefined
    · obtain ⟨type, -, rfl⟩ := List.mem_map.mp isImported
      cases there
    · obtain ⟨own, listed, rfl⟩ := List.mem_map.mp isDefined
      cases there
      exact all.globals own listed

/-- What holds of every sequence holds of all code of a decoded module. -/
theorem Module.decode_allCode (sequences : Decoder.sequence.Yields P) {bytes : List UInt8}
    {m : Module} (run : Module.decode bytes = .ok m) : m.AllCode P := by
  obtain ⟨⟨⟨⟩, rest⟩, -, run⟩ := Except.exists_of_bind run
  obtain ⟨sections, read, run⟩ := Except.exists_of_bind run
  have nothing : Sections.AllCode P {} := by
    constructor <;> exact fun _ mem => absurd mem List.not_mem_nil
  have all := Decoder.sectionsFrom_allCode sequences nothing read
  cases built : sections.build with
  | error e =>
    rw [built] at run
    cases run
  | ok m' =>
    rw [built] at run
    cases run
    exact Sections.build_allCode all built

/-- All code of a module that has been decoded is resolved. -/
theorem Module.decode_resolved {bytes : List UInt8} {m : Module}
    (run : Module.decode bytes = .ok m) : m.AllCode Code.Resolved :=
  Module.decode_allCode (fun _ _ _ read => Decoder.sequence_resolved read) run

end WasmMachine
