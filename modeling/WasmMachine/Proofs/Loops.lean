import WasmMachine.Proofs.SectionRows
import WasmMachine.Proofs.SpelledBodies

/-!
# Loops over bytes that end

A `Loop` makes passes as long as it has no result, and stops when one of them fails.  Nothing in
it says that it ends: that has to be shown, by a size that every pass makes smaller
(`Loop.Shrinks.ends`).

The decoders have three of them, for the items of a counted sequence, for the instructions up to
the one that closes a sequence, and for the sections of a module.  In each of them a pass begins
with a decoder that takes at least one byte (`Decoder.Progresses`), so there are hardly more
passes than bytes, whatever a count claims; and what the loop comes to is what `timesFrom`,
`sequenceFrom` and `sectionsFrom` say.
-/

namespace WasmMachine

/-- A loop over states: it has a result, or else another pass is made. -/
structure Loop (σ ε ρ : Type) where
  result? : σ → Option ρ
  pass : σ → Except ε σ

namespace Loop

variable {σ ε ρ : Type}

/-- A loop comes to an outcome in so many passes, one that fails included. -/
inductive Runs (l : Loop σ ε ρ) : σ → Nat → Except ε ρ → Prop
  | exit {s : σ} {r : ρ} : l.result? s = some r → l.Runs s 0 (.ok r)
  | fail {s : σ} {e : ε} : l.result? s = none → l.pass s = .error e → l.Runs s 1 (.error e)
  | again {s t : σ} {n : Nat} {out : Except ε ρ} :
    l.result? s = none → l.pass s = .ok t → l.Runs t n out → l.Runs s (n + 1) out

/-- From a state a loop ends with an outcome, after so many passes or fewer. -/
structure Ends (l : Loop σ ε ρ) (s : σ) (most : Nat) (out : Except ε ρ) : Prop where
  /-- It does not go on forever. -/
  ends : ∃ n, l.Runs s n out
  /-- However it is run, it does not make more passes, nor does it come to anything else. -/
  only {n : Nat} {out' : Except ε ρ} : l.Runs s n out' → n ≤ most ∧ out' = out

/-- A function goes through a loop: it has the outcome of the exit, or that of what a pass leads
to. -/
def Follows (l : Loop σ ε ρ) (f : σ → Except ε ρ) : Prop :=
  ∀ s, f s = match l.result? s with
    | some r => .ok r
    | none => match l.pass s with
      | .error e => .error e
      | .ok t => f t

/-- A size of states: there is some as long as passes are made, and each of them leaves less. -/
structure Shrinks (l : Loop σ ε ρ) (size : σ → Nat) : Prop where
  positive {s : σ} : l.result? s = none → 0 < size s
  smaller {s t : σ} : l.result? s = none → l.pass s = .ok t → size t < size s

variable {l : Loop σ ε ρ} {s : σ} {n : Nat} {out : Except ε ρ} {f : σ → Except ε ρ}
    {size : σ → Nat}

theorem Runs.eq (runs : l.Runs s n out) (follows : l.Follows f) : f s = out := by
  induction runs with
  | exit done => rw [follows, done]
  | fail going failed => rw [follows, going, failed]
  | again going passed _ ih =>
    rw [follows, going, passed]
    exact ih

theorem Runs.le_size (runs : l.Runs s n out) (shrinks : l.Shrinks size) : n ≤ size s := by
  induction runs with
  | exit => exact Nat.zero_le _
  | fail going => exact shrinks.positive going
  | again going passed _ ih => exact Nat.lt_of_le_of_lt ih (shrinks.smaller going passed)

/-- A loop with a size cannot go on forever. -/
theorem Shrinks.exists_runs (shrinks : l.Shrinks size) (s : σ) : ∃ n out, l.Runs s n out := by
  induction h : size s using Nat.strongRecOn generalizing s with
  | ind k ih =>
    cases done : l.result? s with
    | some r => exact ⟨0, .ok r, .exit done⟩
    | none =>
      cases passed : l.pass s with
      | error e => exact ⟨1, .error e, .fail done passed⟩
      | ok t =>
        obtain ⟨n, out, runs⟩ := ih (size t) (h ▸ shrinks.smaller done passed) t rfl
        exact ⟨n + 1, out, .again done passed runs⟩

theorem Shrinks.ends (shrinks : l.Shrinks size) (follows : l.Follows f) (s : σ) :
    l.Ends s (size s) (f s) where
  ends := by
    obtain ⟨n, out, runs⟩ := shrinks.exists_runs s
    exact ⟨n, runs.eq follows ▸ runs⟩
  only runs := ⟨runs.le_size shrinks, (runs.eq follows).symm⟩

end Loop

namespace Decoder

variable {α β : Type} {d : Decoder α}

/-! ## Progress -/

/-- What is read takes at least one byte, so that what is left is shorter. -/
def Progresses (d : Decoder α) : Prop := d.Finds fun _ bs => bs ≠ []

namespace Progresses

theorem length_lt (progress : d.Progresses) {s t : Input} {a : α} (run : d.run s = .ok (a, t)) :
    t.bytes.length < s.bytes.length := by
  obtain ⟨bs, some, bytes, -⟩ := progress run
  have length := List.length_pos_iff.mpr some
  rw [bytes, List.length_append]
  omega

/-- It is enough if the first of two parts takes some bytes. -/
theorem bind {k : α → Decoder β} (first : d.Progresses) : (d >>= k).Progresses :=
  Finds.bind first fun a _ some => (Finds.trivially (k a)).mono fun _ _ _ =>
    List.append_ne_nil_of_left_ne_nil some _

/-- It is enough if the second of two parts takes some bytes, whatever the first one was. -/
theorem bind_right {k : α → Decoder β} (second : ∀ a, (k a).Progresses) : (d >>= k).Progresses :=
  (Finds.trivially d).bind fun a x _ => (second a).mono fun _ _ some =>
    List.append_ne_nil_of_right_ne_nil x some

theorem byte : Decoder.byte.Progresses :=
  Exactly.byte.finds.mono fun _ _ same => same ▸ List.cons_ne_nil _ []

theorem u32 : Decoder.u32.Progresses := Exactly.u32.finds.mono fun _ _ spelled => spelled.1.ne_nil

theorem name : Decoder.name.Progresses := bind_right fun _ => u32.bind.bind

theorem instr : Decoder.instr.Progresses := byte.bind

theorem framed : Decoder.framed.Progresses := byte.bind

/-- A sequence takes at least the instruction that closes it. -/
theorem sequence : Decoder.sequence.Progresses := by
  refine Exactly.sequence.finds.mono ?_
  rintro code _ ⟨_, row, ⟨inner, rfl, -⟩, -⟩ rfl
  have few := row.length_le fun _ _ spelled => spelled.ne_nil
  rw [List.length_append] at few
  cases few

end Progresses

/-! ## The loops of the format -/

/-- The loop of a counted sequence, over the number of items that are still to be read and those
that have been read, in reverse order. -/
def itemLoop (d : Decoder α) : Loop (Nat × List α × Input) DecodeError (List α × Input) where
  result?
    | (0, acc, s) => some (acc.reverse, s)
    | (_ + 1, _, _) => none
  pass | (n, acc, s) => do
    let (a, t) ← d.run s
    return (n - 1, a :: acc, t)

/-- The loop of an instruction sequence, until the flattener is closed. -/
def instrLoop : Loop (Flattener × Input) DecodeError (Code × Input) where
  result? | (f, s) => if f.closed then some (f.code, s) else none
  pass | (f, s) => do
    let (i, t) ← instr.run s
    match f.push i with
    | .error _ => throw (.unexpectedElse s.pos)
    | .ok g => return (g, t)

/-- The loop of the sections of a module, to the end of the bytes. -/
def sectionLoop : Loop (Sections × Input) DecodeError Sections where
  result? | (acc, s) => if s.bytes.isEmpty then some acc else none
  pass | (acc, s) => do
    let ((id, payload), t) ← framed.run s
    return (acc.add (← Section.decode id payload), t)

/-- As many items are tried as are claimed, but no more than there are bytes and then one. -/
theorem Progresses.itemLoop_ends (progress : d.Progresses) (n : Nat) (acc : List α) (s : Input) :
    d.itemLoop.Ends (n, acc, s) (min n (s.bytes.length + 1)) (timesFrom d n acc s) := by
  have shrinks : d.itemLoop.Shrinks fun (n, _, s) => min n (s.bytes.length + 1) := by
    refine ⟨?_, ?_⟩
    · rintro ⟨_ | n, acc, s⟩ going
      · cases going
      · exact Nat.lt_min.mpr ⟨Nat.succ_pos n, Nat.succ_pos _⟩
    · rintro ⟨_ | n, acc, s⟩ t going passed
      · cases going
      · obtain ⟨⟨a, u⟩, run, made⟩ := Except.exists_of_bind passed
        cases made
        have less := progress.length_lt run
        dsimp only
        omega
  refine shrinks.ends (f := fun (n, acc, s) => timesFrom d n acc s) ?_ (n, acc, s)
  rintro ⟨_ | n, acc, s⟩
  · rfl
  · dsimp only [itemLoop, timesFrom]
    cases d.run s <;> rfl

theorem instrLoop_ends (f : Flattener) (s : Input) :
    instrLoop.Ends (f, s) (s.bytes.length + 1) (sequenceFrom f s) := by
  have shrinks : instrLoop.Shrinks fun (_, s) => s.bytes.length + 1 := by
    refine ⟨fun _ => Nat.succ_pos _, ?_⟩
    rintro ⟨f, s⟩ ⟨g, t⟩ - passed
    obtain ⟨⟨i, u⟩, run, pushed⟩ := Except.exists_of_bind passed
    have less := Progresses.instr.length_lt run
    dsimp only at pushed
    split at pushed <;> cases pushed
    exact Nat.succ_lt_succ less
  refine shrinks.ends (f := fun (f, s) => sequenceFrom f s) ?_ (f, s)
  rintro ⟨f, s⟩
  refine (Local.sequenceFrom_eq f s).trans ?_
  dsimp only [instrLoop]
  cases f.closed with
  | true => rfl
  | false =>
    cases instr.run s with
    | error e => rfl
    | ok p =>
      dsimp only [bind, Except.bind]
      cases f.push p.1 <;> rfl

theorem sectionLoop_ends (acc : Sections) (s : Input) :
    sectionLoop.Ends (acc, s) s.bytes.length (sectionsFrom acc s) := by
  have shrinks : sectionLoop.Shrinks fun (_, s) => s.bytes.length := by
    refine ⟨?_, ?_⟩
    · rintro ⟨acc, s⟩ going
      refine List.length_pos_iff.mpr fun none => ?_
      simp [sectionLoop, none] at going
    · rintro ⟨acc, s⟩ ⟨acc', t⟩ - passed
      obtain ⟨⟨⟨id, payload⟩, u⟩, run, rest⟩ := Except.exists_of_bind passed
      obtain ⟨contents, -, made⟩ := Except.exists_of_bind rest
      cases made
      exact Progresses.framed.length_lt run
  refine shrinks.ends (f := fun (acc, s) => sectionsFrom acc s) ?_ (acc, s)
  rintro ⟨acc, s⟩
  refine (sectionsFrom_eq acc s).trans ?_
  dsimp only [sectionLoop]
  cases s.bytes.isEmpty with
  | true => rfl
  | false =>
    cases framed.run s with
    | error e => rfl
    | ok p =>
      dsimp only [bind, Except.bind]
      cases Section.decode p.1.1 p.1.2 <;> rfl

/-! ## Counted sequences -/

/-- Counted sequences of some items are bounded by the bytes that are there, whatever their counts
claim. -/
structure Bounded (item : Decoder α) : Prop where
  /-- An item takes at least one byte, and what is left is what follows it. -/
  progress : item.Progresses
  /-- The loop over the items ends: it tries as many as are claimed, and no more than there are
  bytes behind the count and then one. -/
  passes {s t : Input} {n : UInt32} (claimed : u32.run s = .ok (n, t)) :
    item.itemLoop.Ends (n.toNat, [], t) (min n.toNat (t.bytes.length + 1)) ((vec item).run s)
  /-- What is read has as many items as are claimed, and no more than it takes bytes behind the
  count. -/
  counted {s u : Input} {as : List α} (run : (vec item).run s = .ok (as, u)) :
    ∃ n t bs, u32.run s = .ok (n, t) ∧ t.Leaves bs u ∧ as.length = n.toNat ∧ as.length ≤ bs.length

theorem Progresses.bounded (progress : d.Progresses) : d.Bounded where
  progress := progress
  passes {s t n} claimed := by
    have run : (Decoder.vec d).run s = timesFrom d n.toNat [] t := by
      rw [Decoder.vec, run_bind, claimed]; rfl
    exact run ▸ progress.itemLoop_ends n.toNat [] t
  counted {s u as} run := by
    obtain ⟨n, t, claimed, items⟩ := exists_of_bind run
    obtain ⟨bs, ⟨length, row⟩, leaves⟩ := Finds.times progress n.toNat items
    exact ⟨n, t, bs, claimed, leaves, length, row.length_le fun _ _ some => some⟩

end Decoder

/-! ## The items that are counted -/

/-- The kinds of items that the format has counted sequences of. -/
inductive ItemKind where
  | funcType
  | importDecl
  | idx (space : IndexSpace)
  | tableType
  | memType
  | global
  | exportDecl
  | elemSegment
  | body
  | localGroup
  | dataSegment
  | valType
  | expr

namespace ItemKind

/-- What an item of a kind is. -/
def Item : ItemKind → Type
  | .funcType => FuncType
  | .importDecl => Import
  | .idx space => Idx space
  | .tableType => TableType
  | .memType => MemType
  | .global => Global
  | .exportDecl => Export
  | .elemSegment => ElemSegment
  | .body => Body
  | .localGroup => LocalGroup
  | .dataSegment => DataSegment
  | .valType => ValType
  | .expr => Code

/-- How an item of a kind is read. -/
def decoder : (kind : ItemKind) → Decoder kind.Item
  | .funcType => Decoder.funcType
  | .importDecl => Decoder.importDecl
  | .idx _ => Decoder.idx
  | .tableType => Decoder.tableType
  | .memType => Decoder.memType
  | .global => Decoder.global
  | .exportDecl => Decoder.exportDecl
  | .elemSegment => Decoder.elemSegment
  | .body => Decoder.body
  | .localGroup => Decoder.localGroup
  | .dataSegment => Decoder.dataSegment
  | .valType => Decoder.valType
  | .expr => Decoder.sequence

end ItemKind

/-- Every item begins with a byte, with a number, or with a part that does. -/
theorem ItemKind.progresses (kind : ItemKind) : kind.decoder.Progresses := by
  open Decoder.Progresses in
  have byte_coded {α : Type} {decode? : UInt8 → Option α} {error : UInt8 → DecodeError} :
      (Decoder.coded decode? error).Progresses := byte.bind
  cases kind with
  | funcType => exact byte.bind
  | importDecl => exact name.bind
  | idx => exact u32.bind
  | tableType => exact byte_coded.bind
  | memType => exact (byte.bind (k := _)).bind
  | global => exact byte_coded.bind.bind
  | exportDecl => exact name.bind
  | elemSegment => exact u32.bind
  | body => exact u32.bind
  | localGroup => exact u32.bind
  | dataSegment => exact u32.bind.bind
  | valType => exact byte_coded
  | expr => exact sequence

end WasmMachine
