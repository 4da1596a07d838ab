import WasmMachine.Proofs.Pushes
import WasmMachine.Proofs.SpelledInstrs

/-!
# The spellings of instruction sequences

A body is spelled by its instructions one after another, up to the `endOf` that closes it.  Which
instructions make a body is said by counting open constructs: an `elseArm` has to stand in an
`ifThen` that has none yet, and no `endOf` but the last one stands outside of all constructs
(`Code.IsBody`).

* `Decoder.sequenceFrom_inRow`: as long as it is not closed, a sequence reads what is spelled.
* `Decoder.Exactly.sequence`: a sequence reads the bodies that are spelled, and leaves what
  follows them alone.
* `Decoder.sequence_exact`: the same in full, with what a body has in common with its flat code,
  and how the first item that does not belong to a body is reported.
-/

namespace WasmMachine

/-! ## Bodies -/

namespace Code

/-- The instructions at the front of a body: every `elseArm` is in place, and the sequence itself
has not been closed. -/
structure Begins (is : List Instr) : Prop where
  elses : ∀ (n target : Nat), is[n]? = some (.elseArm target) → AwaitsElse (is.take n)
  unended : ¬ Ends is

/-- The instructions of a body. -/
def IsBody (is : List Instr) : Prop :=
  ∃ inner, is = inner ++ [.endOf] ∧ Begins inner ∧ level inner inner.length = 0

end Code

namespace Flattener

variable {f g : Flattener} {i : Instr} {is js : List Instr}

/-- Pushes go through as long as every `elseArm` is in place. -/
theorem Tracks.foldlM_ok_iff (tracks : f.Tracks js) :
    (∃ g, is.foldlM Flattener.push f = .ok g) ↔
      ∀ (n target : Nat), is[n]? = some (.elseArm target) →
      Code.AwaitsElse (js ++ is.take n) := by
  induction is generalizing f js with
  | nil =>
    constructor
    · rintro - n target found
      cases found
    · intro _
      exact ⟨f, rfl⟩
  | cons i is ih =>
    have here := tracks.push_ok_iff (i := i)
    constructor
    · rintro ⟨g, pushed⟩
      obtain ⟨h, first, others⟩ := exists_of_foldlM_cons pushed
      have rest := (ih (tracks.push (pushes_of_push first))).mp ⟨g, others⟩
      rintro (_ | n) target found
      · rw [List.take_zero, List.append_nil]
        exact here.mp ⟨h, first⟩ target (Option.some.inj found)
      · have awaits := rest n target found
        rwa [List.append_assoc] at awaits
    · intro elses
      have awaits : ∀ target, i = .elseArm target → Code.AwaitsElse js := by
        rintro target rfl
        have awaits := elses 0 target rfl
        rwa [List.take_zero, List.append_nil] at awaits
      obtain ⟨h, first⟩ := here.mpr awaits
      rw [List.foldlM_cons, first]
      refine (ih (tracks.push (pushes_of_push first))).mpr fun n target found => ?_
      have awaits := elses (n + 1) target found
      rwa [List.append_assoc]

/-- What begins a body is what a flattener takes without being closed. -/
theorem begins_iff {base : Nat} :
    Code.Begins is ↔ ∃ f, is.foldlM Flattener.push (start base) = .ok f ∧ f.closed = false := by
  have taken : (∃ f, is.foldlM Flattener.push (start base) = .ok f) ↔ _ :=
    (Tracks.start base).foldlM_ok_iff
  constructor
  · rintro ⟨elses, unended⟩
    obtain ⟨f, pushed⟩ := taken.mpr elses
    refine ⟨f, pushed, ?_⟩
    rw [← Bool.not_eq_true, (tracks_of_foldlM pushed).closed]
    exact unended
  · rintro ⟨f, pushed, opened⟩
    refine ⟨taken.mp ⟨f, pushed⟩, ?_⟩
    rw [← (tracks_of_foldlM pushed).closed, opened]
    exact Bool.false_ne_true

theorem foldlM_snoc {h : Flattener} (pushed : is.foldlM Flattener.push f = .ok g)
    (last : g.push i = .ok h) : (is ++ [i]).foldlM Flattener.push f = .ok h := by
  rw [List.foldlM_append, pushed]
  change [i].foldlM Flattener.push g = _
  rw [List.foldlM_cons, last]
  rfl

/-- A push closes a flattener if it is an `endOf` outside of all constructs, and does no more. -/
theorem Tracks.push_closes (tracks : f.Tracks is) (opened : f.closed = false)
    (pushed : f.push i = .ok g) :
    g.closed = true ↔ i = .endOf ∧ Code.level is is.length = 0 := by
  rw [(tracks.push (pushes_of_push pushed)).closed, Code.ends_append_iff, ← tracks.closed, opened]
  simp

theorem Tracks.push_endOf (tracks : f.Tracks is) (outermost : Code.level is is.length = 0) :
    f.push .endOf = .ok { f.emit .endOf with closed := true } := by
  have none : f.opened = [] := List.length_eq_zero_iff.mp (tracks.depth.trans outermost)
  simp only [Flattener.push_endOf, close, emit, none]

end Flattener

/-! ## Counting -/

/-- Whether an instruction opens a construct. -/
def Instr.opens : Instr → Bool
  | .block .. | .loop .. | .ifThen .. => true
  | _ => false

/-- Whether an instruction is an `endOf`. -/
def Instr.ends : Instr → Bool
  | .endOf => true
  | _ => false

theorem Instr.opens_bare (i : Instr) : i.bare.opens = i.opens := by cases i <;> rfl

theorem Instr.ends_bare (i : Instr) : i.bare.ends = i.ends := by cases i <;> rfl

/-- What does not depend on targets can be counted with or without them. -/
theorem countP_congr_bare {is js : List Instr} (same : is.map Instr.bare = js.map Instr.bare)
    {p : Instr → Bool} (untargeted : ∀ i : Instr, p i.bare = p i) :
    is.countP p = js.countP p := by
  have count (is : List Instr) : is.countP p = (is.map Instr.bare).countP p := by
    rw [List.countP_map]
    exact List.countP_congr fun i _ => by rw [Function.comp_apply, untargeted]
  rw [count is, same, ← count js]

namespace Code

variable {is : List Instr} {n : Nat}

theorem level_succ {i : Instr} (found : is[n]? = some i) :
    level is (n + 1) = i.level (level is n) := by
  rw [level, level, List.take_add_one, found, List.foldl_append]
  rfl

/-- Before a sequence is closed, what has been opened is open or has been ended. -/
theorem Begins.level_add (begins : Begins is) (le : n ≤ is.length) :
    level is n + (is.take n).countP Instr.ends = (is.take n).countP Instr.opens := by
  induction n with
  | zero => rfl
  | succ n ih =>
    obtain ⟨i, found⟩ : ∃ i, is[n]? = some i := ⟨_, List.getElem?_eq_getElem le⟩
    have before := ih (Nat.le_of_lt le)
    rw [level_succ found, List.take_add_one, found, List.countP_append, List.countP_append]
    cases i with
    | endOf =>
      -- it ends a construct, for else it would close the sequence
      have inside : level is n ≠ 0 := fun outermost => begins.unended ⟨n, found, outermost⟩
      simp [Instr.level, Instr.ends, Instr.opens]
      omega
    | block | loop | ifThen =>
      simp [Instr.level, Instr.ends, Instr.opens]
      omega
    | _ =>
      simp [Instr.level, Instr.ends, Instr.opens]
      omega

end Code

/-! ## Reading a sequence -/

namespace Decoder

/-- As long as it is not closed, a sequence reads what is spelled. -/
theorem sequenceFrom_inRow {is : List Instr} {bs : List UInt8} (row : InRow Instr.Spelled is bs)
    {f g : Flattener} {s t : Input} (pushed : is.foldlM Flattener.push f = .ok g)
    (opened : g.closed = false) (leaves : s.Leaves bs t) :
    sequenceFrom f s = sequenceFrom g t := by
  induction row generalizing f s with
  | nil =>
    cases pushed
    rw [leaves.eq_of_nil]
  | @cons i is x y spelled row ih =>
    obtain ⟨u, before, behind⟩ := leaves.split
    have start := Flattener.closed_of_foldlM pushed opened
    obtain ⟨h, first, others⟩ := Flattener.exists_of_foldlM_cons pushed
    rw [sequenceFrom_step start (Exactly.instr.accepts spelled before) first]
    exact ih others behind

/-- What a sequence reads ends with the instruction that closes it. -/
theorem sequenceFrom_finds {f : Flattener} {s t : Input} {code : Code}
    (run : sequenceFrom f s = .ok (code, t)) (opened : f.closed = false) :
    ∃ inner i bs g h, InRow Instr.Spelled (inner ++ [i]) bs ∧ s.Leaves bs t ∧
      inner.foldlM Flattener.push f = .ok g ∧ g.closed = false ∧ g.push i = .ok h ∧
      h.closed = true ∧ h.code = code := by
  fun_induction sequenceFrom f s with
  | case1 f s closed =>
    rw [opened] at closed
    cases closed
  | case2 => cases run
  | case3 => cases run
  | case4 f s _ i u read h pushed ih =>
    obtain ⟨x, spelled, leaves⟩ := Exactly.instr.finds read
    cases closed : h.closed with
    | true =>
      rw [sequenceFrom_closed u closed] at run
      cases run
      exact ⟨[], i, x, f, h, .single spelled, leaves, rfl, opened, pushed, closed, rfl⟩
    | false =>
      obtain ⟨inner, last, y, g, h', row, leaves', pushed', opened', closing, closed', same⟩ :=
        ih run closed
      refine ⟨i :: inner, last, x ++ y, g, h', .cons spelled row, leaves.append leaves',
        ?_, opened', closing, closed', same⟩
      rw [List.foldlM_cons, pushed]
      exact pushed'

theorem sequenceFrom_error {f : Flattener} {s : Input} {e : DecodeError}
    (opened : f.closed = false)
    (failed : instr.run s = .error e) : sequenceFrom f s = .error e := by
  rw [sequenceFrom, if_neg (by rw [opened]; exact Bool.false_ne_true)]
  split
  · next found =>
    rw [failed] at found
    cases found
    rfl
  · next found =>
    rw [failed] at found
    cases found

theorem sequenceFrom_refused {f : Flattener} {s t : Input} {i : Instr} {e : FlattenError}
    (opened : f.closed = false) (read : instr.run s = .ok (i, t))
    (refused : f.push i = .error e) :
    sequenceFrom f s = .error (.unexpectedElse s.pos) := by
  rw [sequenceFrom, if_neg (by rw [opened]; exact Bool.false_ne_true)]
  split
  · next found =>
    rw [read] at found
    cases found
  · next found =>
    rw [read] at found
    cases found
    rw [refused]

/-- A body is spelled, and some code is what a flattener makes of it. -/
def SpelledBody (code : Code) (bs : List UInt8) : Prop :=
  ∃ is, InRow Instr.Spelled is bs ∧ Code.IsBody is ∧
    (·.code) <$> is.foldlM Flattener.push (.start 0) = .ok code

/-- The beginning of a body leads to where what follows it is read. -/
theorem sequence_begins {is : List Instr} {bs : List UInt8} (row : InRow Instr.Spelled is bs)
    (begins : Code.Begins is) {s t : Input} (leaves : s.Leaves bs t) :
    ∃ f : Flattener, f.Tracks is ∧ f.closed = false ∧
      is.foldlM Flattener.push (.start 0) = .ok f ∧ sequence.run s = sequenceFrom f t := by
  obtain ⟨f, pushed, opened⟩ := Flattener.begins_iff.mp begins
  exact ⟨f, Flattener.tracks_of_foldlM pushed, opened, pushed,
    sequenceFrom_inRow row pushed opened leaves⟩

theorem Exactly.sequence : Decoder.sequence.Exactly SpelledBody where
  finds := by
    intro s code t run
    obtain ⟨inner, i, bs, f, g, row, leaves, pushed, opened, closing, closed, rfl⟩ :=
      sequenceFrom_finds run rfl
    have tracks := Flattener.tracks_of_foldlM pushed
    obtain ⟨rfl, outermost⟩ := (tracks.push_closes opened closing).mp closed
    refine ⟨bs, ⟨inner ++ [.endOf], row, ⟨inner, rfl, ?_, outermost⟩, ?_⟩, leaves⟩
    · exact Flattener.begins_iff.mpr ⟨f, pushed, opened⟩
    · rw [Flattener.foldlM_snoc pushed closing]
      rfl
  accepts := by
    rintro code bs ⟨_, row, ⟨inner, rfl, begins, outermost⟩, flat⟩ s t leaves
    obtain ⟨x, y, rowInner, rowLast, rfl⟩ := row.split
    obtain ⟨u, before, behind⟩ := leaves.split
    obtain ⟨f, tracks, opened, pushed, run⟩ := sequence_begins rowInner begins before
    have closing := tracks.push_endOf outermost
    cases rowLast with
    | cons spelled none =>
      cases none
      rw [List.append_nil] at behind
      rw [Flattener.foldlM_snoc pushed closing] at flat
      cases flat
      rw [run, sequenceFrom_step opened (Exactly.instr.accepts spelled behind) closing,
        sequenceFrom_closed t rfl]

/-- A body that is spelled has its flat code: that of its beginning, and the `endOf`. -/
theorem SpelledBody.cases {code : Code} {bs : List UInt8} (body : SpelledBody code bs) :
    ∃ (inner : List Instr) (f : Flattener), Code.Begins inner ∧
      Code.level inner inner.length = 0 ∧ f.Tracks inner ∧ code = f.code.push .endOf := by
  obtain ⟨_, -, ⟨inner, rfl, begins, outermost⟩, flat⟩ := body
  obtain ⟨f, pushed, -⟩ := Flattener.begins_iff.mp begins
  have tracks := Flattener.tracks_of_foldlM pushed
  rw [Flattener.foldlM_snoc pushed (tracks.push_endOf outermost)] at flat
  cases flat
  exact ⟨inner, f, begins, outermost, tracks, rfl⟩

/-- The code of a body ends with the `endOf` that its constructs leave over. -/
theorem SpelledBody.counts {code : Code} {bs : List UInt8} (body : SpelledBody code bs) :
    code.back? = some .endOf ∧
      code.toList.countP Instr.ends = code.toList.countP Instr.opens + 1 := by
  obtain ⟨inner, f, begins, outermost, tracks, rfl⟩ := body.cases
  have balanced := begins.level_add (Nat.le_refl _)
  rw [outermost, Nat.zero_add, List.take_length] at balanced
  rw [Array.toList_push, List.countP_append, List.countP_append,
    countP_congr_bare tracks.bare Instr.ends_bare, countP_congr_bare tracks.bare Instr.opens_bare,
    balanced]
  exact ⟨Array.back?_push, rfl⟩

/-- Sequences are read exactly as they are spelled: a body and nothing that follows it.  When
the items at the front of the input begin a body and the next one does not continue it, an
`elseArm` is reported with its position, and an opcode or a number that belongs to no
instruction as itself. -/
theorem sequence_exact :
    (∀ s code t, sequence.run s = .ok (code, t) ↔ ∃ is bs, InRow Instr.Spelled is bs ∧
      Code.IsBody is ∧ s.Leaves bs t ∧
      (·.code) <$> is.foldlM Flattener.push (.start 0) = .ok code) ∧
    (∀ is bs, InRow Instr.Spelled is bs → Code.IsBody is → ∃ code, SpelledBody code bs ∧
      ∀ s t, s.Leaves bs t → sequence.run s = .ok (code, t)) ∧
    (∀ code code' bs bs' rest rest', SpelledBody code bs → SpelledBody code' bs' →
      bs ++ rest = bs' ++ rest' → code = code' ∧ bs = bs' ∧ rest = rest') ∧
    (∀ s code t, sequence.run s = .ok (code, t) → code.back? = some .endOf ∧
      code.toList.countP Instr.ends = code.toList.countP Instr.opens + 1) ∧
    (∀ is bs s t u, InRow Instr.Spelled is bs → Code.Begins is → s.Leaves bs t →
      (¬ Code.AwaitsElse is → t.Leaves [0x05] u →
        sequence.run s = .error (.unexpectedElse (s.pos + bs.length))) ∧
      (∀ opcode, (∀ i : Instr, i.opcode ≠ opcode) → t.Leaves [opcode] u →
        sequence.run s = .error (.unknownOpcode opcode)) ∧
      (∀ group n x, group = 0xfc ∨ group = 0xfd → Leb128.SpellsU32 n x →
        (∀ i : Instr, i.Encodable → i.opcode = group → i.number? ≠ some n) →
        t.Leaves (group :: x) u → sequence.run s = .error (.unknownSubopcode group n))) := by
  refine ⟨?_, ?_, ?_, ?_, ?_⟩
  · intro s code t
    rw [Exactly.sequence.run_iff]
    constructor
    · rintro ⟨bs, ⟨is, row, body, flat⟩, leaves⟩
      exact ⟨is, bs, row, body, leaves, flat⟩
    · rintro ⟨is, bs, row, body, leaves, flat⟩
      exact ⟨bs, ⟨is, row, body, flat⟩, leaves⟩
  · rintro _ bs row ⟨inner, rfl, begins, outermost⟩
    obtain ⟨f, pushed, -⟩ := Flattener.begins_iff.mp begins
    have body : SpelledBody (f.code.push .endOf) bs := by
      have closing := (Flattener.tracks_of_foldlM pushed).push_endOf outermost
      refine ⟨_, row, ⟨inner, rfl, begins, outermost⟩, ?_⟩
      rw [Flattener.foldlM_snoc pushed closing]
      rfl
    exact ⟨_, body, fun s t leaves => Exactly.sequence.accepts body leaves⟩
  · intro code code' bs bs' rest rest' body body' same
    exact Exactly.sequence.unique body body' same
  · intro s code t run
    obtain ⟨bs, body, -⟩ := Exactly.sequence.finds run
    exact body.counts
  · intro is bs s t u row begins leaves
    obtain ⟨f, tracks, opened, -, run⟩ := sequence_begins row begins leaves
    rw [run]
    refine ⟨?_, ?_, ?_⟩
    · intro stray next
      have spelled : (Instr.elseArm 0).Spelled [0x05] :=
        Instr.spelled_of_none (i := .elseArm 0) rfl ⟨rfl, rfl⟩
      obtain ⟨e, refused⟩ := tracks.push_error_iff.mpr ⟨⟨0, rfl⟩, stray⟩
      rw [← leaves.2]
      exact sequenceFrom_refused opened (Exactly.instr.accepts spelled next) refused
    · intro opcode none next
      exact sequenceFrom_error opened (instr_unknown none next)
    · intro group n x opens number none next
      exact sequenceFrom_error opened (instr_unknownNumber opens number none next)

/-- A body whose only number is written with a group to spare, whatever follows it; and three
inputs that go wrong behind its first instruction. -/
theorem sequence_exact_of_padded :
    (∃ code, ∀ pos rest, sequence.run ⟨pos, [0x41, 0x80, 0x00, 0x1a, 0x0b] ++ rest⟩
      = .ok (code, ⟨pos + 5, rest⟩)) ∧
    sequence.run ⟨0, [0x01, 0x05]⟩ = .error (.unexpectedElse 1) ∧
    sequence.run ⟨0, [0x01, 0x06]⟩ = .error (.unknownOpcode 0x06) ∧
    sequence.run ⟨0, [0x01, 0xfc, 0x12]⟩ = .error (.unknownSubopcode 0xfc 18) := by
  obtain ⟨-, reads, -, -, errors⟩ := sequence_exact
  have none : Code.level [.i32Const 0, .drop] 2 = 0 := rfl
  refine ⟨?_, ?_⟩
  · have number : Leb128.SpellsI32 0 [0x80, 0x00] :=
      ⟨⟨[0x80], 0x00, rfl, List.forall_mem_singleton.mpr (by decide), by decide⟩, by decide,
        by decide⟩
    have row : InRow Instr.Spelled [.i32Const 0, .drop, .endOf] [0x41, 0x80, 0x00, 0x1a, 0x0b] :=
      .cons (Instr.spelled_of_none (i := .i32Const 0) rfl number)
        (.cons (Instr.spelled_of_none (i := .drop) rfl rfl)
          (.single (Instr.spelled_of_none (i := .endOf) rfl rfl)))
    have begins : Code.Begins [.i32Const 0, .drop] :=
      Flattener.begins_iff.mpr ⟨(Flattener.start 0).emit (.i32Const 0) |>.emit .drop, rfl, rfl⟩
    obtain ⟨code, -, run⟩ := reads _ _ row ⟨_, rfl, begins, none⟩
    exact ⟨code, fun pos rest => run _ _ ⟨rfl, rfl⟩⟩
  · have row : InRow Instr.Spelled [.nop] [0x01] :=
      .single (Instr.spelled_of_none (i := .nop) rfl rfl)
    have begins : Code.Begins [.nop] :=
      Flattener.begins_iff.mpr ⟨(Flattener.start 0).emit .nop, rfl, rfl⟩
    have next (bs : List UInt8) : (⟨0, 0x01 :: bs⟩ : Input).Leaves [0x01] ⟨1, bs⟩ := ⟨rfl, rfl⟩
    refine ⟨?_, ?_, ?_⟩
    · refine (errors _ _ _ _ ⟨2, []⟩ row begins (next _)).1 ?_ ⟨rfl, rfl⟩
      rintro ⟨depth, pos, type, target, elseTarget, -, innermost, -⟩
      cases innermost
    · refine (errors _ _ _ _ ⟨2, []⟩ row begins (next _)).2.1 0x06 ?_ ⟨rfl, rfl⟩
      intro i same
      exact absurd ((Instr.exists_opcode_iff _).mp ⟨i, same⟩) (by decide)
    · have number : Leb128.SpellsU32 18 [0x12] :=
        ⟨⟨[], 0x12, rfl, nofun, by decide⟩, by decide, by decide⟩
      refine (errors _ _ _ _ ⟨3, []⟩ row begins (next _)).2.2 0xfc 18 [0x12] (.inl rfl) number ?_
        ⟨rfl, rfl⟩
      intro i encodable opcode numbered
      exact absurd ((Instr.exists_bulk_iff _).mp ⟨i, encodable, opcode, numbered⟩) (by decide)

end Decoder

end WasmMachine
