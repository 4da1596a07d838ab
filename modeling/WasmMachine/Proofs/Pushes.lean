import WasmMachine.Proofs.CodeForms

/-!
# Pushing instructions in any order

A `Flattener` takes whatever instructions it is given: constructs that nothing ends, an `elseArm`
without an `ifThen`, more after the end of the sequence.  This module says what it keeps all the
same, in terms of the code alone.  `Code.level` counts the constructs that are open at a position,
and `Code.Opens` says that a construct is opened at one position and still open at the end.

* `Flattener.Pushes`: the six ways in which a push succeeds.
* `Flattener.Tracks`: a flattener agrees with the instructions that it has taken, in particular
  what it keeps about an open construct is where the parts of that construct are.  One push keeps
  this (`Flattener.Tracks.push`), so a whole sequence does.  A push fills in targets only where
  it finds the instruction that it expects, and it always does (`Flattener.Tracks.found`).
* `Flattener.push_endOf_fills`: ending a construct fills in its targets, and only those.
* `Flattener.pushes_exact`: what any sequence of pushes comes to, with those that fail.
-/

namespace WasmMachine

/-! ## Levels -/

/-- The number of open constructs behind an instruction. An `endOf` outside of all constructs ends
none of them. -/
def Instr.level (depth : Nat) : Instr → Nat
  | .block .. | .loop .. | .ifThen .. => depth + 1
  | .endOf => depth - 1
  | _ => depth

theorem Instr.level_of_not_structural {i : Instr} (plain : i.isStructural = false) (depth : Nat) :
    i.level depth = depth := by
  cases i with
  | block | loop | ifThen | elseArm | endOf => cases plain
  | _ => rfl

/-- An instruction without its targets. -/
def Instr.bare (i : Instr) : Instr := i.withTargets 0 0

theorem Instr.bare_withTargets (i : Instr) (target elseTarget : Nat) :
    (i.withTargets target elseTarget).bare = i.bare := by
  cases i <;> rfl

/-- Two instructions that are the same without their targets differ in these alone. -/
theorem Instr.exists_withTargets {i j : Instr} (same : j.bare = i.bare) :
    ∃ target elseTarget, j = i.withTargets target elseTarget := by
  have again (target elseTarget : Nat) :
      i.bare.withTargets target elseTarget = i.withTargets target elseTarget := by
    cases i <;> rfl
  have filled : ∃ target elseTarget, j = j.bare.withTargets target elseTarget := by
    cases j with
    | block type target | loop type target => exact ⟨target, 0, rfl⟩
    | ifThen type target elseTarget => exact ⟨target, elseTarget, rfl⟩
    | elseArm target => exact ⟨target, 0, rfl⟩
    | _ => exact ⟨0, 0, rfl⟩
  obtain ⟨target, elseTarget, eq⟩ := filled
  exact ⟨target, elseTarget, by rw [eq, same, again]⟩

namespace Code

/-- The number of constructs that are open behind the first `n` instructions. -/
def level (is : List Instr) (n : Nat) : Nat := (is.take n).foldl Instr.level 0

variable {is : List Instr} {i : Instr} {n pos depth : Nat}

theorem level_length (is : List Instr) : level is is.length = is.foldl Instr.level 0 := by
  rw [level, List.take_length]

theorem level_append_of_le (le : n ≤ is.length) : level (is ++ [i]) n = level is n := by
  rw [level, level, List.take_append_of_le_length le]

theorem level_append (is : List Instr) (i : Instr) :
    level (is ++ [i]) (is.length + 1) = i.level (level is is.length) := by
  have length : (is ++ [i]).length = is.length + 1 := List.length_append
  rw [← length, level_length, level_length, List.foldl_append]
  rfl

/-- The instruction at `pos` opens a construct that is open at the end, with `depth` others around
it. -/
structure Opens (is : List Instr) (depth pos : Nat) : Prop where
  inside : pos < is.length
  before : level is pos = depth
  since : ∀ n, pos < n → n ≤ is.length → depth < level is n

/-- A construct stays open as long as no more than what it contains is ended. -/
theorem Opens.append (opens : Opens is depth pos)
    (deeper : depth < i.level (level is is.length)) :
    Opens (is ++ [i]) depth pos := by
  obtain ⟨inside, before, since⟩ := opens
  refine ⟨?_, ?_, ?_⟩
  · rw [List.length_append]
    omega
  · rw [level_append_of_le (Nat.le_of_lt inside), before]
  · intro n behind le
    rw [List.length_append, List.length_singleton] at le
    rcases Nat.lt_or_ge is.length n with last | inner
    · obtain rfl : n = is.length + 1 := by omega
      rwa [level_append]
    · rw [level_append_of_le inner]
      exact since n behind inner

/-- The last instruction opens a construct. -/
theorem opens_last (opening : i.level (level is is.length) = level is is.length + 1) :
    Opens (is ++ [i]) (level is is.length) is.length := by
  refine ⟨?_, level_append_of_le (Nat.le_refl _), ?_⟩
  · rw [List.length_append]
    exact Nat.lt_succ_self _
  · intro n behind le
    rw [List.length_append, List.length_singleton] at le
    obtain rfl : n = is.length + 1 := by omega
    rw [level_append, opening]
    exact Nat.lt_succ_self _

/-- There is one open construct for each depth. -/
theorem Opens.unique {pos' : Nat} (one : Opens is depth pos) (two : Opens is depth pos') :
    pos = pos' := by
  rcases Nat.lt_trichotomy pos pos' with lt | eq | gt
  · have inside := one.since pos' lt (Nat.le_of_lt two.inside)
    rw [two.before] at inside
    omega
  · exact eq
  · have inside := two.since pos gt (Nat.le_of_lt one.inside)
    rw [one.before] at inside
    omega

/-- An `elseArm` at `pos` that stands directly inside of the constructs that `depth` others
contain. -/
structure Divides (is : List Instr) (depth pos : Nat) : Prop where
  elseArm : ∃ target, is[pos]? = some (.elseArm target)
  level : level is pos = depth + 1

theorem Divides.lt_length (divides : Divides is depth pos) : pos < is.length := by
  obtain ⟨target, found⟩ := divides.elseArm
  exact (List.getElem?_eq_some_iff.mp found).1

theorem divides_append_iff (i : Instr) (inside : pos < is.length) :
    Divides (is ++ [i]) depth pos ↔ Divides is depth pos := by
  constructor
  · rintro ⟨⟨target, found⟩, level⟩
    rw [List.getElem?_append_left inside] at found
    rw [level_append_of_le (Nat.le_of_lt inside)] at level
    exact ⟨⟨target, found⟩, level⟩
  · rintro ⟨⟨target, found⟩, level⟩
    refine ⟨⟨target, ?_⟩, ?_⟩
    · rwa [List.getElem?_append_left inside]
    · rwa [level_append_of_le (Nat.le_of_lt inside)]

theorem divides_last_iff (is : List Instr) (i : Instr) :
    Divides (is ++ [i]) depth is.length
      ↔ (∃ target, i = .elseArm target) ∧ level is is.length = depth + 1 := by
  constructor
  · rintro ⟨⟨target, found⟩, level⟩
    rw [List.getElem?_concat_length, Option.some.injEq] at found
    rw [level_append_of_le (Nat.le_refl _)] at level
    exact ⟨⟨target, found⟩, level⟩
  · rintro ⟨⟨target, rfl⟩, level⟩
    refine ⟨⟨target, List.getElem?_concat_length⟩, ?_⟩
    rwa [level_append_of_le (Nat.le_refl _)]

/-- An `endOf` stands outside of all constructs. -/
def Ends (is : List Instr) : Prop := ∃ n : Nat, is[n]? = some .endOf ∧ level is n = 0

theorem ends_append_iff : Ends (is ++ [i]) ↔ Ends is ∨ i = .endOf ∧ level is is.length = 0 := by
  constructor
  · rintro ⟨n, found, level⟩
    have le : n < (is ++ [i]).length := (List.getElem?_eq_some_iff.mp found).1
    rw [List.length_append, List.length_singleton] at le
    rw [level_append_of_le (Nat.le_of_lt_succ le)] at level
    rcases Nat.lt_or_ge n is.length with inside | last
    · rw [List.getElem?_append_left inside] at found
      exact .inl ⟨n, found, level⟩
    · obtain rfl : n = is.length := by omega
      rw [List.getElem?_concat_length, Option.some.injEq] at found
      exact .inr ⟨found, level⟩
  · rintro (⟨n, found, level⟩ | ⟨rfl, level⟩)
    · have inside : n < is.length := (List.getElem?_eq_some_iff.mp found).1
      refine ⟨n, ?_, ?_⟩
      · rwa [List.getElem?_append_left inside]
      · rwa [level_append_of_le (Nat.le_of_lt inside)]
    · refine ⟨is.length, List.getElem?_concat_length, ?_⟩
      rwa [level_append_of_le (Nat.le_refl _)]

/-- The innermost open construct is an `ifThen` that has no `elseArm` yet. -/
def AwaitsElse (is : List Instr) : Prop :=
  ∃ depth pos type target elseTarget, Opens is depth pos ∧ level is is.length = depth + 1 ∧
    is[pos]? = some (.ifThen type target elseTarget) ∧ ∀ q, pos < q → ¬ Divides is depth q

end Code

/-! ## What is kept about an open construct -/

/-- What is kept about a construct that `depth` others contain is where its parts are. -/
def OpenConstruct.Indexes (is : List Instr) (depth : Nat) : OpenConstruct → Prop
  | .block pos => Code.Opens is depth pos ∧ ∃ type target, is[pos]? = some (.block type target)
  | .loop => ∃ pos, Code.Opens is depth pos ∧ ∃ type target, is[pos]? = some (.loop type target)
  | .ifThen pos elsePos => Code.Opens is depth pos ∧
      (∃ type target elseTarget, is[pos]? = some (.ifThen type target elseTarget)) ∧
      ∀ q, elsePos = some q ↔ pos < q ∧ Code.Divides is depth q

/-- More code behind that does not end the construct. -/
theorem OpenConstruct.Indexes.append {is : List Instr} {depth : Nat}
    {c : OpenConstruct} {i : Instr}
    (indexes : c.Indexes is depth) (deeper : depth < i.level (Code.level is is.length))
    (whole : (∃ target, i = .elseArm target) → Code.level is is.length ≠ depth + 1) :
    c.Indexes (is ++ [i]) depth := by
  cases c with
  | block pos =>
    obtain ⟨opens, type, target, found⟩ := indexes
    exact ⟨opens.append deeper, type, target, by rwa [List.getElem?_append_left opens.inside]⟩
  | loop =>
    obtain ⟨pos, opens, type, target, found⟩ := indexes
    exact ⟨pos, opens.append deeper, type, target, by
      rwa [List.getElem?_append_left opens.inside]⟩
  | ifThen pos elsePos =>
    obtain ⟨opens, ⟨type, target, elseTarget, found⟩, elses⟩ := indexes
    refine ⟨opens.append deeper, ⟨type, target, elseTarget, ?_⟩, ?_⟩
    · rwa [List.getElem?_append_left opens.inside]
    · intro q
      rcases Nat.lt_trichotomy q is.length with inside | rfl | outside
      · rw [Code.divides_append_iff i inside]
        exact elses q
      · -- the new instruction does not divide this construct
        rw [Code.divides_last_iff]
        constructor
        · intro kept
          exact absurd ((elses _).mp kept).2.lt_length (Nat.lt_irrefl _)
        · rintro ⟨-, divides, level⟩
          exact absurd level (whole divides)
      · constructor
        · intro kept
          have := ((elses q).mp kept).2.lt_length
          omega
        · rintro ⟨-, divides⟩
          have := divides.lt_length
          rw [List.length_append, List.length_singleton] at this
          omega

/-- The else arm of the innermost construct begins. -/
theorem OpenConstruct.Indexes.divide {is : List Instr} {depth pos : Nat}
    (indexes : (OpenConstruct.ifThen pos none).Indexes is depth) (target : Nat)
    (innermost : Code.level is is.length = depth + 1) :
    (OpenConstruct.ifThen pos (some is.length)).Indexes (is ++ [.elseArm target]) depth := by
  obtain ⟨opens, ⟨type, target', elseTarget, found⟩, elses⟩ := indexes
  refine ⟨opens.append ?_, ⟨type, target', elseTarget, ?_⟩, ?_⟩
  · rw [innermost]
    exact Nat.lt_succ_self depth
  · rwa [List.getElem?_append_left opens.inside]
  · intro q
    constructor
    · intro kept
      cases kept
      exact ⟨opens.inside, (Code.divides_last_iff is _).mpr ⟨⟨target, rfl⟩, innermost⟩⟩
    · rintro ⟨behind, divides⟩
      have le := divides.lt_length
      rw [List.length_append, List.length_singleton] at le
      rcases Nat.lt_or_ge q is.length with inside | last
      · -- an earlier one would have been kept
        rw [Code.divides_append_iff _ inside] at divides
        cases (elses q).mpr ⟨behind, divides⟩
      · exact congrArg some (Nat.le_antisymm last (Nat.le_of_lt_succ le))

/-- The positions that are kept about a construct. -/
def OpenConstruct.positions : OpenConstruct → List Nat
  | .block pos => [pos]
  | .loop => []
  | .ifThen pos elsePos => pos :: elsePos.toList

/-- The parts of a construct are where they are kept. -/
def OpenConstruct.Found (code : Code) : OpenConstruct → Prop
  | .block pos => ∃ type target, code[pos]? = some (.block type target)
  | .loop => True
  | .ifThen pos elsePos =>
    (∃ type target elseTarget, code[pos]? = some (.ifThen type target elseTarget)) ∧
      ∀ q, elsePos = some q → ∃ target, code[q]? = some (.elseArm target)

/-- The instruction at position `p` when the construct has ended before `next`. -/
def OpenConstruct.fill (base next p : Nat) (i : Instr) : OpenConstruct → Instr
  | .block pos => if p = pos then i.withTargets next next else i
  | .loop => i
  | .ifThen pos none => if p = pos then i.withTargets next next else i
  | .ifThen pos (some elsePos) =>
    if p = pos then i.withTargets next (base + elsePos + 1)
    else if p = elsePos then i.withTargets next next
    else i

theorem OpenConstruct.Indexes.nodup {is : List Instr} {depth : Nat} {c : OpenConstruct}
    (indexes : c.Indexes is depth) : c.positions.Nodup := by
  cases c with
  | block pos => simp [positions]
  | loop => exact List.nodup_nil
  | ifThen pos elsePos =>
    obtain ⟨-, -, elses⟩ := indexes
    cases elsePos with
    | none => simp [positions]
    | some q =>
      have behind := ((elses q).mp rfl).1
      have apart : pos ≠ q := by omega
      simp [positions, apart]

namespace Flattener

/-! ## One push -/

/-- What a push makes of a flattener, if it succeeds. -/
inductive Pushes (f : Flattener) : Instr → Flattener → Prop
  | plain {i : Instr} : i.isStructural = false → Pushes f i (f.emit i)
  | block {type : BlockType} {target : Nat} :
    Pushes f (.block type target)
      { f.emit (.block type 0) with opened := .block f.code.size :: f.opened }
  | loop {type : BlockType} {target : Nat} :
    Pushes f (.loop type target)
      { f.emit (.loop type (f.base + f.code.size)) with opened := .loop :: f.opened }
  | ifThen {type : BlockType} {target elseTarget : Nat} :
    Pushes f (.ifThen type target elseTarget)
      { f.emit (.ifThen type 0 0) with opened := .ifThen f.code.size none :: f.opened }
  | elseArm {target pos : Nat} {outside : List OpenConstruct} :
    f.opened = .ifThen pos none :: outside →
    Pushes f (.elseArm target)
      { f.emit (.elseArm 0) with opened := .ifThen pos (some f.code.size) :: outside }
  | endOf : Pushes f .endOf (f.emit .endOf).close

variable {f g : Flattener} {i : Instr}

theorem pushes_of_push (pushed : f.push i = .ok g) : f.Pushes i g := by
  cases i with
  | block type target =>
    cases pushed
    exact .block
  | loop type target =>
    cases pushed
    exact .loop
  | ifThen type target elseTarget =>
    cases pushed
    exact .ifThen
  | elseArm target =>
    obtain ⟨pos, outside, opened, rfl⟩ := exists_of_push_elseArm pushed
    exact .elseArm opened
  | endOf =>
    cases pushed
    exact .endOf
  | _ =>
    cases pushed
    exact .plain rfl

/-- A push fails for an `elseArm` alone, and only if no `ifThen` waits for one. -/
theorem push_eq_error_iff {e : FlattenError} :
    f.push i = .error e ↔
      (∃ target, i = .elseArm target) ∧
      ∀ pos outside, f.opened ≠ .ifThen pos none :: outside := by
  cases i with
  | elseArm target =>
    constructor
    · intro failed
      refine ⟨⟨target, rfl⟩, fun pos outside opened => ?_⟩
      rw [push_elseArm opened] at failed
      cases failed
    · rintro ⟨-, other⟩
      exact push_elseArm_refused other target
  | _ =>
    constructor
    · intro failed
      cases failed
    · rintro ⟨⟨target, same⟩, -⟩
      cases same

/-! ## The end of a construct -/

theorem opened_close (f : Flattener) : f.close.opened = f.opened.tail := by
  rw [close]
  split <;> next opened => rw [opened]; rfl

theorem base_close (f : Flattener) : f.close.base = f.base := by
  rw [close]
  split <;> rfl

theorem closed_close_iff (f : Flattener) :
    f.close.closed = true ↔ f.closed = true ∨ f.opened = [] := by
  rw [close]
  split <;> next opened => simp [opened, patch]

/-- A change at one position, as one of each instruction. -/
theorem getElem?_modify (code : Code) (pos : Nat) (fill : Instr → Instr) (p : Nat) :
    (code.modify pos fill)[p]? = code[p]?.map fun i => if p = pos then fill i else i := by
  rw [Array.getElem?_modify]
  split
  · next same => simp [same]
  · next apart => simp [Ne.symm apart]

section Patch

variable {code : Code} {pos target elseTarget : Nat} {type : BlockType}

/-- A patch is not skipped where the instruction is the one that it is for. -/
theorem modify_found {fill : Instr → Instr} (found : code[pos]? = some i)
    (fills : fill i = i.withTargets target elseTarget) :
    code.modify pos fill = code.modify pos (.withTargets target elseTarget) := by
  apply Array.ext_getElem?
  intro p
  rw [Array.getElem?_modify, Array.getElem?_modify]
  by_cases same : pos = p
  · rw [← same, found, if_pos rfl, if_pos rfl, Option.map_some, Option.map_some, fills]
  · rw [if_neg same, if_neg same]

theorem modify_block (found : code[pos]? = some (.block type target)) (next : Nat) :
    code.modify pos (.fillBlock next) = code.modify pos (.withTargets next next) :=
  modify_found found rfl

theorem modify_ifThen (found : code[pos]? = some (.ifThen type target elseTarget))
    (next elsePos : Nat) :
    code.modify pos (.fillIfThen next elsePos) = code.modify pos (.withTargets next elsePos) :=
  modify_found found rfl

theorem modify_elseArm (found : code[pos]? = some (.elseArm target)) (next : Nat) :
    code.modify pos (.fillElseArm next) = code.modify pos (.withTargets next next) :=
  modify_found found rfl

end Patch

/-- The end of a construct fills in its targets at the positions that are kept about it. -/
theorem getElem?_close {c : OpenConstruct} {outside : List OpenConstruct}
    (opened : f.opened = c :: outside) (apart : c.positions.Nodup) (found : c.Found f.code)
    (p : Nat) :
    f.close.code[p]? = f.code[p]?.map fun i => c.fill f.base (f.base + f.code.size) p i := by
  cases c with
  | block pos =>
    obtain ⟨type, target, found⟩ := found
    simp only [close, opened, patch, modify_block found, getElem?_modify, OpenConstruct.fill]
  | loop => simp only [close, opened, OpenConstruct.fill, Option.map_id']
  | ifThen pos elsePos =>
    obtain ⟨⟨type, target, elseTarget, found⟩, between⟩ := found
    cases elsePos with
    | none =>
      simp only [close, opened, patch, modify_ifThen found, getElem?_modify, OpenConstruct.fill]
    | some q =>
      obtain ⟨target', between⟩ := between q rfl
      have ne : pos ≠ q := by simpa [OpenConstruct.positions] using apart
      have kept (fill : Instr → Instr) : (f.code.modify pos fill)[q]? =
          some (.elseArm target') := by
        rw [Array.getElem?_modify, if_neg ne, between]
      simp only [close, opened, patch, modify_ifThen found, modify_elseArm (kept _),
        getElem?_modify, Option.map_map]
      congr 1
      funext i
      by_cases first : p = pos
      · simp [OpenConstruct.fill, first, ne]
      · simp [OpenConstruct.fill, first]

theorem bare_patch (f : Flattener) (pos : Nat) {fill : Instr → Instr}
    (fills : ∀ i, (fill i).bare = i.bare) :
    (f.patch pos fill).code.toList.map Instr.bare = f.code.toList.map Instr.bare := by
  apply List.ext_getElem?
  intro p
  rw [List.getElem?_map, List.getElem?_map, Array.getElem?_toList, Array.getElem?_toList,
    patch, getElem?_modify, Option.map_map]
  congr 1
  funext i
  dsimp only [Function.comp_apply]
  split
  · exact fills i
  · rfl

theorem bare_close (f : Flattener) :
    f.close.code.toList.map Instr.bare = f.code.toList.map Instr.bare := by
  have block (target : Nat) (i : Instr) : (i.fillBlock target).bare = i.bare := by
    cases i <;> rfl
  have ifThen (target elseTarget : Nat) (i : Instr) :
      (i.fillIfThen target elseTarget).bare = i.bare := by
    cases i <;> rfl
  have elseArm (target : Nat) (i : Instr) : (i.fillElseArm target).bare = i.bare := by
    cases i <;> rfl
  rw [close]
  split
  · rfl
  · rfl
  · exact bare_patch _ _ (block _)
  · exact bare_patch _ _ (ifThen _ _)
  · exact (bare_patch _ _ (elseArm _)).trans (bare_patch _ _ (ifThen _ _))

/-! ## What every flattener agrees with -/

/-- A flattener agrees with the instructions that it has taken. -/
structure Tracks (f : Flattener) (is : List Instr) : Prop where
  bare : f.code.toList.map Instr.bare = is.map Instr.bare
  depth : f.depth = Code.level is is.length
  closed : f.closed = true ↔ Code.Ends is
  kept : ∀ c outside, c :: outside <:+ f.opened → c.Indexes is outside.length

theorem Tracks.start (base : Nat) : (start base).Tracks [] where
  bare := rfl
  depth := rfl
  closed := by
    constructor
    · intro closed
      cases closed
    · rintro ⟨n, found, -⟩
      cases found
  kept c outside suffix := by
    cases List.suffix_nil.mp suffix

section Step

variable {is : List Instr}

/-- What is kept about the innermost construct. -/
theorem Tracks.innermost (tracks : f.Tracks is) {c : OpenConstruct}
    {outside : List OpenConstruct} (opened : f.opened = c :: outside) :
    c.Indexes is outside.length :=
  tracks.kept c outside (opened ▸ List.suffix_refl _)

theorem Tracks.size_eq (tracks : f.Tracks is) : f.code.size = is.length := by
  have lengths := congrArg List.length tracks.bare
  rwa [List.length_map, List.length_map, Array.length_toList] at lengths

/-- The instruction that was taken stands there, but for its targets. -/
theorem Tracks.exists_emitted (tracks : f.Tracks is) {p : Nat} (found : is[p]? = some i) :
    ∃ target elseTarget, f.code[p]? = some (i.withTargets target elseTarget) := by
  have same : (f.code.toList.map Instr.bare)[p]? = (is.map Instr.bare)[p]? := by rw [tracks.bare]
  rw [List.getElem?_map, List.getElem?_map, found, Option.map_some, Array.getElem?_toList,
    Option.map_eq_some_iff] at same
  obtain ⟨j, stands, same⟩ := same
  obtain ⟨target, elseTarget, rfl⟩ := Instr.exists_withTargets same
  exact ⟨target, elseTarget, stands⟩

/-- The parts of the innermost construct are where they are kept, also behind one more
instruction. -/
theorem Tracks.found (tracks : f.Tracks is) {c : OpenConstruct} {outside : List OpenConstruct}
    (opened : f.opened = c :: outside) (last : Instr) : c.Found (f.emit last).code := by
  have stands {p : Nat} {i : Instr} (found : is[p]? = some i) :
      ∃ target elseTarget, (f.emit last).code[p]? = some (i.withTargets target elseTarget) := by
    obtain ⟨target, elseTarget, stands⟩ := tracks.exists_emitted found
    have inside := (Array.getElem?_eq_some_iff.mp stands).1
    refine ⟨target, elseTarget, ?_⟩
    rw [emit, Array.getElem?_push, if_neg (Nat.ne_of_lt inside), stands]
  have indexes := tracks.innermost opened
  cases c with
  | block pos =>
    obtain ⟨-, type, target, found⟩ := indexes
    obtain ⟨target', _, head⟩ := stands found
    exact ⟨type, target', head⟩
  | loop => trivial
  | ifThen pos elsePos =>
    obtain ⟨-, ⟨type, target, elseTarget, found⟩, elses⟩ := indexes
    obtain ⟨target', elseTarget', head⟩ := stands found
    refine ⟨⟨type, target', elseTarget', head⟩, fun q kept => ?_⟩
    obtain ⟨old, divides⟩ := ((elses q).mp kept).2.elseArm
    obtain ⟨new, _, between⟩ := stands divides
    exact ⟨new, between⟩

theorem Tracks.bare_emit (tracks : f.Tracks is) {emitted : Instr} (same : emitted.bare = i.bare) :
    (f.emit emitted).code.toList.map Instr.bare = (is ++ [i]).map Instr.bare := by
  rw [emit, Array.toList_push, List.map_append, List.map_append, tracks.bare, List.map_singleton,
    List.map_singleton, same]

/-- An instruction other than `endOf` does not end the sequence. -/
theorem Tracks.closed_append (tracks : f.Tracks is) (other : i ≠ .endOf) :
    f.closed = true ↔ Code.Ends (is ++ [i]) := by
  rw [Code.ends_append_iff, tracks.closed]
  simp [other]

/-- What is kept about a construct still holds when one more instruction stands inside of it. -/
theorem Tracks.kept_append (tracks : f.Tracks is) {c : OpenConstruct}
    {outside : List OpenConstruct}
    (suffix : c :: outside <:+ f.opened) (deeper : outside.length < i.level f.depth)
    (whole : (∃ target, i = .elseArm target) → f.depth ≠ outside.length + 1) :
    c.Indexes (is ++ [i]) outside.length := by
  rw [tracks.depth] at deeper whole
  exact (tracks.kept c outside suffix).append deeper whole

theorem length_lt_of_suffix {c : OpenConstruct} {outside opened : List OpenConstruct}
    (suffix : c :: outside <:+ opened) : outside.length < opened.length :=
  suffix.length_le

/-- A construct that is entered is kept with the position at which it begins. -/
theorem Tracks.enter (tracks : f.Tracks is) {emitted : Instr} {new : OpenConstruct}
    (same : emitted.bare = i.bare) (opening : ∀ depth, i.level depth = depth + 1)
    (indexes : new.Indexes (is ++ [i]) f.depth) :
    Tracks { f.emit emitted with opened := new :: f.opened } (is ++ [i]) where
  bare := tracks.bare_emit same
  depth := by
    rw [List.length_append, List.length_singleton, Code.level_append, ← tracks.depth, opening]
    rfl
  closed := by
    apply tracks.closed_append
    rintro rfl
    cases opening 0
  kept c outside suffix := by
    rcases List.suffix_cons_iff.mp suffix with eq | suffix
    · cases eq
      exact indexes
    · have lt := length_lt_of_suffix suffix
      refine tracks.kept_append suffix ?_ ?_
      · rw [opening]
        exact Nat.lt_succ_of_lt lt
      · rintro ⟨target, rfl⟩
        cases opening 0

/-- One push keeps the agreement. -/
theorem Tracks.push (tracks : f.Tracks is) (pushes : f.Pushes i g) : g.Tracks (is ++ [i]) := by
  have size := tracks.size_eq
  have level := tracks.depth
  cases pushes with
  | plain plain =>
    have other : ∀ target, i ≠ .elseArm target := by
      rintro target rfl
      cases plain
    refine ⟨tracks.bare_emit rfl, ?_, ?_, ?_⟩
    · rw [List.length_append, List.length_singleton, Code.level_append, ← level,
        Instr.level_of_not_structural plain]
      rfl
    · apply tracks.closed_append
      rintro rfl
      cases plain
    · intro c outside suffix
      refine tracks.kept_append suffix ?_ ?_
      · rw [Instr.level_of_not_structural plain]
        exact length_lt_of_suffix suffix
      · rintro ⟨target, same⟩
        exact absurd same (other target)
  | @block type target =>
    refine tracks.enter rfl (fun depth => rfl) ?_
    rw [level, size]
    exact ⟨Code.opens_last rfl, type, target, List.getElem?_concat_length⟩
  | @loop type target =>
    refine tracks.enter rfl (fun depth => rfl) ?_
    rw [level]
    exact ⟨_, Code.opens_last rfl, type, target, List.getElem?_concat_length⟩
  | @ifThen type target elseTarget =>
    refine tracks.enter rfl (fun depth => rfl) ?_
    rw [level, size]
    refine ⟨Code.opens_last rfl, ⟨type, target, elseTarget, List.getElem?_concat_length⟩, ?_⟩
    -- nothing stands behind the new instruction
    intro q
    constructor
    · intro kept
      cases kept
    · rintro ⟨behind, divides⟩
      have inside := divides.lt_length
      rw [List.length_append, List.length_singleton] at inside
      omega
  | @elseArm target pos outside opened =>
    have depth : f.depth = outside.length + 1 := by rw [Flattener.depth, opened]; rfl
    refine ⟨tracks.bare_emit rfl, ?_, ?_, ?_⟩
    · rw [List.length_append, List.length_singleton, Code.level_append, ← level, depth]
      rfl
    · exact tracks.closed_append Instr.noConfusion
    · intro c outside' suffix
      rcases List.suffix_cons_iff.mp suffix with eq | suffix
      · cases eq
        rw [size]
        exact (tracks.innermost opened).divide target (level.symm.trans depth)
      · have lt := length_lt_of_suffix suffix
        refine tracks.kept_append (suffix.trans ?_) ?_ ?_
        · rw [opened]
          exact List.suffix_cons _ _
        · change _ < f.depth
          omega
        · intro _
          omega
  | endOf =>
    refine ⟨(bare_close _).trans (tracks.bare_emit rfl), ?_, ?_, ?_⟩
    · rw [List.length_append, List.length_singleton, Code.level_append, ← level, Flattener.depth,
        opened_close, List.length_tail]
      rfl
    · rw [closed_close_iff, Code.ends_append_iff, ← level]
      change f.closed = true ∨ f.opened = [] ↔ _
      rw [tracks.closed, Flattener.depth, List.length_eq_zero_iff]
      simp
    · intro c outside suffix
      rw [opened_close] at suffix
      change c :: outside <:+ f.opened.tail at suffix
      have lt := length_lt_of_suffix suffix
      rw [List.length_tail] at lt
      refine tracks.kept_append (suffix.trans (List.tail_suffix _)) lt ?_
      rintro ⟨target, same⟩
      cases same

end Step

/-! ## Sequences of pushes -/

theorem Pushes.base_eq (pushes : f.Pushes i g) : g.base = f.base := by
  cases pushes with
  | endOf => exact base_close _
  | _ => rfl

/-- A flattener that has taken instructions one after another. -/
theorem Tracks.foldlM {is js : List Instr} (tracks : f.Tracks is)
    (pushed : js.foldlM Flattener.push f = .ok g) : g.Tracks (is ++ js) ∧ g.base = f.base := by
  induction js generalizing f is with
  | nil =>
    cases pushed
    rw [List.append_nil]
    exact ⟨tracks, rfl⟩
  | cons i js ih =>
    obtain ⟨h, first, others⟩ := exists_of_foldlM_cons pushed
    have pushes := pushes_of_push first
    obtain ⟨rest, base⟩ := ih (tracks.push pushes) others
    rw [List.append_assoc] at rest
    exact ⟨rest, base.trans pushes.base_eq⟩

theorem tracks_of_foldlM {base : Nat} {is : List Instr}
    (pushed : is.foldlM Flattener.push (start base) = .ok f) : f.Tracks is :=
  ((Tracks.start base).foldlM pushed).1

theorem foldlM_bare (f : Flattener) (is : List Instr) :
    (is.map Instr.bare).foldlM Flattener.push f = is.foldlM Flattener.push f := by
  rw [List.foldlM_map]
  congr 1
  funext f i
  exact push_withTargets f i 0 0

/-- The code of a flattener may be pushed in place of what it was made from. -/
theorem foldlM_code {base : Nat} {is : List Instr}
    (pushed : is.foldlM Flattener.push (start base) = .ok f) :
    f.code.toList.foldlM Flattener.push (start base) = .ok f := by
  rw [← foldlM_bare, (tracks_of_foldlM pushed).bare, foldlM_bare, pushed]

/-- An `ifThen` waits for its `elseArm` if the code says so. -/
theorem Tracks.awaitsElse_iff {is : List Instr} (tracks : f.Tracks is) :
    Code.AwaitsElse is ↔ ∃ pos outside, f.opened = .ifThen pos none :: outside := by
  have level := tracks.depth
  constructor
  · rintro ⟨depth, pos, type, target, elseTarget, opens, innermost, found, undivided⟩
    rw [innermost, Flattener.depth] at level
    obtain ⟨c, outside, opened⟩ := List.exists_cons_of_length_eq_add_one level
    have same : outside.length = depth := by
      rw [opened] at level
      exact Nat.succ.inj level
    have indexes := tracks.innermost opened
    rw [same] at indexes
    cases c with
    | block pos' =>
      obtain ⟨opens', type', target', found'⟩ := indexes
      rw [opens'.unique opens, found] at found'
      cases found'
    | loop =>
      obtain ⟨pos', opens', type', target', found'⟩ := indexes
      rw [opens'.unique opens, found] at found'
      cases found'
    | ifThen pos' elsePos =>
      obtain ⟨opens', -, elses⟩ := indexes
      obtain rfl := opens'.unique opens
      cases elsePos with
      | none => exact ⟨pos', outside, opened⟩
      | some q =>
        obtain ⟨behind, divides⟩ := (elses q).mp rfl
        exact absurd divides (undivided q behind)
  · rintro ⟨pos, outside, opened⟩
    obtain ⟨opens, ⟨type, target, elseTarget, found⟩, elses⟩ := tracks.innermost opened
    refine ⟨outside.length, pos, type, target, elseTarget, opens, ?_, found, ?_⟩
    · rw [← level, Flattener.depth, opened]
      rfl
    · intro q behind divides
      cases (elses q).mpr ⟨behind, divides⟩

/-- Only an `elseArm` that is out of place is refused. -/
theorem Tracks.push_ok_iff {is : List Instr} (tracks : f.Tracks is) :
    (∃ g, f.push i = .ok g) ↔ ∀ target, i = .elseArm target → Code.AwaitsElse is := by
  constructor
  · rintro ⟨g, pushed⟩ target rfl
    rw [tracks.awaitsElse_iff]
    cases pushes_of_push pushed with
    | plain plain => cases plain
    | elseArm opened => exact ⟨_, _, opened⟩
  · intro awaits
    cases pushed : f.push i with
    | ok g => exact ⟨g, rfl⟩
    | error e =>
      obtain ⟨⟨target, rfl⟩, none⟩ := push_eq_error_iff.mp pushed
      obtain ⟨pos, outside, opened⟩ := tracks.awaitsElse_iff.mp (awaits target rfl)
      exact absurd opened (none pos outside)

theorem Tracks.push_error_iff {is : List Instr} (tracks : f.Tracks is) :
    (∃ e, f.push i = .error e) ↔ (∃ target, i = .elseArm target) ∧ ¬ Code.AwaitsElse is := by
  constructor
  · rintro ⟨e, failed⟩
    obtain ⟨isElse, none⟩ := push_eq_error_iff.mp failed
    refine ⟨isElse, fun awaits => ?_⟩
    obtain ⟨pos, outside, opened⟩ := tracks.awaitsElse_iff.mp awaits
    exact none pos outside opened
  · rintro ⟨isElse, refused⟩
    refine ⟨.unexpectedElse, push_eq_error_iff.mpr ⟨isElse, fun pos outside opened => ?_⟩⟩
    exact refused (tracks.awaitsElse_iff.mpr ⟨pos, outside, opened⟩)

/-- An `endOf` fills in the targets of the construct that it ends, at the positions that are kept
about it. -/
theorem push_endOf_fills {c : OpenConstruct} {outside : List OpenConstruct}
    (tracks : f.Tracks f.code.toList) (opened : f.opened = c :: outside) :
    ∃ g, f.push .endOf = .ok g ∧ g.opened = outside ∧
      ∀ p : Nat, g.code[p]?
        = (f.code.push .endOf)[p]?.map fun i => c.fill f.base (f.base + f.code.size + 1) p i := by
  have indexes := tracks.innermost opened
  have size : (f.emit .endOf).code.size = f.code.size + 1 := Array.size_push _
  refine ⟨_, rfl, ?_, ?_⟩
  · rw [opened_close]
    change f.opened.tail = outside
    rw [opened]
    rfl
  · intro p
    have filled := getElem?_close (f := f.emit .endOf) opened indexes.nodup
      (tracks.found opened .endOf) p
    rwa [size] at filled

theorem offer_of_push (pushed : f.push i = .ok g) : f.offer i = g := by
  rw [push, FlattenM.after] at pushed
  rw [offer]
  split at pushed
  · exact Except.ok.inj pushed
  · cases pushed

/-- A push that has failed is as good as none. -/
theorem offer_of_error {e : FlattenError} (failed : f.push i = .error e) : f.offer i = f := by
  rw [push, FlattenM.after] at failed
  rw [offer]
  split at failed
  · cases failed
  · next ended => exact FlattenM.push_unchanged ended

/-- The instructions of a sequence of pushes that do not fail. -/
def accepted (f : Flattener) : List Instr → List Instr
  | [] => []
  | i :: is =>
    match f.push i with
    | .ok g => i :: g.accepted is
    | .error _ => f.accepted is

theorem foldlM_accepted (f : Flattener) (is : List Instr) :
    (f.accepted is).foldlM Flattener.push f = .ok (is.foldl offer f) := by
  induction is generalizing f with
  | nil => rfl
  | cons i is ih =>
    rw [accepted, List.foldl_cons]
    cases first : f.push i with
    | error e =>
      rw [offer_of_error first]
      exact ih f
    | ok g =>
      rw [offer_of_push first]
      change List.foldlM Flattener.push f (i :: g.accepted is) = _
      rw [List.foldlM_cons, first]
      exact ih g

theorem foldl_offer_bare (f : Flattener) (is : List Instr) :
    (is.map Instr.bare).foldl offer f = is.foldl offer f := by
  rw [List.foldl_map]
  congr 1
  funext f i
  cases i <;> rfl

/-- Whatever is pushed, and whether or not it fails: what has been taken decides which pushes fail
next, how many constructs are open and whether the sequence has ended; the code has each construct
where it is kept, so that its end finds it; and neither the pushes that have failed nor the
targets that came with the others have left a trace. -/
theorem pushes_exact (base : Nat) (tried : List Instr) :
    let f := tried.foldl offer (start base)
    let taken := (start base).accepted tried
    let code := f.code.toList
    taken.foldlM Flattener.push (start base) = .ok f ∧
    (∀ i, (∃ e, f.push i = .error e) ↔ (∃ target, i = .elseArm target) ∧
      ¬ Code.AwaitsElse taken) ∧
    (∀ i e, f.push i = .error e → f.offer i = f) ∧
    f.depth = Code.level taken taken.length ∧
    (f.closed = true ↔ Code.Ends taken) ∧
    (∀ c outside, c :: outside <:+ f.opened → c.Indexes code outside.length) ∧
    (∀ c outside, f.opened = c :: outside → ∃ g, f.push .endOf = .ok g ∧ g.opened = outside ∧
      ∀ p : Nat, g.code[p]?
        = (f.code.push .endOf)[p]?.map fun i => c.fill base (base + code.length + 1) p i) ∧
    (∀ others : List Instr, others.map Instr.bare = tried.map Instr.bare →
      others.foldl offer (start base) = f) ∧
    code.foldlM Flattener.push (start base) = .ok f := by
  intro f taken code
  have pushed : taken.foldlM Flattener.push (start base) = .ok f :=
    foldlM_accepted (start base) tried
  obtain ⟨tracks, atBase⟩ := (Tracks.start base).foldlM pushed
  rw [List.nil_append] at tracks
  have again : code.foldlM Flattener.push (start base) = .ok f := foldlM_code pushed
  have inCode : f.Tracks code := tracks_of_foldlM again
  refine ⟨pushed, ?_, ?_, tracks.depth, tracks.closed, inCode.kept, ?_, ?_, again⟩
  · intro i
    exact tracks.push_error_iff
  · intro i e failed
    exact offer_of_error failed
  · intro c outside opened
    have filled := push_endOf_fills inCode opened
    rw [atBase] at filled
    exact filled
  · intro others same
    rw [← foldl_offer_bare, same, foldl_offer_bare]

end Flattener

end WasmMachine
