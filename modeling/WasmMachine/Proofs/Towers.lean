import WasmMachine.Proofs.Discipline

/-!
# Towers of frames

While a loop of steps runs, the frames are a tower: some that the loop never touches, the base
that it has been started on, and callees above it, each of which hands its results to the frame
below.  A step above the base keeps the tower (`Run.step_climbed`), and so does a loop; when it
ends, the first callee has left and the base has got its results (`Run.execute_ended`).
-/

namespace WasmMachine

variable {σ : Type} {D : Discipline} {enter : Enter σ} {m m' : Machine σ}
  {r : Except Halt Unit} {outer above rest : Array Frame} {base f g top : Frame} {pos : Nat}

/-! ## Callees -/

/-- A frame that is inside of something and hands its results to a given one. -/
structure Discipline.Callee (D : Discipline) (caller : Nat) (f : Frame) : Prop where
  prev : f.prev = some caller
  inside : f.labels ≠ []
  holds : D.frame f

/-- Frames above a position, each the callee of the one below. -/
def Discipline.Callees (D : Discipline) (pos : Nat) (above : Array Frame) : Prop :=
  ∀ ⦃j f⦄, above[j]? = some f → D.Callee (pos + j) f

namespace Discipline

theorem callees_empty (pos : Nat) : D.Callees pos #[] := by
  intro j f found
  simp at found

theorem Callees.push (below : D.Callees pos above) (last : D.Callee (pos + above.size) f) :
    D.Callees pos (above.push f) := by
  intro j g found
  rw [Array.getElem?_push] at found
  split at found
  · next here =>
    cases found
    rw [here]
    exact last
  · exact below found

theorem Callees.of_push (all : D.Callees pos (above.push f)) :
    D.Callees pos above ∧ D.Callee (pos + above.size) f := by
  refine ⟨fun j g found => all ?_, all Array.getElem?_push_size⟩
  have before : j < above.size := (Array.getElem?_eq_some_iff.mp found).1
  rw [Array.getElem?_push, if_neg (Nat.ne_of_lt before)]
  exact found

end Discipline

/-- The first of some frames stays the same when the last of them does. -/
theorem Frame.Same.first (same : top.Same g) (first : (rest.push top)[0]? = some f) :
    ∃ h, (rest.push g)[0]? = some h ∧ f.Same h := by
  rw [Array.getElem?_push] at first ⊢
  split at first
  · next alone =>
    cases first
    exact ⟨g, if_pos alone, same⟩
  · next more => exact ⟨f, by rw [if_neg more]; exact first, .refl f⟩

/-! ## One step -/

/-- What a step makes of the callees above a base, the first of which is known: it fails above the
base, some are still there, or the first has left as the last of them. -/
inductive Run.Climbed (D : Discipline) (m : Machine σ) (outer : Array Frame) (base f : Frame) :
    Except Halt Unit → Array Frame → Prop
  | failed (h : Halt) (rest : Array Frame) :
    Climbed D m outer base f (.error h) (outer.push base ++ rest)
  | stays {above : Array Frame} {g : Frame} : D.Callees outer.size above → above[0]? = some g →
    f.Same g → Climbed D m outer base f (.ok ()) (outer.push base ++ above)
  | left {results : Array Value} : m.frames = (outer.push base).push f → D.frame f →
    f.Leaves m results →
    Climbed D m outer base f (.ok ()) (outer.push { base with stack := base.stack ++ results })

/-- A step above a frame: it stays above it, at the same first frame or one that goes on from it,
or comes back down to it. -/
theorem Run.step_climbed (neutral : Enter.Neutral D.code enter) (own : m.Tame D.code)
    (frames : m.frames = outer.push base ++ above) (callees : D.Callees outer.size above)
    (first : above[0]? = some f) (run : Run.step enter m = some (r, m')) :
    Climbed D m outer base f r m'.frames ∧ m'.Tame D.code := by
  have nonempty : above ≠ #[] := by
    rintro rfl
    simp at first
  obtain ⟨rest, top, rfl⟩ := Array.exists_push_of_ne_empty nonempty
  obtain ⟨below, linked, inside, holds⟩ := callees.of_push
  have split : m.frames = (outer.push base ++ rest).push top := by
    rw [frames, Array.append_push]
  obtain ⟨stepped, own'⟩ := step_stepped neutral own inside holds split run
  refine ⟨?_, own'⟩
  generalize m'.frames = fs at stepped
  cases stepped with
  | failed h above =>
    rw [Array.append_assoc]
    exact .failed h _
  | @went g same ends good =>
    have inside' : g.labels ≠ [] := fun none => by
      rw [ends none] at linked
      cases linked
    obtain ⟨h, first', same'⟩ := same.first first
    rw [← Array.append_push]
    exact .stays (below.push ⟨same.prev.trans linked, inside', good inside'⟩) first' same'
  | @called g h same inside' good linked' inside'' good' =>
    obtain ⟨h', first', same'⟩ := same.first first
    have lower := below.push ⟨same.prev.trans linked, inside', good⟩
    have size : (outer.push base ++ rest).size = outer.size + (rest.push g).size := by
      simp only [Array.size_append, Array.size_push]
      omega
    have still : ((rest.push g).push h)[0]? = some h' := by
      rw [Array.getElem?_push, if_neg (by rw [Array.size_push]; omega)]
      exact first'
    rw [← Array.append_push, ← Array.append_push]
    exact .stays (lower.push ⟨size ▸ linked', inside'', good'⟩) still same'
  | @returned caller results linked' _ leaves =>
    have here : caller = outer.size + rest.size := Option.some.inj (linked'.symm.trans linked)
    by_cases alone : rest = #[]
    · subst alone
      have only : top = f := by simpa using first
      subst only
      have last : caller = outer.size := here
      rw [Array.append_empty] at split ⊢
      rw [last, modify_push_size]
      exact .left split holds leaves
    · obtain ⟨rest', caller', rfl⟩ := Array.exists_push_of_ne_empty alone
      obtain ⟨below', linked'', inside'', good⟩ := below.of_push
      have position : caller = (outer.push base ++ rest').size := by
        rw [here, Array.size_append, Array.size_push, Array.size_push]
        omega
      have first' : (rest'.push caller')[0]? = some f := by
        rw [Array.getElem?_push, if_neg (by rw [Array.size_push]; omega)] at first
        exact first
      have same : caller'.Same { caller' with stack := caller'.stack ++ results } := rfl
      obtain ⟨h', first'', same'⟩ := same.first first'
      rw [Array.append_push, position, modify_push_size, ← Array.append_push]
      exact .stays (below'.push ⟨linked'', inside'', D.operands good _⟩) first'' same'

/-! ## Loops above a base -/

/-- A number of steps, one after the other. -/
def Run.steps (enter : Enter σ) : Nat → Run σ Unit
  | 0 => pure ()
  | count + 1 => do
    step enter
    steps enter count

/-- How a loop of steps above a base ends: it fails above the base, or after some steps the first
callee is the last one, its next step is its last, and the base gets its results. -/
inductive Run.Ended (D : Discipline) (enter : Enter σ) (m : Machine σ) (outer : Array Frame)
    (base f : Frame) : Except Halt Unit → Machine σ → Prop
  | failed {m' : Machine σ} (h : Halt) (rest : Array Frame) :
    m'.frames = outer.push base ++ rest → Ended D enter m outer base f (.error h) m'
  | returned {m₁ m' : Machine σ} {g : Frame} {results : Array Value} (count : Nat) :
    steps enter count m = some (.ok (), m₁) → m₁.frames = (outer.push base).push g →
    f.Same g → D.frame g → g.Leaves m₁ results → step enter m₁ = some (.ok (), m') →
    m'.frames = outer.push { base with stack := base.stack ++ results } →
    Ended D enter m outer base f (.ok ()) m'

/-- A loop that goes on after a step ends as the loop from there does. -/
theorem Run.Ended.after {m₁ : Machine σ} (first : step enter m = some (.ok (), m₁))
    (same : f.Same g) (ended : Ended D enter m₁ outer base g r m') :
    Ended D enter m outer base f r m' := by
  cases ended with
  | failed h rest frames => exact .failed h rest frames
  | @returned m₂ _ _ _ count steps frames same' holds leaves last frames' =>
    have all : Run.steps enter (count + 1) m = some (.ok (), m₂) := by
      rw [Run.steps, bind_apply, first]
      exact steps
    exact .returned (count + 1) all frames (same.trans same') holds leaves last frames'

/-- A loop that runs until the frames are back at a depth, by induction on its bound: from each
step to the next, the frames above are calls of each other. -/
theorem Run.execute_ended (neutral : Enter.Neutral D.code enter) (own : m.Tame D.code)
    (frames : m.frames = outer.push base ++ above) (callees : D.Callees outer.size above)
    (first : above[0]? = some f) {bound : Nat}
    (run : Run.execute enter bound (outer.size + 1) m = some (r, m')) :
    Ended D enter m outer base f r m' ∧ m'.Tame D.code := by
  induction bound generalizing m above f with
  | zero => cases run
  | succ bound ih =>
    have some : 0 < above.size := (Array.getElem?_eq_some_iff.mp first).1
    have more : outer.size + 1 < m.frames.size := by
      rw [frames, Array.size_append, Array.size_push]
      omega
    rw [execute, stepWhile_succ, if_pos (decide_eq_true more)] at run
    rcases bind_cases run with ⟨h, stepped, rfl⟩ | ⟨_, m₁, stepped, run⟩
    · obtain ⟨climbed, own₁⟩ := step_climbed neutral own frames callees first stepped
      generalize after : m'.frames = fs at climbed
      cases climbed with
      | failed h rest => exact ⟨.failed h rest after, own₁⟩
    · obtain ⟨climbed, own₁⟩ := step_climbed neutral own frames callees first stepped
      generalize after : m₁.frames = fs at climbed
      cases climbed with
      | stays callees' first' same =>
        obtain ⟨ended, own'⟩ := ih own₁ after callees' first' run
        exact ⟨ended.after stepped same, own'⟩
      | left last holds leaves =>
        have done : ¬ outer.size + 1 < m₁.frames.size := by
          rw [after, Array.size_push]
          omega
        cases bound with
        | zero => cases run
        | succ bound =>
          simp only [stepWhile_succ, decide_eq_false done] at run
          cases run
          exact ⟨.returned 0 rfl last (.refl f) holds leaves stepped after, own₁⟩

/-! ## Loops from a base -/

/-- Frames that are never touched, a base, and callees above it. A base that is inside of
something is that of a constant expression, which has no caller. -/
def Discipline.Tower (D : Discipline) (outer frames : Array Frame) : Prop :=
  ∃ base above, frames = outer.push base ++ above ∧ D.Callees outer.size above ∧
    (base.labels ≠ [] → base.prev = none ∧ D.frame base)

/-- What a run leaves of a tower: all of it, or if it fails the frames that are never touched. -/
inductive Run.Kept (D : Discipline) (outer : Array Frame) :
    Except Halt Unit → Array Frame → Prop
  | failed (h : Halt) (rest : Array Frame) : Kept D outer (.error h) (outer ++ rest)
  | tower {frames : Array Frame} : D.Tower outer frames → Kept D outer (.ok ()) frames

theorem Run.Called.kept (called : Called D outer f r rest)
    (free : f.labels ≠ [] → f.prev = none ∧ D.frame f) : Kept D outer r rest := by
  cases called with
  | failed h stack =>
    rw [Array.push_eq_append]
    exact .failed h _
  | returned stack =>
    refine .tower ⟨{ f with stack }, #[], rfl, D.callees_empty _, fun inside => ?_⟩
    exact ⟨(free inside).1, D.operands (free inside).2 stack⟩
  | @started stack g linked inside holds =>
    have callees : D.Callees outer.size (#[].push g) :=
      (D.callees_empty _).push ⟨linked, inside, holds⟩
    refine .tower ⟨{ f with stack }, #[].push g, rfl, callees, fun inside => ?_⟩
    exact ⟨(free inside).1, D.operands (free inside).2 stack⟩

/-- A step on a tower leaves a tower. -/
theorem Run.step_kept (neutral : Enter.Neutral D.code enter) (own : m.Tame D.code)
    (tower : D.Tower outer m.frames)
    (inside : ∀ base, m.frames = outer.push base → base.labels ≠ [])
    (run : Run.step enter m = some (r, m')) :
    Kept D outer r m'.frames ∧ m'.Tame D.code := by
  obtain ⟨base, above, frames, callees, free⟩ := tower
  cases first : above[0]? with
  | none =>
    have empty : above = #[] := by
      have none : above.size ≤ 0 := Array.getElem?_eq_none_iff.mp first
      exact Array.eq_empty_of_size_eq_zero (by omega)
    subst empty
    rw [Array.append_empty] at frames
    have open_ := inside base frames
    obtain ⟨noCaller, holds⟩ := free open_
    obtain ⟨stepped, own'⟩ := step_stepped neutral own open_ holds frames run
    refine ⟨?_, own'⟩
    generalize m'.frames = fs at stepped
    cases stepped with
    | failed h rest => exact .failed h rest
    | @went g same _ good =>
      exact .tower ⟨g, #[], rfl, D.callees_empty _, fun open' =>
        ⟨same.prev.trans noCaller, good open'⟩⟩
    | @called g h same _ good linked inside' holds' =>
      exact .tower ⟨g, #[].push h, rfl, (D.callees_empty _).push ⟨linked, inside', holds'⟩,
        fun _ => ⟨same.prev.trans noCaller, good⟩⟩
    | returned linked =>
      rw [noCaller] at linked
      cases linked
  | some f =>
    obtain ⟨climbed, own'⟩ := step_climbed neutral own frames callees first run
    refine ⟨?_, own'⟩
    generalize m'.frames = fs at climbed
    cases climbed with
    | failed h rest =>
      rw [Array.push_eq_append, Array.append_assoc]
      exact .failed h _
    | stays callees' _ _ => exact .tower ⟨base, _, rfl, callees', free⟩
    | @left results _ _ _ =>
      exact .tower ⟨{ base with stack := base.stack ++ results }, #[], rfl, D.callees_empty _,
        fun open' => ⟨(free open').1, D.operands (free open').2 _⟩⟩

/-- So does a loop, as long as its condition holds the base inside of something. -/
theorem Run.stepWhile_kept (neutral : Enter.Neutral D.code enter) {more : Machine σ → Bool}
    (inside : ∀ (m : Machine σ) base, m.frames = outer.push base → more m = true →
      base.labels ≠ [])
    (own : m.Tame D.code) (tower : D.Tower outer m.frames) {bound : Nat}
    (run : Run.stepWhile enter more bound m = some (r, m')) :
    Kept D outer r m'.frames ∧ m'.Tame D.code ∧ (r = .ok () → more m' = false) := by
  induction bound generalizing m with
  | zero => cases run
  | succ bound ih =>
    rw [stepWhile_succ] at run
    cases again : more m with
    | false =>
      rw [again] at run
      cases run
      exact ⟨.tower tower, own, fun _ => again⟩
    | true =>
      rw [again, if_pos rfl] at run
      have free := fun base frames => inside m base frames again
      rcases bind_cases run with ⟨h, stepped, rfl⟩ | ⟨_, m₁, stepped, run⟩
      · obtain ⟨kept, own₁⟩ := step_kept neutral own tower free stepped
        exact ⟨kept, own₁, fun ok => (nomatch ok)⟩
      · obtain ⟨kept, own₁⟩ := step_kept neutral own tower free stepped
        generalize after : m₁.frames = fs at kept
        cases kept with
        | tower tower' => exact ih own₁ (after ▸ tower') run

end WasmMachine
