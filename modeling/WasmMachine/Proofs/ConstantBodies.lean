import WasmMachine.Proofs.Footing

/-!
# Constant expressions as function bodies

The code of a constant expression can also be run as the body of a function that has no
parameters, no locals and one result. The two ways to run it differ in three things: a function
has one more frame below it, it has a caller, and the label that it starts with keeps an operand
when it is branched to. The label of a constant expression keeps none.

The first two make no difference: as long as the code runs the two machines stand on a footing
(`Footing.body`), and a step takes them to the next one (`Run.step_twinned`). The third one does:
code that reaches its end leaves the same operands, but a branch out of a constant expression, or
a return, loses the value (`Machine.constant_as_body`).
-/

namespace WasmMachine

variable {σ : Type}

/-! ## Branches out of the code -/

/-- The labels of a body, in place of those of a constant expression: the outermost one keeps an
operand. -/
def Label.returning : List Label → List Label
  | [] => []
  | [l] => [{ l with arity := 1 }]
  | l :: l' :: ls => l :: returning (l' :: ls)

namespace Label

variable {ls : List Label}

theorem returning_cons (l : Label) (some : ls ≠ []) :
    returning (l :: ls) = l :: returning ls := by
  obtain ⟨l', ls', rfl⟩ := List.exists_cons_of_ne_nil some
  rfl

theorem length_returning (ls : List Label) : (returning ls).length = ls.length := by
  induction ls with
  | nil => rfl
  | cons l ls ih =>
    by_cases some : ls = []
    · rw [some]
      rfl
    · rw [returning_cons l some, List.length_cons, List.length_cons, ih]

theorem returning_ne_nil (some : ls ≠ []) : returning ls ≠ [] := by
  rw [← List.length_pos_iff, length_returning]
  exact List.length_pos_iff.mpr some

theorem drop_returning (ls : List Label) (level : Nat) :
    (returning ls).drop level = returning (ls.drop level) := by
  induction ls generalizing level with
  | nil => simp [returning]
  | cons l ls ih =>
    cases level with
    | zero => rfl
    | succ level =>
      rw [List.drop_succ_cons, ← ih]
      by_cases some : ls = []
      · simp [some, returning]
      · rw [returning_cons l some, List.drop_succ_cons]

/-- The labels inside of the outermost one are the same. -/
theorem getElem?_returning {level : Nat} (inner : level ≠ ls.length - 1) :
    (returning ls)[level]? = ls[level]? := by
  induction ls generalizing level with
  | nil => rfl
  | cons l ls ih =>
    by_cases some : ls = []
    · subst some
      cases level with
      | zero => exact absurd rfl inner
      | succ level => rfl
    · have length := List.length_pos_iff.mpr some
      rw [returning_cons l some]
      cases level with
      | zero => rfl
      | succ level =>
        rw [List.length_cons] at inner
        exact ih (by omega)

theorem getLast?_returning (ls : List Label) :
    (returning ls).getLast? = ls.getLast?.map fun l => { l with arity := 1 } := by
  induction ls with
  | nil => rfl
  | cons l ls ih =>
    by_cases some : ls = []
    · rw [some]
      rfl
    · obtain ⟨l', ls', rfl⟩ := List.exists_cons_of_ne_nil some
      rw [returning_cons l some, List.getLast?_cons_cons, ← ih, List.getLast?_cons,
        List.getLast?_eq_some_getLast (returning_ne_nil some)]
      rfl

end Label

namespace Instr

variable {inst : Instance} {i : Instr} {f : Frame} {s : Store σ} {flow : Flow} {a : Activation σ}

/-- A branch to a label that is there. -/
theorem exec_of_label {level : Nat} {l : Label} (branches : i.level? f = some level)
    (found : f.labels[level]? = some l) : i.exec inst ⟨f, s⟩ =
      if l.height + l.arity ≤ (f.without i.operands).stack.size then
        .ok .next ⟨(f.without i.operands).branched level l, s⟩
      else .error .stackUnderflow ⟨f.without i.operands, s⟩ := by
  have found' : (f.without i.operands).labels[level]? = some l := found
  rw [exec_of_level? branches, Act.branched_eq, found']

/-- An instruction that neither branches nor opens or closes a construct leaves the labels
alone. -/
theorem labels_of_stays (free : i.isStructural = false) (stays : i.level? f = none)
    (inside : f.labels ≠ []) (run : i.exec inst ⟨f, s⟩ = .ok flow a) :
    a.frame.labels = f.labels := by
  cases i with
  | br l => cases stays
  | brIf l =>
    rw [exec_brIf] at run
    rw [level?] at stays
    dsimp only at run
    cases top : f.stack.back? with
    | none =>
      rw [top] at run
      cases run
    | some cond =>
      rw [top] at run stays
      dsimp only [Option.bind_some] at run stays
      by_cases zero : cond.u32.toNat = 0
      · rw [if_pos zero] at run
        cases run
        rfl
      · rw [if_neg zero] at stays
        cases stays
  | brTable ls fallback =>
    rw [exec_brTable] at run
    rw [level?, Option.map_eq_none_iff] at stays
    simp only [stays] at run
    cases run
  | ret =>
    rw [level?, if_neg inside] at stays
    cases stays
  | block | loop | ifThen | elseArm | endOf => cases free
  | _ =>
    have moves := exec_moves run
    generalize a.frame = g at moves ⊢
    cases moves with
    | plain _ labels _ => exact labels
    | branch control => cases control

/-- An instruction that leaves the outermost construct is the end of it, or branches to its
label. -/
theorem level?_of_leaves (free : i.isStructural = false) (inside : f.labels ≠ [])
    (run : i.exec inst ⟨f, s⟩ = .ok flow a) (leaves : a.frame.labels = []) :
    i.level? f = some (f.labels.length - 1) := by
  cases branches : i.level? f with
  | none => exact absurd ((labels_of_stays free branches inside run).symm.trans leaves) inside
  | some level =>
    rw [exec_of_level? branches] at run
    obtain ⟨l, found, -, after⟩ := Act.branched_ok run
    have within : level < f.labels.length := (List.getElem?_eq_some_iff.mp found).1
    have dropped : f.labels.drop (level + 1) = [] := by
      rw [after] at leaves
      exact leaves
    have few := List.drop_eq_nil_iff.mp dropped
    exact congrArg some (by omega)

end Instr

/-! ## Bodies -/

/-- The frame that a constant expression starts with. -/
def Frame.ofConstant (inst : Nat) (code : Code) : Frame :=
  .new none code inst #[] 1 none ⟨0, code.size, 0⟩

/-- The frame that a function starts with which has no parameters, no locals and one result. -/
def Frame.ofBody (func inst : Nat) (code : Code) (caller : Nat) : Frame :=
  .new (some func) code inst #[] 1 (some caller) ⟨1, code.size, 0⟩

/-- The frame of the code of a constant expression, in which it is run as a body. -/
def Frame.asBody (func caller : Nat) (b : Frame) : Frame :=
  (Frame.ofBody func b.inst b.code caller).over Label.returning b

/-- An instruction that does not branch out of the code does the same in both frames. -/
theorem Instr.exec_asBody {instance_ : Instance} {i : Instr} {f : Frame} {s : Store σ}
    (func caller : Nat) (inside : f.labels ≠ [])
    (inner : i.level? f ≠ some (f.labels.length - 1)) :
    i.exec instance_ ⟨f.asBody func caller, s⟩
      = mapState (fun a => ⟨a.frame.asBody func caller, a.store⟩) (i.exec instance_ ⟨f, s⟩) := by
  have there : i.exec instance_ ⟨f.asBody func caller, s⟩
      = mapState (·.over (.ofBody func f.inst f.code caller) Label.returning)
          (i.exec instance_ ⟨f, s⟩) := by
    cases branches : i.level? f with
    | none =>
      refine exec_over rfl (fun l => Label.returning_cons l inside) (fun l ls _ => ?_) branches
      by_cases some : ls = []
      · rw [some]
        exact ⟨_, rfl⟩
      · exact ⟨l, Label.returning_cons l some⟩
    | some level =>
      have branches' : i.level? (f.asBody func caller) = some level :=
        (level?_over (Label.length_returning f.labels)).trans branches
      have label := Label.getElem?_returning fun outermost =>
        inner (branches.trans (congrArg some outermost))
      rw [exec_of_level? branches, exec_of_level? branches']
      exact branched_over (a := ⟨f.without i.operands, s⟩) label (Label.drop_returning _ _)
  rw [there]
  have same := i.exec_same instance_ ⟨f, s⟩
  cases ran : i.exec instance_ ⟨f, s⟩ with
  | ok flow a | error t a =>
    rw [ran] at same
    have kept : f.Same a.frame := same
    simp only [mapState, Activation.over, Frame.asBody, kept.inst, kept.code]

namespace Run

variable (enter : Enter σ)

/-- A call from outside of a function with the given code that has no parameters, no locals
and one result. -/
def body (bound func inst : Nat) (code : Code) : Run σ (Array Value) := do
  let depth := (← get).frames.size
  pushFrame (.entry inst #[])
  restoring depth do
    pushFrame (.ofBody func inst code depth)
    execute enter bound (depth + 1)
  match ← popFrame? with
  | none => trap .entryGone
  | some entry => return entry.stack

/-- A call from outside is one of that kind, for a function of that kind, if the depth
allows for it. -/
theorem invoke_eq_body {bound addr : Nat} {g : ModuleFunc} {m : Machine σ}
    (found : m.store.funcs[addr]? = some (.module g)) (params : g.type.params = [])
    (result : g.type.results.length = 1) (locals : g.locals = [])
    (room : m.frames.size + 1 < m.config.maxCallDepth) :
    invoke enter bound addr #[] m = body enter bound addr g.inst g.code m := by
  have arity : g.type.params.length = 0 := by rw [params]; rfl
  have shallow : ¬ m.config.maxCallDepth ≤ m.frames.size + 1 := by omega
  have called : (do call enter addr; execute enter bound (m.frames.size + 1) : Run σ Unit)
        { m with frames := m.frames.push (.entry g.inst #[]) }
      = (do pushFrame (.ofBody addr g.inst g.code m.frames.size)
            execute enter bound (m.frames.size + 1) : Run σ Unit)
        { m with frames := m.frames.push (.entry g.inst #[]) } := by
    have start : callee addr g #[] m.frames.size = .ofBody addr g.inst g.code m.frames.size := by
      unfold callee Frame.ofBody
      rw [result, locals]
      rfl
    rw [bind_apply, call_eq enter addr rfl, if_neg shallow]
    dsimp only
    rw [found]
    dsimp only
    rw [arity, Frame.without_zero]
    dsimp only [Frame.top?, Frame.entry]
    rw [if_pos (Nat.zero_le _)]
    dsimp only
    rw [pushFrame, modify_bind, ← start]
    rfl
  unfold invoke body
  rw [bind_apply, getFunc_eq, found]
  have fits : ¬ (#[] : Array Value).size ≠ (.module g : StoreFunc σ).type.params.length :=
    fun differ => differ arity.symm
  dsimp only
  rw [if_neg fits, get_bind, get_bind]
  change (pushFrame (.entry g.inst #[]) >>= fun _ => _) m = _
  rewrite [pushFrame, modify_bind, modify_bind, bind_apply, bind_apply, restoring_apply,
    restoring_apply, called]
  rfl

/-- Some code is left by an instruction after a number of steps: the frame that it has started
with runs it as the innermost one, above `outer`, and this is what it leaves of the frame. -/
def LeftAt (count : Nat) (start : Machine σ) (outer : Array Frame) (first : Frame) (i : Instr)
    (last : Frame) : Prop :=
  ∃ (m m' : Machine σ) (f : Frame),
    steps enter count start = some (.ok (), m) ∧ m.frames = outer.push f ∧
    f.code[f.pc]? = some i ∧
      instruction m = some (.ok .next, m') ∧ m'.frames = outer.push last ∧ last.labels = [] ∧
      first.Same last

/-- Some code is left by an instruction. -/
def LeftBy (start : Machine σ) (outer : Array Frame) (first : Frame) (i : Instr) (last : Frame) :
    Prop :=
  ∃ count, LeftAt enter count start outer first i last

end Run

/-- A machine that allows one more frame. -/
def Machine.deeper (m : Machine σ) : Machine σ := { m with config := m.config.deeper }

theorem Machine.deeper_inj {m n : Machine σ} (same : m.deeper = n.deeper) : m = n := by
  obtain ⟨_, _, _, _, _, _, ⟨_⟩, _⟩ := m
  obtain ⟨_, _, _, _, _, _, ⟨_⟩, _⟩ := n
  simpa [deeper, Config.deeper] using same

/-! ## The footings of the code -/

/-- The code of a constant expression in its frame, and as a body above the frame of a call. -/
def Footing.body (outer : Array Frame) (func : Nat) (b : Frame) : Footing where
  low := outer
  high := outer.push (.entry b.inst #[])
  base := b
  base' := b.asBody func outer.size
  size := Array.size_push _
  inst := rfl

/-- The frame of a constant expression, as long as its code is not left. -/
structure Frame.Expression (inst : Nat) (code : Code) (b : Frame) : Prop where
  same : (Frame.ofConstant inst code).Same b
  outermost : b.labels.getLast? = some ⟨0, code.size, 0⟩

namespace Frame.Expression

variable {inst : Nat} {code : Code} {b g : Frame}

theorem inside (expression : b.Expression inst code) : b.labels ≠ [] := by
  intro none
  have outermost := expression.outermost
  rw [none] at outermost
  cases outermost

theorem prev (expression : b.Expression inst code) : b.prev = none := expression.same.prev

theorem inst_eq (expression : b.Expression inst code) : b.inst = inst := expression.same.inst

theorem code_eq (expression : b.Expression inst code) : b.code = code := expression.same.code

theorem moves (expression : b.Expression inst code) {i : Instr} (same : b.Same g)
    (moved : i.Moves b g) (inside : g.labels ≠ []) : g.Expression inst code :=
  ⟨expression.same.trans same,
    (moved.getLast?_eq expression.inside inside).trans expression.outermost⟩

end Frame.Expression

namespace Footing

variable {outer : Array Frame} {func inst : Nat} {code : Code} {b : Frame} {m m' : Machine σ}

/-- The frame of the code is not done while it is inside of something, on either machine. -/
theorem finish_body (expression : b.Expression inst code)
    (rel : (Footing.body outer func b).Rel m m') :
    (Footing.body outer func b).Agree Eq (Run.finish m) (Run.finish m') := by
  rcases Nat.lt_or_ge (outer.size + 1) m.frames.size with above | least
  · exact finish_above rel above
  · cases rel with
    | @mk fs' frames placeless =>
      have deep : outer.size < m.frames.size := frames.sizes.2
      obtain ⟨stack, top, top'⟩ := frames.of_size (show m.frames.size = outer.size + 1 by omega)
      have stays' : Run.finish (m.elsewhere fs' m.config.deeper) = _ :=
        Run.finish_stays top' (.inr (Label.returning_ne_nil expression.inside))
      rw [Run.finish_stays top (.inl expression.prev), stays']
      exact .ok rfl (.mk frames placeless)

/-- The frame of the code is the innermost one on both machines. -/
theorem body_within {a : Activation σ} (expression : a.frame.Expression inst code)
    (placeless : m.Placeless) (funcs : a.store.funcs = m.store.funcs) (fs' : Array Frame) :
    (Footing.body outer func a.frame).Rel (m.within outer a)
      ((m.elsewhere fs' m.config.deeper).within (outer.push (.entry inst #[]))
        ⟨a.frame.asBody func outer.size, a.store⟩) := by
  obtain rfl : a.frame.inst = inst := expression.inst_eq
  exact .mk (.base a.frame.stack) (placeless.of_same funcs rfl)

end Footing

/-! ## Steps of the code -/

namespace Run

variable {enter : Enter σ} {outer : Array Frame} {func inst : Nat} {code : Code} {b : Frame}
  {m m' : Machine σ}

theorem LeftBy.now {m₁ : Machine σ} {first f : Frame} {i : Instr} {instance_ : Instance}
    {a : Activation σ} (top : m.frames = outer.push f) (paid : m.paying 1 = some m₁)
    (here : f.code[f.pc]? = some i) (found : m₁.instances[f.inst]? = some instance_)
    (same : first.Same f)
    (ran : i.exec instance_ ⟨{ f with pc := f.pc + 1 }, m₁.store⟩ = .ok .next a)
    (leaves : a.frame.labels = []) : LeftBy enter m outer first i a.frame := by
  have kept := i.exec_same instance_ ⟨{ f with pc := f.pc + 1 }, m₁.store⟩
  rw [ran] at kept
  have run : instruction m = some (.ok .next, m₁.within outer a) := by
    rw [instruction_eq top, paid]
    simp only [here, found, ran]
  exact ⟨0, m, _, f, rfl, top, here, run, rfl, leaves, same.trans kept⟩

theorem LeftBy.after {first last : Frame} {i : Instr} (stepped : step enter m = some (.ok (), m'))
    (left : LeftBy enter m' outer first i last) : LeftBy enter m outer first i last := by
  obtain ⟨count, m₁, m₂, f, ran, rest⟩ := left
  refine ⟨count + 1, m₁, m₂, f, ?_, rest⟩
  rw [steps, bind_apply, stepped]
  exact ran

theorem steps_add (enter : Enter σ) (first second : Nat) :
    steps enter (first + second) = (steps enter first >>= fun _ => steps enter second) := by
  induction first with
  | zero => rw [Nat.zero_add, steps, pure_bind]
  | succ first ih => rw [Nat.succ_add, steps, steps, ih, bind_assoc]

/-- How the code ends, in the frame of a constant expression and as a body. Both are left, with
the same operands at the end of the code, or the constant expression with none by a branch. Or the
body fails, and the constant expression fails as well or is left without operands. -/
inductive Twins (enter : Enter σ) (outer : Array Frame) (func inst : Nat) (code : Code)
    (start : Machine σ) :
    Option (Except Halt Unit × Machine σ) → Option (Except Halt Unit × Machine σ) → Prop
  | left {i : Instr} {last last' : Frame} {results : Array Value} {n : Machine σ} :
    LeftBy enter start (outer.push (.entry inst #[]))
      (.ofBody func inst code outer.size) i last' →
    n.frames = outer.push last → last.labels = [] →
    last.stack = (if i.isStructural then last'.stack else #[]) → last'.top? 1 = some results →
    Twins enter outer func inst code start (some (.ok (), n))
      (some (.ok (), n.elsewhere (outer.push (.entry inst results)) n.config.deeper))
  | failed {r r' : Option (Except Halt Unit × Machine σ)} :
    (∀ n, r = some (.ok (), n) →
      ∃ last, n.frames = outer.push last ∧ last.labels = [] ∧ last.stack = #[]) →
    (∀ n, r' ≠ some (.ok (), n)) → Twins enter outer func inst code start r r'

theorem Twins.out : Twins enter outer func inst code m none none :=
  .failed (fun _ ran => by cases ran) fun _ ran => by cases ran

theorem Twins.halted {h h' : Halt} {n n' : Machine σ} :
    Twins enter outer func inst code m (some (.error h, n)) (some (.error h', n')) :=
  .failed (fun _ ran => by cases ran) fun _ ran => by cases ran

/-- How a step of the code goes in both frames: it is the last one, or both machines do the same
and the code goes on. -/
def Twinned (enter : Enter σ) (outer : Array Frame) (func inst : Nat) (code : Code)
    (start : Machine σ) (r r' : Option (Except Halt Unit × Machine σ)) : Prop :=
  Twins enter outer func inst code start r r' ∨
    ∃ b : Frame, b.Expression inst code ∧ (Footing.body outer func b).Agree Eq r r'

theorem Twins.after {r r' : Option (Except Halt Unit × Machine σ)}
    (stepped : step enter m = some (.ok (), m'))
    (twins : Twins enter outer func inst code m' r r') :
    Twins enter outer func inst code m r r' := by
  cases twins with
  | left left frames leaves same kept => exact .left (left.after stepped) frames leaves same kept
  | failed low high => exact .failed low high

/-- A body that is left hands its results to the frame below. -/
theorem finish_returns {entry last : Frame} {results : Array Value}
    (top : m.frames = (outer.push entry).push last) (linked : last.prev = some outer.size)
    (leaves : last.labels = []) (enough : last.top? last.arity = some results) :
    finish m = some (.ok (),
      { m with frames := outer.push { entry with stack := entry.stack ++ results } }) := by
  rw [finish_eq top, linked]
  dsimp only
  rw [if_neg (fun inside => inside leaves), enough]
  dsimp only
  rw [if_pos (by rw [Array.size_push]; omega), modify_push_size]

/-- A body that is left without a result fails. -/
theorem finish_fails {entry last : Frame} (top : m.frames = (outer.push entry).push last)
    (linked : last.prev = some outer.size) (leaves : last.labels = [])
    (few : last.top? last.arity = none) (n : Machine σ) : finish m ≠ some (.ok (), n) := by
  rw [finish_eq top, linked]
  dsimp only
  rw [if_neg (fun inside => inside leaves), few]
  nofun

/-- Once a body is left there is at most the frame below it, which has no code to run. -/
theorem size_of_left {entry last : Frame} {n : Machine σ} {more : Nat} (bare : entry.code = #[])
    (ran : instruction m = some (.ok .next, m')) (top : m'.frames = (outer.push entry).push last)
    (linked : last.prev = some outer.size) (leaves : last.labels = [])
    (run : steps enter (more + 1) m = some (.ok (), n)) : n.frames.size = outer.size + 1 := by
  have stepped : Run.step enter m = finish m' := by
    rw [step_eq_instruction, bind_apply, ran]
  rw [steps, bind_apply, stepped] at run
  cases results : last.top? last.arity with
  | none =>
    have fails := finish_fails top linked leaves results
    generalize finish m' = r at fails run
    rcases r with _ | ⟨_ | _, n₁⟩
    · cases run
    · cases run
    · exact absurd rfl (fails n₁)
  | some rs =>
    rw [finish_returns top linked leaves results] at run
    cases more with
    | zero =>
      cases run
      exact Array.size_push _
    | succ more =>
      dsimp only at run
      rw [steps, bind_apply, step_eq enter rfl] at run
      generalize Machine.paying _ 1 = paid at run
      cases paid with
      | none => cases run
      | some m₂ => simp [bare] at run

theorem LeftAt.le {entry first last last' : Frame} {i i' : Instr} {count count' : Nat}
    (bare : entry.code = #[]) (linked : first.prev = some outer.size)
    (left : LeftAt enter count m (outer.push entry) first i last)
    (left' : LeftAt enter count' m (outer.push entry) first i' last') : count' ≤ count := by
  obtain ⟨n, n₁, f, ran, -, -, run, top, leaves, same⟩ := left
  obtain ⟨n', -, f', ran', top', -⟩ := left'
  refine Nat.le_of_not_lt fun later => ?_
  obtain ⟨more, rfl⟩ := Nat.exists_eq_add_of_lt later
  rw [Nat.add_assoc, steps_add, bind_apply, ran] at ran'
  have size := size_of_left bare run top (same.prev.trans linked) leaves ran'
  rw [top', Array.size_push, Array.size_push] at size
  omega

/-- A body is left once. -/
theorem LeftBy.unique {entry first last last' : Frame} {i i' : Instr} (bare : entry.code = #[])
    (linked : first.prev = some outer.size)
    (left : LeftBy enter m (outer.push entry) first i last)
    (left' : LeftBy enter m (outer.push entry) first i' last') : i = i' ∧ last = last' := by
  obtain ⟨count, left⟩ := left
  obtain ⟨count', left'⟩ := left'
  obtain rfl : count = count' :=
    Nat.le_antisymm (left'.le bare linked left) (left.le bare linked left')
  obtain ⟨n, n₁, f, ran, top, here, run, top₁, -⟩ := left
  obtain ⟨n', n₁', f', ran', top', here', run', top₁', -⟩ := left'
  cases ran.symm.trans ran'
  cases run.symm.trans run'
  obtain ⟨rfl, -⟩ := Array.push_eq_push.mp (top.symm.trans top')
  obtain ⟨rfl, -⟩ := Array.push_eq_push.mp (top₁.symm.trans top₁')
  exact ⟨Option.some.inj (here.symm.trans here'), rfl⟩

/-- Code that is left in the frame of a constant expression and as a body. -/
theorem Twins.finish {start n : Machine σ} {last last' : Frame} {i : Instr}
    (top : n.frames = outer.push last) (alone : last.prev = none) (leaves : last.labels = [])
    (left :
      LeftBy enter start (outer.push (.entry inst #[]))
        (.ofBody func inst code outer.size) i last')
    (same : last.stack = if i.isStructural then last'.stack else #[]) :
    Twins enter outer func inst code start (Run.finish n)
      (Run.finish (n.elsewhere ((outer.push (.entry inst #[])).push last') n.config.deeper)) := by
  have ⟨_, _, _, _, _, _, _, _, _, leaves', kept⟩ := left
  have linked : last'.prev = some outer.size := kept.prev
  have arity : last'.arity = 1 := kept.arity
  rw [finish_stays top (.inl alone)]
  cases results : last'.top? 1 with
  | some rs =>
    rw [finish_returns rfl linked leaves' (arity.symm ▸ results), Frame.entry, Array.empty_append]
    exact .left left top leaves same results
  | none =>
    refine .failed (fun n ran => ?_) (finish_fails rfl linked leaves' (arity.symm ▸ results))
    cases ran
    have few : ¬ 1 ≤ last'.stack.size := fun enough => by
      rw [Frame.top?_of_le enough] at results
      cases results
    have empty : last'.stack = #[] := Array.eq_empty_of_size_eq_zero (by omega)
    rw [empty, ite_self] at same
    exact ⟨last, top, leaves, same⟩

section Instruction

variable {start : Machine σ} {g : Frame} {i : Instr} {instance_ : Instance} {fs' : Array Frame}
  (expression : g.Expression inst code)
  (ends : ∀ a : Activation σ,
    i.exec instance_ ⟨g.asBody func outer.size, m.store⟩ = .ok .next a → a.frame.labels = [] →
    LeftBy enter start (outer.push (.entry inst #[]))
      (.ofBody func inst code outer.size) i a.frame)
include expression ends

/-- A branch out of the code: it takes no operands along in the frame of a constant expression,
and one as a body. -/
theorem resume_out {level : Nat} (branches : i.level? g = some level)
    (outermost : level = g.labels.length - 1) : Twins enter outer func inst code start
      (resume enter outer (i.exec instance_ ⟨g, m.store⟩) m)
      (resume enter (outer.push (.entry inst #[]))
        (i.exec instance_ ⟨g.asBody func outer.size, m.store⟩)
          (m.elsewhere fs' m.config.deeper)) := by
  have free : i.isStructural = false := by
    cases i <;> first | rfl | cases branches
  have found : g.labels[level]? = some ⟨0, code.size, 0⟩ := by
    rw [outermost, ← List.getLast?_eq_getElem?, expression.outermost]
  have found' : (Label.returning g.labels)[level]? = some ⟨1, code.size, 0⟩ := by
    rw [outermost, ← Label.length_returning, ← List.getLast?_eq_getElem?,
      Label.getLast?_returning, expression.outermost]
    rfl
  have leaves : g.labels.drop (level + 1) = [] := List.drop_eq_nil_iff.mpr (by omega)
  have leaves' : (Label.returning g.labels).drop (level + 1) = [] := by
    rw [Label.drop_returning, leaves]
    rfl
  have branches' : i.level? (g.asBody func outer.size) = some level :=
    (Instr.level?_over (Label.length_returning _)).trans branches
  have low : i.exec instance_ ⟨g, m.store⟩
      = .ok .next ⟨(g.without i.operands).branched level ⟨0, code.size, 0⟩, m.store⟩ :=
    (Instr.exec_of_label branches found).trans (if_pos (Nat.zero_le _))
  have alone : ((g.without i.operands).branched level ⟨0, code.size, 0⟩).prev = none :=
    expression.prev
  have emptied : ((g.without i.operands).branched level ⟨0, code.size, 0⟩).stack = #[] := by
    simp [Frame.branched]
  have high : i.exec instance_ ⟨g.asBody func outer.size, m.store⟩ = _ :=
    Instr.exec_of_label branches' found'
  rw [low]
  by_cases enough : 0 + 1 ≤ ((g.asBody func outer.size).without i.operands).stack.size
  · have high := high.trans (if_pos enough)
    rw [high]
    exact .finish rfl alone leaves (ends _ high leaves') (by rw [free]; exact emptied)
  · rw [high.trans (if_neg enough)]
    refine .failed (fun n ran => ?_) fun _ ran => by cases ran
    have stays : Run.finish _ = some (.ok (), n) := ran
    rw [finish_stays rfl (.inl alone)] at stays
    cases stays
    exact ⟨_, rfl, leaves, emptied⟩

/-- An instruction that does not branch out of the code. It may end it. -/
theorem resume_in (entries : ∀ ft, Enter.Alike ft enter)
    (neutral : Enter.Neutral Discipline.any.code enter) (placeless : m.Placeless)
    (inner : i.level? g ≠ some (g.labels.length - 1)) : Twinned enter outer func inst code start
      (resume enter outer (i.exec instance_ ⟨g, m.store⟩) m)
      (resume enter (outer.push (.entry inst #[]))
        (i.exec instance_ ⟨g.asBody func outer.size, m.store⟩)
          (m.elsewhere fs' m.config.deeper)) := by
  have same := i.exec_same instance_ ⟨g, m.store⟩
  have funcs := i.exec_funcs instance_ ⟨g, m.store⟩
  rw [Instr.exec_asBody func outer.size expression.inside inner] at ends ⊢
  cases ran : i.exec instance_ ⟨g, m.store⟩ with
  | error t a => exact .inl .halted
  | ok flow a =>
    rw [ran] at same funcs ends
    by_cases leaves : a.frame.labels = []
    · refine .inl ?_
      cases flow with
      | call addr => exact absurd ((Instr.labels_of_call ran).symm.trans leaves) expression.inside
      | next =>
        have structural : i.isStructural = true := by
          cases free : i.isStructural with
          | true => rfl
          | false => exact absurd (Instr.level?_of_leaves free expression.inside ran leaves) inner
        have leaves' : Label.returning a.frame.labels = [] := by
          rw [leaves]
          rfl
        exact .finish rfl (same.prev.trans expression.prev) leaves (ends _ rfl leaves')
          (by rw [structural]; rfl)
    · have expression' := expression.moves same (Instr.exec_moves ran) leaves
      have rel : (Footing.body outer func a.frame).Rel _ _ :=
        Footing.body_within expression' placeless funcs fs'
      refine .inr ⟨a.frame, expression', ?_⟩
      cases flow with
      | next => exact Footing.finish_body expression' rel
      | call addr =>
        exact (Footing.call_alike (entries _) neutral addr rel).bind fun _ _ _ _ _ _ rel =>
          Footing.finish_body expression' rel

end Instruction

section Loop

variable (entries : ∀ ft, Enter.Alike ft enter)
    (neutral : Enter.Neutral Discipline.any.code enter)
include entries neutral

/-- A step in the frame of the code itself. -/
theorem step_innermost {fs' : Array Frame} (expression : b.Expression inst code)
    (placeless : m.Placeless) (top : m.frames = outer.push b)
    (top' : fs' = (outer.push (.entry inst #[])).push (b.asBody func outer.size)) :
    Twinned enter outer func inst code (m.elsewhere fs' m.config.deeper) (step enter m)
      (step enter (m.elsewhere fs' m.config.deeper)) := by
  obtain rfl := expression.inst_eq
  obtain rfl := expression.code_eq
  have high : (m.elsewhere fs' m.config.deeper).frames = _ := top'
  have same : (Frame.ofBody func b.inst b.code outer.size).Same (b.asBody func outer.size) := rfl
  have paying := Machine.paying_elsewhere m fs' m.config.deeper 1
  rw [step_eq enter top, step_eq enter high]
  cases paid : m.paying 1 with
  | none =>
    rw [paying, paid]
    exact .inl .halted
  | some m₁ =>
    rw [paid] at paying
    rw [paying]
    have eq := Machine.paying_eq paid
    generalize m₁.fuel = fuel at eq
    subst eq
    dsimp only [Frame.asBody, Frame.over, Frame.ofBody, Frame.new, Option.map_some,
      Machine.elsewhere]
    cases here : b.code[b.pc]? with
    | none => exact .inl .halted
    | some i =>
      dsimp only
      cases found : m.instances[b.inst]? with
      | none => exact .inl .halted
      | some instance_ =>
        have own : Frame.Expression b.inst b.code { b with pc := b.pc + 1 } :=
          ⟨expression.same.trans rfl, expression.outermost⟩
        have ends : ∀ a : Activation σ, _ → _ → LeftBy enter _ _ _ i a.frame := fun _ =>
          LeftBy.now high paying here found same
        have placeless' : Machine.Placeless { m with fuel } := placeless.of_same rfl rfl
        by_cases out : i.level? { b with pc := b.pc + 1 } = some (b.labels.length - 1)
        · exact .inl (resume_out (m := { m with fuel }) own ends out rfl)
        · exact resume_in (m := { m with fuel }) own ends entries neutral placeless' out

/-- A step of the code, or of what it has called. -/
theorem step_twinned (expression : b.Expression inst code)
    (rel : (Footing.body outer func b).Rel m m') :
    Twinned enter outer func inst code m' (step enter m) (step enter m') := by
  rcases Nat.lt_or_ge (outer.size + 1) m.frames.size with above | least
  · exact .inr ⟨b, expression, Footing.step_above (entries _) neutral rel above⟩
  · cases rel with
    | @mk fs' frames placeless =>
      have deep : outer.size < m.frames.size := frames.sizes.2
      obtain ⟨stack, top, top'⟩ := frames.of_size (show m.frames.size = outer.size + 1 by omega)
      have own : Frame.Expression inst code { b with stack } :=
        ⟨expression.same.trans rfl, expression.outermost⟩
      refine step_innermost entries neutral own placeless top ?_
      rw [← expression.inst_eq]
      exact top'

omit entries neutral in
theorem openAt_push {last : Frame} (frames : m.frames = outer.push last)
    (leaves : last.labels = []) :
    openAt outer.size m = false := by
  rw [openAt, frames, Array.getElem?_push_size]
  simp [Frame.hasLabel, leaves]

/-- The code in both frames, up to where it is left. -/
theorem Twins.loop (bound : Nat) (expression : b.Expression inst code)
    (rel : (Footing.body outer func b).Rel m m') : Twins enter outer func inst code m'
      (stepWhile enter (openAt outer.size) bound m)
        (execute enter bound (outer.size + 1) m') := by
  induction bound generalizing b m m' with
  | zero => exact .out
  | succ bound ih =>
    obtain ⟨size, deep⟩ := rel.frames.sizes
    obtain ⟨stack, bottom⟩ := rel.frames.getElem?_low
    have goes : openAt outer.size m = true := by
      have bottom : m.frames[outer.size]? = some { b with stack } := bottom
      rw [openAt, bottom]
      simpa [Frame.hasLabel] using expression.inside
    have deep : outer.size < m.frames.size := deep
    have goes' : outer.size + 1 < m'.frames.size := by omega
    rw [execute, stepWhile_succ, stepWhile_succ, goes, if_pos rfl, if_pos (decide_eq_true goes'),
      bind_apply, bind_apply]
    rcases step_twinned entries neutral expression rel with twins | ⟨b₁, expression₁, agree⟩
    · generalize Run.step enter m = r at twins
      generalize Run.step enter m' = r' at twins
      cases twins with
      | @left i last last' results n left frames leaves same kept =>
        have stops := openAt_push frames leaves
        have stops' : ¬ outer.size + 1
            < (n.elsewhere (outer.push (.entry inst results)) n.config.deeper).frames.size := by
          rw [Machine.elsewhere, Array.size_push]
          omega
        dsimp only
        cases bound with
        | zero => exact .out
        | succ bound =>
          rw [stepWhile_succ, stepWhile_succ, stops, if_neg Bool.false_ne_true,
            if_neg (fun goes => stops' (of_decide_eq_true goes))]
          exact .left left frames leaves same kept
      | failed low high =>
        refine .failed (fun n ran => ?_) fun n ran => ?_
        · rcases r with _ | ⟨_ | _, n₁⟩
          · cases ran
          · cases ran
          · obtain ⟨last, frames, leaves, empty⟩ := low n₁ rfl
            have stops := openAt_push frames leaves
            dsimp only at ran
            cases bound with
            | zero => cases ran
            | succ bound =>
              rw [stepWhile_succ, stops, if_neg Bool.false_ne_true] at ran
              cases ran
              exact ⟨last, frames, leaves, empty⟩
        · rcases r' with _ | ⟨_ | _, n₁⟩
          · cases ran
          · cases ran
          · exact high n₁ rfl
    · generalize Run.step enter m = r at agree
      generalize stepped : Run.step enter m' = r' at agree
      cases agree with
      | out => exact .out
      | error h rel => exact .halted
      | ok same rel => exact (ih expression₁ rel).after stepped

end Loop

/-! ## Results -/

/-- The machine on which code starts as the body of a function that is called from outside. -/
def startingBody (m : Machine σ) (func inst : Nat) (code : Code) : Machine σ :=
  { m with
    frames := (m.frames.push (.entry inst #[])).push (.ofBody func inst code m.frames.size) }

/-- How a constant expression ends, and how its code ends as a body. If either succeeds, the body
does, and is left by an instruction. The constant expression has a value if this is the end of the
code and there is just one operand, which is then the value of both. -/
inductive Compared (enter : Enter σ) (start : Machine σ) (outer : Array Frame) (first : Frame) :
    Option (Except Halt Value × Machine σ) → Option (Except Halt (Array Value) × Machine σ) → Prop
  | ended {i : Instr} {last : Frame} {v : Value} {n : Machine σ} :
    LeftBy enter start outer first i last → i.isStructural = true → last.stack = #[v] →
    Compared enter start outer first (some (.ok v, n)) (some (.ok #[v], n.deeper))
  | trapped {i : Instr} {last : Frame} {vs : Array Value} {n : Machine σ} :
    LeftBy enter start outer first i last → (i.isStructural = true → last.stack.size ≠ 1) →
    Compared enter start outer first (some (.error (.trap .constantResultCount), n))
      (some (.ok vs, n.deeper))
  | failed {r : Option (Except Halt Value × Machine σ)}
    {r' : Option (Except Halt (Array Value) × Machine σ)} :
    (∀ v n, r ≠ some (.ok v, n)) → (∀ vs n, r' ≠ some (.ok vs, n)) →
    Compared enter start outer first r r'

/-- A constant expression whose code has been left. -/
theorem constant_of_loop {bound : Nat} {last : Frame} {n : Machine σ}
    (ran : stepWhile enter (openAt m.frames.size) bound (starting m inst code) = some (.ok (), n))
    (frames : n.frames = m.frames.push last) : constant enter bound inst code m =
      some (match last.stack.toList with
        | [v] => .ok v
        | _ => .error (.trap .constantResultCount), { n with frames := m.frames }) := by
  have all : (m.frames.push last).shrink (m.frames.size + 1) = m.frames.push last := by
    rw [← Array.size_push last, shrink_size]
  unfold starting at ran
  rw [constant_eq, get_bind, pushFrame, modify_bind, bind_apply, restoring_apply, ran]
  dsimp only
  rw [truncate, modify_bind, bind_apply, popFrame?, frames, all]
  simp only [Array.back?_push, Array.pop_push]
  rcases last.stack.toList with _ | ⟨v, _ | ⟨w, more⟩⟩ <;> rfl

/-- A body that has handed its results on. -/
theorem body_of_loop {bound : Nat} {results : Array Value} {n : Machine σ}
    (ran : execute enter bound (m.frames.size + 1) (startingBody m func inst code) =
      some (.ok (), n))
    (frames : n.frames = m.frames.push (.entry inst results)) :
    body enter bound func inst code m =
      some (.ok results, { n with frames := m.frames }) := by
  have entered : (pushFrame (.ofBody func inst code m.frames.size) >>= fun _ =>
      execute enter bound (m.frames.size + 1))
        { m with frames := m.frames.push (.entry inst #[]) } =
      some (.ok (), n) := ran
  unfold body
  rw [get_bind, pushFrame, modify_bind, bind_apply, restoring_apply, entered]
  dsimp only
  rw [bind_apply, popFrame?, frames]
  simp only [Array.back?_push, Array.pop_push]
  rfl

theorem loop_of_body {bound : Nat} {vs : Array Value} {n : Machine σ}
    (ran : body enter bound func inst code m = some (.ok vs, n)) : ∃ n',
      execute enter bound (m.frames.size + 1) (startingBody m func inst code) =
        some (.ok (), n') := by
  unfold body at ran
  rw [get_bind, pushFrame, modify_bind] at ran
  rcases bind_cases ran with ⟨h, -, failed⟩ | ⟨_, m₁, restored, -⟩
  · cases failed
  · rcases restoring_cases restored with ⟨_, ran, -⟩ | ⟨_, _, -, failed, -⟩
    · exact ⟨m₁, ran⟩
    · cases failed

/-- A constant expression and its code as a body, where host functions are placeless. -/
theorem constant_compared
    (entries : ∀ ft, Enter.Alike ft enter)
    (neutral : Enter.Neutral Discipline.any.code enter) (bound func inst : Nat) (code : Code)
    (placeless : m.Placeless) :
    Compared enter (startingBody m.deeper func inst code) (m.frames.push (.entry inst #[]))
      (.ofBody func inst code m.frames.size) (constant enter bound inst code m)
      (body enter bound func inst code m.deeper) := by
  have expression : (Frame.ofConstant inst code).Expression inst code := ⟨.refl _, rfl⟩
  have rel : (Footing.body m.frames func (.ofConstant inst code)).Rel (starting m inst code)
      (startingBody m.deeper func inst code) := .mk (.base #[]) (placeless.of_same rfl rfl)
  have twins := Twins.loop entries neutral bound expression rel
  generalize low : stepWhile enter (openAt m.frames.size) bound (starting m inst code) = r
    at twins
  generalize high : execute enter bound (m.frames.size + 1)
    (startingBody m.deeper func inst code) = r'
    at twins
  cases twins with
  | @left i last last' results n left frames leaves same kept =>
    rw [constant_of_loop low frames, body_of_loop (m := m.deeper) high rfl]
    cases structural : i.isStructural with
    | false =>
      rw [structural] at same
      rw [same]
      exact .trapped left fun whole => by rw [structural] at whole; cases whole
    | true =>
      rw [structural, if_pos rfl] at same
      by_cases one : last.stack.size = 1
      · obtain ⟨v, only⟩ := Array.size_eq_one_iff.mp one
        have kept : some #[v] = some results := by
          rw [← kept, Frame.top?, ← same, only]
          rfl
        cases kept
        rw [only]
        exact .ended left structural (same.symm.trans only)
      · have other : (match last.stack.toList with
            | [v] => .ok v
            | _ => .error (.trap .constantResultCount) : Except Halt Value)
              = .error (.trap .constantResultCount) := by
          split
          · next v only => exact absurd (congrArg List.length only) one
          · rfl
        rw [other]
        exact .trapped left fun _ => same ▸ one
  | failed lowFails highFails =>
    refine .failed (fun v n ran => ?_) fun vs n ran => ?_
    · rcases constant_cases ran with ⟨_, _, -, failed, -⟩ | ⟨n₁, looped, -⟩
      · cases failed
      · obtain ⟨last, frames, -, empty⟩ := lowFails n₁ (low.symm.trans looped)
        rw [constant_of_loop looped frames, empty] at ran
        cases ran
    · obtain ⟨n', looped⟩ := loop_of_body ran
      exact highFails n' (high.symm.trans looped)

section Compared

variable {start n : Machine σ} {entry first : Frame} {v : Value}
  {r : Option (Except Halt Value × Machine σ)}
  {r' : Option (Except Halt (Array Value) × Machine σ)}
  (compared : Compared enter start (outer.push entry) first r r') (bare : entry.code = #[])
  (linked : first.prev = some outer.size)
include compared bare linked

theorem Compared.ok_iff : r = some (.ok v, n) ↔ r' = some (.ok #[v], n.deeper) ∧
    ∃ i last, LeftBy enter start (outer.push entry) first i last ∧ i.isStructural = true ∧
      last.stack = #[v] := by
  constructor
  · rintro rfl
    cases compared with
    | ended left structural only => exact ⟨rfl, _, _, left, structural, only⟩
    | failed fails _ => exact absurd rfl (fails v n)
  · rintro ⟨rfl, i, last, left, structural, only⟩
    generalize same : n.deeper = n' at compared
    cases compared with
    | ended => rw [Machine.deeper_inj same]
    | trapped left' other =>
      obtain ⟨rfl, rfl⟩ := left.unique bare linked left'
      exact absurd (congrArg Array.size only) (other structural)
    | failed _ fails => exact absurd rfl (fails _ _)

theorem Compared.of_branch {vs : Array Value} {n' : Machine σ} {i : Instr} {last : Frame}
    (returned : r' = some (.ok vs, n'))
    (left : LeftBy enter start (outer.push entry) first i last)
    (branch : i.isStructural = false) :
    ∃ n, r = some (.error (.trap .constantResultCount), n) ∧ n' = n.deeper := by
  subst returned
  cases compared with
  | ended left' structural _ =>
    obtain ⟨rfl, -⟩ := left.unique bare linked left'
    rw [branch] at structural
    cases structural
  | trapped _ _ => exact ⟨_, rfl, rfl⟩
  | failed _ fails => exact absurd rfl (fails _ _)

end Compared

end Run

namespace Machine

/-- A constant expression against a function of the same instance that has its code as its body,
no parameters, no locals and one result, and that is called from outside. The function has one
more frame below it, and is allowed one more. On a machine whose host functions are placeless, the
expression has a value exactly if the body reaches its end, with this one operand; they leave the
same machine then. A body that is left by a branch or a return may succeed as well, but the
expression traps. However the expression fails, the frames are as they were. -/
theorem constant_as_body (inner bound func inst : Nat) (code : Code) {m : Machine σ}
    (placeless : m.Placeless) :
    let expression := Run.constant (Machine.enter inner) bound inst code m
    let body := Run.body (Machine.enter inner) bound func inst code m.deeper
    let leftBy := Run.LeftBy (Machine.enter inner) (Run.startingBody m.deeper func inst code)
      (m.frames.push (.entry inst #[])) (.ofBody func inst code m.frames.size)
    (∀ v n, expression = some (.ok v, n) ↔ body = some (.ok #[v], n.deeper) ∧
      ∃ i last, leftBy i last ∧ i.isStructural = true ∧ last.stack = #[v]) ∧
    (∀ vs n' i last, body = some (.ok vs, n') → leftBy i last → i.isStructural = false →
      ∃ n, expression = some (.error (.trap .constantResultCount), n) ∧ n' = n.deeper) ∧
    (∀ h n, expression = some (.error h, n) → n.frames = m.frames) ∧
    ∀ g, m.store.funcs[func]? = some (.module g) → g.type.params = [] →
    g.type.results.length = 1 →
      g.locals = [] → g.code = code → g.inst = inst → m.frames.size < m.config.maxCallDepth →
      Run.invoke (Machine.enter inner) bound func #[] m.deeper = body := by
  intro expression body leftBy
  have compared :=
    Run.constant_compared (fun ft => enter_alike ft inner) (enter_neutral .any inner)
    bound func inst code placeless
  refine ⟨fun v n => compared.ok_iff rfl rfl, fun vs n' i last returned left branch =>
    compared.of_branch rfl rfl returned left branch, fun h n ran => ?_, ?_⟩
  · exact (Run.Neutral.constant (enter_neutral .any inner) bound inst trivial
      placeless.tame ran).1
  · rintro g found params result locals rfl rfl room
    exact Run.invoke_eq_body (Machine.enter inner) found params result locals
      (Nat.succ_lt_succ room)

/-- An expression that calls a host function, which counts its calls. -/
theorem constant_as_body_calling :
    let seven : HostFunc Nat := ⟨"host", "seven", ⟨[], [.i32]⟩, 0, 1, fun f =>
      .getState fun calls => .setState (calls + 1)
        (.done { f with stack := f.stack.push (.ofU32 7) })⟩
    let code : Code := #[.call ⟨0⟩, .endOf]
    let m := { Machine.new {} 0 with
      store.funcs := #[.host seven, .module ⟨⟨[], [.i32]⟩, [], code, 0, "a"⟩]
      instances := #[{ (default : Instance) with funcs := #[0] }] }
    m.Placeless ∧ ∃ n : Machine Nat,
      Run.constant (Machine.enter 0) 3 0 code m = some (.ok (.ofU32 7), n) ∧ n.world = 1 ∧
        Run.invoke (Machine.enter 0) 3 1 #[] m.deeper = some (.ok #[.ofU32 7], n.deeper) := by
  intro seven code m
  have own : HostFunc.Placeless seven := fun frame prev =>
    .getState fun calls => .setState _ (.done rfl)
  have placeless : m.Placeless := by
    refine ⟨fun f mem => ?_, fun key f found => ?_⟩
    · simp only [m, List.mem_toArray, List.mem_cons, List.not_mem_nil, or_false] at mem
      rcases mem with rfl | rfl
      · exact own
      · trivial
    · simp [m, Machine.new] at found
  have ended : (Run.constant (Machine.enter 0) 3 0 code m).map
      (fun p => (p.1.toOption, p.2.world)) = some (some (.ofU32 7), 1) := by decide +kernel
  obtain ⟨⟨r, n⟩, ran, same⟩ := Option.map_eq_some_iff.mp ended
  have value : r.toOption = some (.ofU32 7) := congrArg Prod.fst same
  have world : n.world = 1 := congrArg Prod.snd same
  cases (Except.of_toOption value : r = _)
  obtain ⟨ok, -, -, called⟩ := constant_as_body 0 3 1 0 code placeless
  have shallow : m.frames.size < m.config.maxCallDepth := by decide
  exact ⟨placeless, n, ran, world, (called _ rfl rfl rfl rfl rfl rfl shallow).trans
    ((ok _ n).mp ran).1⟩

/-- An expression that returns its value: as a body the code has it, and is left by the return
with just this operand, but the expression has none. -/
theorem constant_as_body_fails :
    let code : Code := #[.i32Const 7, .ret, .endOf]
    let m := { Machine.new {} () with
      store.funcs := #[.module ⟨⟨[], [.i32]⟩, [], code, 0, "a"⟩]
      instances := #[(default : Instance)] }
    (∃ n, Run.constant (Machine.enter 0) 3 0 code m =
      some (.error (.trap .constantResultCount), n)) ∧
      (∃ n, Run.invoke (Machine.enter 0) 3 0 #[] m = some (.ok #[.ofU32 7], n)) ∧
      ∃ last, Run.LeftBy (Machine.enter 0) (Run.startingBody m 0 0 code) #[.entry 0 #[]]
        (.ofBody 0 0 code 0) .ret last ∧ last.stack = #[.ofU32 7] := by
  intro code m
  have trapped : (Run.constant (Machine.enter 0) 3 0 code m).bind
      (fun p => match p.1 with | .error h => some h | .ok _ => none)
        = some (.trap .constantResultCount) := by decide +kernel
  obtain ⟨⟨_ | _, n'⟩, ran', same⟩ := Option.bind_eq_some_iff.mp trapped <;> cases same
  have ended : (Run.invoke (Machine.enter 0) 3 0 #[] m).map (fun p => p.1.toOption)
      = some (some #[.ofU32 7]) := by decide +kernel
  obtain ⟨⟨_ | vs, n⟩, ran, same⟩ := Option.map_eq_some_iff.mp ended <;> cases same
  let first : Frame := { Frame.ofBody 0 0 code 0 with stack := #[.ofU32 7] }
  refine ⟨⟨n', ran'⟩, ⟨n, ran⟩, { first with pc := 3, labels := [] }, ?_, rfl⟩
  exact ⟨1, { m with frames := #[.entry 0 #[], { first with pc := 1 }] },
    { m with frames := #[.entry 0 #[], { first with pc := 3, labels := [] }] },
    { first with pc := 1 }, rfl, rfl, rfl, rfl, rfl, rfl, rfl⟩

end Machine

end WasmMachine
