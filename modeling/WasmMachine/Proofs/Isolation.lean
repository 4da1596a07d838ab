import WasmMachine.Proofs.Moves
import WasmMachine.Proofs.Neutral

/-!
# Calls are isolated

A guest function that is called gets its arguments in a frame of its own, and whatever it does and
calls in turn, its caller finds its results on its operand stack and everything else as it was
(`Run.call_isolated`).  The results are the top operands of the callee at its last instruction.
That they are, whichever instruction it is, rests on the outermost label: it stays the one of the
function itself (`Discipline.returning`), so that a branch to it keeps just the results.
-/

namespace WasmMachine

variable {σ : Type} {m m' : Machine σ} {outer : Array Frame} {f g : Frame}

/-! ## The outermost label -/

/-- An instruction that does not leave the outermost construct keeps its label. -/
theorem Instr.Moves.getLast?_eq {i : Instr} (moves : i.Moves f g) (inside : f.labels ≠ [])
    (inside' : g.labels ≠ []) : g.labels.getLast? = f.labels.getLast? := by
  have cons (l : Label) {ls : List Label} (some : ls ≠ []) :
      (l :: ls).getLast? = ls.getLast? := by
    obtain ⟨l', ls', rfl⟩ := List.exists_cons_of_ne_nil some
    rw [List.getLast?_cons_cons]
  cases moves with
  | plain _ labels _ => rw [labels]
  | block l => exact cons l inside
  | loop l => exact cons l inside
  | thenArm l _ _ => exact cons l inside
  | elseArm l _ _ => exact cons l inside
  | skip => rfl
  | pass => rfl
  | endThen _ labels =>
    rw [labels]
    exact (cons _ inside').symm
  | endOf labels =>
    rw [labels]
    exact (cons _ inside').symm
  | @branch _ _ level l _ _ _ _ =>
    have more : (f.labels.drop (level + 1)).getLast? = f.labels.getLast? := by
      rw [List.getLast?_drop, if_neg]
      intro few
      exact inside' (List.drop_eq_nil_of_le few)
    exact more

/-- The outermost label of a callee is the one of its function. -/
def Frame.Returning (f : Frame) : Prop :=
  ∀ caller, f.prev = some caller → f.labels.getLast? = some ⟨f.arity, f.code.size, 0⟩

/-- Callees keep the label of their function while they are inside of something. -/
def Discipline.returning : Discipline where
  code _ := True
  frame := Frame.Returning
  callee _ _ _ _ _ _ := fun _ _ => rfl
  constant _ _ := nofun
  steps {_ f i inst store _ b} holds inside _ run inside' := by
    intro caller linked
    have same : f.Same b.frame := by
      have kept := i.exec_same inst ⟨{ f with pc := f.pc + 1 }, store⟩
      rw [run] at kept
      exact kept
    have last := (Instr.exec_moves run).getLast?_eq inside inside'
    have code : b.frame.code = f.code := by rw [same]
    rw [last, same.arity, code]
    exact holds caller (same.prev.symm.trans linked)
  operands holds _ := holds

/-! ## Results -/

theorem Frame.top?_of_le {count : Nat} (enough : count ≤ f.stack.size) :
    f.top? count = some (f.stack.extract (f.stack.size - count) f.stack.size) :=
  if_pos enough

/-- A branch that keeps some operands above nothing leaves these operands on top. -/
theorem Frame.top?_branched {level : Nat} {l : Label} (bottom : l.height = 0)
    (enough : l.height + l.arity ≤ f.stack.size) :
    (f.branched level l).top? l.arity = f.top? l.arity := by
  have enough' : l.arity ≤ f.stack.size := by omega
  have stack : (f.branched level l).stack
      = f.stack.extract (f.stack.size - l.arity) f.stack.size := by
    simp [branched, bottom]
  have size : (f.branched level l).stack.size = l.arity := by
    rw [stack, Array.size_extract]
    omega
  have whole : f.stack.size - l.arity + l.arity = f.stack.size := by omega
  rw [top?_of_le enough', top?_of_le (Nat.le_of_eq size.symm), size, Nat.sub_self, stack]
  simp [whole]

/-- Whichever instruction a callee ends with, its results are the top operands at it, but for the
one that the instruction takes for itself. -/
theorem Instr.Moves.top?_eq {i : Instr} {target : Nat} (moves : i.Moves f g)
    (inside : f.labels ≠ []) (leaves : g.labels = [])
    (last : f.labels.getLast? = some ⟨f.arity, target, 0⟩) :
    g.top? f.arity = (f.without i.operands).top? f.arity := by
  cases moves with
  | plain _ labels _ => exact absurd (labels ▸ leaves) inside
  | block l => cases leaves
  | loop l => cases leaves
  | thenArm => cases leaves
  | elseArm => cases leaves
  | skip => exact absurd leaves inside
  | pass => exact absurd leaves inside
  | endThen | endOf =>
    change f.top? f.arity = (f.without 0).top? f.arity
    rw [Frame.without_zero]
  | @branch _ _ level l _ _ found there =>
    have few : f.labels.length ≤ level + 1 := List.drop_eq_nil_iff.mp leaves
    have within : level < f.labels.length := (List.getElem?_eq_some_iff.mp found).1
    have own : l = ⟨f.arity, target, 0⟩ := by
      have outermost : level = f.labels.length - 1 := by omega
      rw [List.getLast?_eq_getElem?, ← outermost, found] at last
      exact Option.some.inj last
    have arity : l.arity = f.arity := by rw [own]
    have bottom : l.height = 0 := by rw [own]
    rw [← arity]
    exact Frame.top?_branched bottom there

/-! ## Calls -/

theorem Frame.top?_append {s args : Array Value} (stack : f.stack = s ++ args) :
    f.top? args.size = some args := by
  have enough : args.size ≤ f.stack.size := by
    rw [stack, Array.size_append]
    omega
  rw [top?_of_le enough, stack]
  simp [Array.extract_append]

theorem Frame.without_append {s args : Array Value} (stack : f.stack = s ++ args) :
    f.without args.size = { f with stack := s } := by
  unfold without
  rw [stack, Array.size_append, Nat.add_sub_cancel, Run.shrink_append]

/-- The last instruction of a callee and the results that it leaves. -/
theorem Frame.Leaves.results {results : Array Value} {caller : Nat} (leaves : f.Leaves m results)
    (linked : f.prev = some caller) (holds : f.Returning) :
    ∃ i, f.code[f.pc]? = some i ∧ (f.without i.operands).top? f.arity = some results := by
  obtain ⟨i, inst, b, here, _, ran, done, kept⟩ := leaves
  have last := holds caller linked
  have inside : f.labels ≠ [] := by
    intro none
    rw [none] at last
    cases last
  have same := (Instr.exec_moves ran).top?_eq inside done last
  exact ⟨i, here, same.symm.trans kept⟩

/-- A call of a guest function from a machine whose host functions leave stepping to it. The
function starts with its arguments as its first locals, zeros as the others, and no operands; once
the frames are down to its caller, the top operands of its last instruction have taken the place
of the arguments, and nothing else about the frames has changed. -/
theorem Run.call_isolated (inner bound : Nat) {addr : Nat} {func : ModuleFunc}
    {caller : Frame} {s args : Array Value} (tame : m.Tame fun _ => True)
    (found : m.store.funcs[addr]? = some (.module func)) (top : m.frames = outer.push caller)
    (stack : caller.stack = s ++ args) (count : args.size = func.type.params.length)
    (run : (do call (Machine.enter inner) addr
               execute (Machine.enter inner) bound (outer.size + 1)) m = some (.ok (), m')) :
    ∃ (m₀ : Machine σ) (callee : Frame),
      call (Machine.enter inner) addr m = some (.ok (), m₀) ∧
      m₀.frames = (outer.push { caller with stack := s }).push callee ∧
      callee.code = func.code ∧ callee.pc = 0 ∧ callee.stack = #[] ∧
      callee.locals = args ++ Array.replicate func.locals.length Value.null ∧
    ∃ (steps : Nat) (m₁ : Machine σ) (last : Frame) (i : Instr) (results : Array Value),
      Run.steps (Machine.enter inner) steps m₀ = some (.ok (), m₁) ∧
      m₁.frames = (outer.push { caller with stack := s }).push last ∧ callee.Same last ∧
      step (Machine.enter inner) m₁ = some (.ok (), m') ∧ last.Leaves m₁ results ∧
      results.size = func.type.results.length ∧ last.code[last.pc]? = some i ∧
      (last.without i.operands).top? func.type.results.length = some results ∧
      m'.frames = outer.push { caller with stack := s ++ results } := by
  have args' : caller.top? func.type.params.length = some args :=
    count ▸ Frame.top?_append stack
  have popped : caller.without func.type.params.length = { caller with stack := s } :=
    count ▸ Frame.without_append stack
  have called := call_eq (Machine.enter inner) addr top
  rw [bind_apply] at run
  by_cases deep : m.config.maxCallDepth ≤ outer.size + 1
  · rw [if_pos deep] at called
    rw [called] at run
    cases run
  · rw [if_neg deep, found] at called
    simp only [args', popped] at called
    simp only [called] at run
    generalize started : Run.callee addr func args outer.size = f at called run
    have callee : Discipline.returning.Callee outer.size f := by
      rw [← started]
      exact ⟨rfl, List.cons_ne_nil _ _, fun _ _ => rfl⟩
    have callees : Discipline.returning.Callees outer.size #[f] :=
      (Discipline.callees_empty _).push callee
    have own : Machine.Tame Discipline.returning.code
        { m with frames := (outer.push { caller with stack := s }).push f } :=
      tame.of_same rfl rfl
    obtain ⟨ended, _⟩ :=
      execute_ended (Machine.enter_neutral .returning inner) own rfl callees rfl run
    cases ended with
    | @returned m₁ _ g results steps ran frames same holds leaves last after =>
      obtain ⟨i, here, kept⟩ := leaves.results (same.prev.trans callee.prev) holds
      have arity : g.arity = func.type.results.length := by
        rw [same.arity, ← started]
        rfl
      have size := leaves.size
      rw [arity] at kept size
      refine ⟨_, f, called, rfl, ?_, ?_, ?_, ?_, steps, m₁, g, i, results, ran,
        frames, same, last,
        leaves, size, here, kept, after⟩
      all_goals
        rw [← started]
        rfl

/-- A function that branches out of itself and leaves an operand too many. -/
theorem Run.call_isolated_of_branch :
    let func : ModuleFunc :=
      ⟨⟨[.i32], [.i32]⟩, [], #[.localGet ⟨0⟩, .i32Const 9, .br ⟨0⟩, .endOf], 0, "m"⟩
    let one := Native.toValue (1 : Int32)
    let start : Machine Unit := { Machine.new {} () with
      store := { funcs := #[.module func] }
      instances := #[default]
      frames := #[.entry 0 #[one, Native.toValue (7 : Int32)]] }
    ∃ m' results, (do call (Machine.enter 0) 0; execute (Machine.enter 0) 4 1) start
        = some (.ok (), m') ∧
      results.size = 1 ∧ m'.frames = #[.entry 0 (#[one] ++ results)] := by
  intro func one start
  have tame : start.Tame fun _ => True := by
    refine ⟨fun f mem => ?_, fun key f found => ?_⟩
    · have only : f = .module func := by simpa [start] using mem
      rw [only]
      trivial
    · simp [start, Machine.new] at found
  have succeeds : ((do call (Machine.enter 0) 0; execute (Machine.enter 0) 4 1 : Run Unit Unit)
      start).map (·.1.toBool) = some true := by
    decide +kernel
  obtain ⟨⟨r, m'⟩, run, ok⟩ := Option.map_eq_some_iff.mp succeeds
  cases r with
  | error h => cases ok
  | ok _ =>
    have stack : #[one, Native.toValue (7 : Int32)] = #[one] ++ #[Native.toValue (7 : Int32)] :=
      rfl
    have top : start.frames = #[].push (.entry 0 #[one, Native.toValue (7 : Int32)]) := rfl
    obtain ⟨_, _, _, _, _, _, _, _, _, _, _, _, results, _, _, _, _, _, size, _, _, after⟩ :=
      Run.call_isolated 0 4 tame rfl top stack rfl run
    exact ⟨m', results, run, size, after⟩

end WasmMachine
