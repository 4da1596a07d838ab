import WasmMachine.Proofs.FlatRun
import WasmMachine.Proofs.Runs

/-!
# Flattening preserves meaning

The machine runs the flat code of a body to the end that the structured run gives it: the same
results on the caller's stack, or the same trap, and the same store, for one unit of fuel for each
instruction.  A body whose structured run never ends keeps the machine going for as long as there
is fuel.
-/

namespace WasmMachine

variable {σ : Type}

/-! ## Steps of the machine -/

section Steps

variable {enter : Enter σ} {inst : Instance} {m m' : Machine σ} {outer : Array Frame}
  {a b : Activation σ} {r : EStateM.Result Trap (Activation σ) Flow}

@[simp] theorem Machine.within_frames : (m.within outer a).frames = outer.push a.frame := rfl

theorem Machine.paying_within (count : Nat) :
    (m.within outer a).paying count = (m.paying count).map (·.within outer a) := by
  have same : (m.within outer a).fuel = m.fuel := rfl
  unfold Machine.paying
  rw [same]
  cases m.fuel with
  | none => rfl
  | some n =>
    dsimp only
    split <;> rfl

/-- A step of the machine is a step of its innermost frame, if there is fuel for it. -/
theorem Run.step_within (there : m.instances[a.frame.inst]? = some inst)
    (next : a.next? inst = some r) :
    Run.step enter (m.within outer a) = match m.paying 1 with
      | none => some (.error (.trap .fuelExhausted), m.within outer a)
      | some m => Run.resume enter outer r m := by
  rw [Run.step_eq enter Machine.within_frames, Machine.paying_within]
  cases paid : m.paying 1 with
  | none => rfl
  | some m' =>
    have there' : (m'.within outer a).instances[a.frame.inst]? = some inst := by
      rw [Machine.paying_eq paid]
      exact there
    obtain ⟨i, fetched, ran⟩ := Option.map_eq_some_iff.mp next
    simp only [Option.map_some, fetched, there']
    change Run.resume enter outer (i.exec inst ⟨{ a.frame with pc := a.frame.pc + 1 }, a.store⟩)
      (m'.within outer a) = _
    rw [ran]
    rfl

/-- A frame that is inside of something is not done. -/
theorem Run.finish_inside (inside : a.frame.labels ≠ []) :
    Run.finish (m.within outer a) = some (.ok (), m.within outer a) := by
  rw [Run.finish_eq Machine.within_frames]
  cases a.frame.prev with
  | none => rfl
  | some caller => exact if_pos inside

theorem Activation.next?_inst (next : a.next? inst = some (.ok .next b)) :
    b.frame.inst = a.frame.inst := by
  obtain ⟨i, -, ran⟩ := Option.map_eq_some_iff.mp next
  have same := Instr.exec_same inst i ⟨{ a.frame with pc := a.frame.pc + 1 }, a.store⟩
  rw [ran] at same
  exact same.inst

theorem Activation.Steps.inst_eq {k : Nat} (steps : a.Steps inst k b) :
    b.frame.inst = a.frame.inst := by
  induction steps with
  | refl => rfl
  | step next _ _ ih => rw [ih, Activation.next?_inst next]

theorem Run.execute_within (bound : Nat) :
    Run.execute enter (bound + 1) outer.size (m.within outer a)
      = (Run.step enter >>= fun _ => Run.execute enter bound outer.size) (m.within outer a) := by
  rw [Run.execute, Run.stepWhile_succ, if_pos (by simp)]
  rfl

/-- Steps of a frame are steps of the machine while its fuel lasts. -/
theorem Activation.Steps.execute {k : Nat} (steps : a.Steps inst k b)
    (there : m.instances[a.frame.inst]? = some inst) (paid : m.paying k = some m') (bound : Nat) :
    Run.execute enter (k + bound) outer.size (m.within outer a)
      = Run.execute enter bound outer.size (m'.within outer b) := by
  induction steps generalizing m with
  | refl a =>
    rw [Machine.paying_zero] at paid
    cases paid
    rw [Nat.zero_add]
  | @step a b c k next inside _ ih =>
    rw [Nat.add_comm, Machine.paying_add] at paid
    obtain ⟨m₁, one, rest⟩ := Option.bind_eq_some_iff.mp paid
    have there₁ : m₁.instances[b.frame.inst]? = some inst := by
      rw [Machine.paying_eq one, Activation.next?_inst next]
      exact there
    have first : Run.step enter (m.within outer a) = some (.ok (), m₁.within outer b) := by
      rw [Run.step_within there next, one]
      exact Run.finish_inside inside
    rw [Nat.add_right_comm, Run.execute_within, Run.bind_apply, first]
    exact ih there₁ rest

/-- A machine whose fuel does not last for the steps of a frame stops above the frames below. -/
theorem Activation.Steps.exhausts {k : Nat} (steps : a.Steps inst k b)
    (there : m.instances[a.frame.inst]? = some inst) (poor : m.paying k = none) :
    ∃ c : Activation σ, ∀ bound, k ≤ bound →
      Run.execute enter bound outer.size (m.within outer a)
        = some (.error (.trap .fuelExhausted), { m.within outer c with fuel := some 0 }) := by
  induction steps generalizing m with
  | refl a =>
    rw [Machine.paying_zero] at poor
    cases poor
  | @step a b c k next inside _ ih =>
    cases one : m.paying 1 with
    | none =>
      have empty := Machine.paying_eq_none one
      refine ⟨a, fun bound enough => ?_⟩
      obtain ⟨bound, rfl⟩ := Nat.exists_eq_add_of_le' (Nat.le_trans (Nat.le_add_left 1 k) enough)
      rw [Run.execute_within, Run.bind_apply, Run.step_within there next, one, ← empty]
      rfl
    | some m₁ =>
      have there₁ : m₁.instances[b.frame.inst]? = some inst := by
        rw [Machine.paying_eq one, Activation.next?_inst next]
        exact there
      have poor₁ : m₁.paying k = none := by
        rw [Nat.add_comm, Machine.paying_add, one] at poor
        exact poor
      have stays : Run.resume enter outer (.ok .next b) m₁ = some (.ok (), m₁.within outer b) :=
        Run.finish_inside inside
      obtain ⟨c, run⟩ := ih there₁ poor₁
      refine ⟨c, fun bound enough => ?_⟩
      obtain ⟨bound, rfl⟩ := Nat.exists_eq_add_of_le' (Nat.le_trans (Nat.le_add_left 1 k) enough)
      rw [Run.execute_within, Run.bind_apply, Run.step_within there next, one]
      dsimp only
      rw [stays]
      refine (run bound (Nat.le_of_succ_le_succ enough)).trans ?_
      rw [Machine.paying_eq one]
      rfl

theorem Activation.Steps.take {j k : Nat} (steps : a.Steps inst k b) (fewer : j ≤ k) :
    ∃ c, a.Steps inst j c := by
  induction steps generalizing j with
  | refl a =>
    obtain rfl := Nat.le_zero.mp fewer
    exact ⟨a, .refl a⟩
  | @step a b c k next inside _ ih =>
    cases j with
    | zero => exact ⟨a, .refl a⟩
    | succ j =>
      obtain ⟨c, steps⟩ := ih (Nat.le_of_succ_le_succ fewer)
      exact ⟨c, .step next inside steps⟩

end Steps

/-! ## The end of a body -/

/-- How a machine whose innermost frame has ended is left. Results are on the stack of the caller;
a trap leaves the frames below as they were. -/
def Machine.Returned (m : Machine σ) (outer : Array Frame) (caller : Nat) :
    Except Trap (Array Value) × Store σ → Except Halt Unit × Machine σ → Prop
  | (.ok results, store), ended => ended = (.ok (), { m with
      store, frames := outer.modify caller fun g => { g with stack := g.stack ++ results } })
  | (.error t, store), ended =>
    ∃ above : Array Frame, ended = (.error (.trap t), { m with store, frames := outer ++ above })

/-- A machine that has returned is back at the frames below. -/
theorem Machine.Returned.done {m m₀ : Machine σ} {outer : Array Frame} {caller : Nat}
    {result : Except Trap (Array Value) × Store σ} {ended : Except Halt Unit × Machine σ}
    (returned : m.Returned outer caller result ended) {x : Run σ Unit} (run : x m₀ = some ended)
    (enter : Enter σ) (bound : Nat) :
    (x >>= fun _ => Run.execute enter (bound + 1) outer.size) m₀ = some ended := by
  rw [Run.bind_apply, run]
  obtain ⟨t | results, store⟩ := result
  · obtain ⟨above, rfl⟩ := returned
    rfl
  · obtain rfl := returned
    dsimp only
    rw [Run.execute, Run.stepWhile_succ]
    exact if_neg (by simp)

section Ends

variable {enter : Enter σ} {m : Machine σ} {outer : Array Frame} {f : Frame} {caller : Nat}
  {r : EStateM.Result Trap (Activation σ) Flow}

theorem Fails.returned {t : Trap} {store : Store σ} (fails : Fails r t store) :
    ∃ ended, Run.resume enter outer r m = some ended ∧
      m.Returned outer caller (.error t, store) ended := by
  obtain ⟨g, rfl⟩ := fails
  exact ⟨_, rfl, #[g], rfl⟩

/-- A frame that has left its last construct hands its top operands on. -/
theorem Workspace.returned (after : Nat) (w : Workspace σ) (linked : f.prev = some caller)
    (there : caller < outer.size) :
    ∃ ended, Run.finish (m.within outer (w.placed f after [])) = some ended ∧
      m.Returned outer caller
        (if f.arity ≤ w.stack.size then .ok (w.top f.arity)
          else .error (.resultCount w.stack.size f.arity), w.store) ended := by
  have prev : (w.placed f after []).frame.prev = some caller := linked
  have top : (w.placed f after []).frame.top? f.arity
      = if f.arity ≤ w.stack.size then some (w.top f.arity) else none := rfl
  have labels : (w.placed f after []).frame.labels = [] := rfl
  have arity : (w.placed f after []).frame.arity = f.arity := rfl
  rw [Run.finish_eq Machine.within_frames, prev, arity, top, labels]
  by_cases enough : f.arity ≤ w.stack.size
  · simp only [enough, if_true, there, ne_eq, not_true_eq_false, if_false]
    exact ⟨_, rfl, rfl⟩
  · simp only [enough, if_false, ne_eq, not_true_eq_false]
    exact ⟨_, rfl, #[], rfl⟩

theorem Workspace.size_top {w : Workspace σ} {count : Nat} (enough : count ≤ w.stack.size) :
    (w.top count).size = count := by
  simp [Workspace.top]
  omega

/-- A branch to the label of the function keeps the results. -/
theorem Jumps.returned (label : Nat) {w : Workspace σ} {target : Nat}
    (linked : f.prev = some caller)
    (there : caller < outer.size) (jumps : Jumps f [⟨f.arity, target, 0⟩] 0 label w r) :
    ∃ ended, Run.resume enter outer r m = some ended ∧
      m.Returned outer caller
        (if f.arity ≤ w.stack.size then .ok (w.top f.arity) else .error .stackUnderflow, w.store)
        ended := by
  have unwound := lands_unwind label jumps
  unfold Workspace.unwind at unwound
  by_cases enough : f.arity ≤ w.stack.size
  · have kept : w.stack.extract 0 0 ++ w.top f.arity = w.top f.arity := by simp
    have all : f.arity ≤ (w.top f.arity).size := Nat.le_of_eq (Workspace.size_top enough).symm
    have same : Workspace.top { w with stack := w.top f.arity } f.arity = w.top f.arity := by
      change (w.top f.arity).extract ((w.top f.arity).size - f.arity) (w.top f.arity).size = _
      rw [Workspace.size_top enough, Nat.sub_self]
      exact Array.extract_eq_self_of_le (Nat.le_of_eq (Workspace.size_top enough))
    rw [if_pos (by simpa using enough), kept] at unwound
    obtain ⟨ended, run, returned⟩ := Workspace.returned (m := m) target
      { w with stack := w.top f.arity } linked there
    refine ⟨ended, ?_, ?_⟩
    · rw [unwound]
      exact run
    · rw [if_pos all, same] at returned
      rw [if_pos enough]
      exact returned
  · rw [if_neg (by simpa using enough)] at unwound
    rw [if_neg enough]
    exact unwound.returned

/-- What the last step of a body leaves is what its exit says. -/
theorem Lands.returned {e : Exit σ} {target after : Nat} (linked : f.prev = some caller)
    (there : caller < outer.size) (lands : Lands f [⟨f.arity, target, 0⟩] after [] e r) :
    ∃ ended, Run.resume enter outer r m = some ended ∧
      m.Returned outer caller (e.results f.arity) ended := by
  cases e with
  | fall w =>
    obtain ⟨ended, run, returned⟩ := Workspace.returned (m := m) after w linked there
    have next : r = .ok .next (w.placed f after []) := lands
    exact ⟨ended, by rw [next]; exact run, returned⟩
  | branch levels label w =>
    cases levels with
    | zero => exact Jumps.returned label linked there lands
    | succ levels => exact Fails.returned lands
  | ret w => exact Jumps.returned 0 linked there lands
  | trap t store => exact Fails.returned lands

end Ends

/-! ## The theorem -/

/-- A machine that is about to run a function body: the innermost frame is new, has the label of
the function, and has its caller below it. -/
structure Machine.Starts (m : Machine σ) (outer : Array Frame) (caller : Nat) (inst : Instance)
    (code : Code) (locals : Array Value) (arity : Nat) : Prop where
  below : caller < outer.size
  frame : ∃ func idx, m.instances[idx]? = some inst ∧
    m.frames = outer.push (.new func code idx locals arity (some caller) ⟨arity, code.size, 0⟩)

/-- Running out of fuel above some frames. -/
def Machine.Exhausts (m : Machine σ) (outer : Array Frame)
    (ended : Except Halt Unit × Machine σ) :
    Prop :=
  ∃ a : Activation σ,
    ended = (.error (.trap .fuelExhausted), { m.within outer a with fuel := some 0 })

section Whole

variable (enter : Enter σ) {inst : Instance} {m : Machine σ} {outer : Array Frame}
  {a : Activation σ} {f : Frame} {caller target after : Nat}

/-- The last step of a body, and what is behind it. -/
theorem Lands.execute {b : Activation σ} {e : Exit σ}
    {r : EStateM.Result Trap (Activation σ) Flow}
    (there : m.instances[b.frame.inst]? = some inst) (linked : f.prev = some caller)
    (below : caller < outer.size) (last : b.next? inst = some r)
    (lands : Lands f [⟨f.arity, target, 0⟩] after [] e r) :
    ∃ ended, (∀ bound, Run.execute enter (bound + 2) outer.size (m.within outer b) = some ended) ∧
      match m.paying 1 with
      | some m => m.Returned outer caller (e.results f.arity) ended
      | none => m.Exhausts outer ended := by
  cases one : m.paying 1 with
  | none =>
    have empty := Machine.paying_eq_none one
    refine ⟨(.error (.trap .fuelExhausted), m.within outer b), fun bound => ?_, b, ?_⟩
    · rw [Run.execute_within, Run.bind_apply, Run.step_within there last, one]
    · rw [← empty]
      rfl
  | some m₁ =>
    obtain ⟨ended, run, returned⟩ := lands.returned linked below
    refine ⟨ended, fun bound => ?_, returned⟩
    rw [Run.execute_within]
    refine returned.done ?_ enter bound
    rw [Run.step_within there last, one]
    exact run

/-- A frame that follows a structured run to an exit. -/
theorem Follows.execute_some {bound : Nat} {e : Exit σ}
    (follows : Follows inst f [⟨f.arity, target, 0⟩] after [] bound a (some e))
    (there : m.instances[a.frame.inst]? = some inst) (linked : f.prev = some caller)
    (below : caller < outer.size) :
    ∃ cost ended,
      (∀ bound, cost < bound →
        Run.execute enter bound outer.size (m.within outer a) = some ended) ∧
      match m.paying cost with
      | some m => m.Returned outer caller (e.results f.arity) ended
      | none => m.Exhausts outer ended := by
  obtain ⟨k, b, r, steps, last, lands⟩ := follows
  refine ⟨k + 1, ?_⟩
  rw [Machine.paying_add]
  cases paid : m.paying k with
  | none =>
    obtain ⟨c, run⟩ := steps.exhausts there paid
    exact ⟨_, fun bound enough => run bound (by omega), c, rfl⟩
  | some m₁ =>
    have there₁ : m₁.instances[b.frame.inst]? = some inst := by
      rw [Machine.paying_eq paid, steps.inst_eq]
      exact there
    obtain ⟨ended, run, returned⟩ := lands.execute enter there₁ linked below last
    refine ⟨ended, ?_, ?_⟩
    · intro bound enough
      obtain ⟨rest, rfl⟩ : ∃ rest, bound = k + (rest + 2) := ⟨bound - k - 2, by omega⟩
      rw [steps.execute there paid]
      exact run rest
    · change match m₁.paying 1 with | some m => _ | none => _
      cases one : m₁.paying 1 with
      | none =>
        rw [one] at returned
        obtain ⟨c, exhausted⟩ := returned
        refine ⟨c, ?_⟩
        rw [exhausted, Machine.paying_eq paid]
        rfl
      | some m₂ =>
        rw [one] at returned
        exact returned

/-- A frame that follows a structured run without an exit. -/
theorem Follows.execute_none (outer : Array Frame) {labels labels' : List Label}
    (follows : ∀ bound, Follows inst f labels after labels' bound a none)
    (there : m.instances[a.frame.inst]? = some inst) :
    match m.fuel with
    | none => ∀ bound, Run.execute enter bound outer.size (m.within outer a) = none
    | some n => ∃ ended, m.Exhausts outer ended ∧
      ∀ bound, n.toNat < bound →
        Run.execute enter bound outer.size (m.within outer a) = some ended := by
  have steps (k : Nat) : ∃ b, a.Steps inst k b := by
    obtain ⟨j, b, enough, steps⟩ := follows k
    exact steps.take enough
  cases fuel : m.fuel with
  | none =>
    intro bound
    obtain ⟨b, steps⟩ := steps bound
    have paid : m.paying bound = some m := by rw [Machine.paying, fuel]
    exact steps.execute there paid 0
  | some n =>
    obtain ⟨b, steps⟩ := steps (n.toNat + 1)
    have poor : m.paying (n.toNat + 1) = none := by
      rw [Machine.paying, fuel]
      exact if_neg (by omega)
    obtain ⟨c, run⟩ := steps.exhausts there poor
    exact ⟨_, ⟨c, rfl⟩, fun bound enough => run bound enough⟩

end Whole

/-- The flat code of a body runs to the end that the structured run of the body gives, and never
ends if that does not. -/
theorem flatten_preserves_meaning {nodes : List Node}
    (body : Forest.IsBody (fun i => i.isCall = false) nodes) :
    ∃ code, flatten nodes 0 = .ok code ∧
      ∀ (enter : Enter σ) (m : Machine σ) (outer : Array Frame) (caller : Nat) (inst : Instance)
        (locals : Array Value) (arity : Nat), m.Starts outer caller inst code locals arity →
        (∀ bound e, Forest.run inst bound nodes ⟨locals, #[], m.store⟩ = some e →
          ∃ cost ended, (∀ bound, cost < bound →
            Run.execute enter bound outer.size m = some ended) ∧
            match m.paying cost with
            | some m => m.Returned outer caller (e.results arity) ended
            | none => m.Exhausts outer ended) ∧
        ((∀ bound, Forest.run inst bound nodes ⟨locals, #[], m.store⟩ = none) →
          match m.fuel with
          | none => ∀ bound, Run.execute enter bound outer.size m = none
          | some n => ∃ ended, m.Exhausts outer ended ∧
            ∀ bound, n.toNat < bound → Run.execute enter bound outer.size m = some ended) := by
  refine ⟨_, body.flatten_eq 0, ?_⟩
  intro enter m outer caller inst locals arity starts
  obtain ⟨below, func, idx, there, frames⟩ := starts
  have placed := body.placed (0 + Forest.count nodes)
  generalize (Forest.layout (0 + Forest.count nodes) 0 nodes).toArray = code at placed frames
  let f : Frame := .new func code idx locals arity (some caller) ⟨arity, code.size, 0⟩
  have follows (bound : Nat) :
      Follows inst f [⟨arity, code.size, 0⟩] (Forest.count nodes) [] bound
      ⟨f, m.store⟩ (Forest.run inst bound nodes ⟨locals, #[], m.store⟩) :=
    Forest.follows bound placed ⟨locals, #[], m.store⟩
  have start : m.within outer ⟨f, m.store⟩ = m := by
    rw [Machine.within, ← frames]
  refine ⟨?_, ?_⟩
  · intro bound e exits
    have ends := follows bound
    rw [exits] at ends
    have runs := ends.execute_some enter there rfl below
    rwa [start] at runs
  · intro never
    have runs := Follows.execute_none enter outer (fun bound => never bound ▸ follows bound) there
    rwa [start] at runs

/-- A branch out of a block with a value, and a loop that never ends. -/
theorem flatten_preserves_meaning_of_branches :
    let leaving : List Node :=
      [.block (.val .i32) [.instr (.i32Const 7), .instr (.br ⟨0⟩), .instr .endOf], .instr .endOf]
    let looping : List Node := [.loop .empty [.instr (.br ⟨0⟩), .instr .endOf], .instr .endOf]
    let start (code : Code) : Machine Unit := { Machine.new {} () with
      instances := #[default]
      frames := #[.entry 0 #[], .new none code 0 #[] 1 (some 0) ⟨1, code.size, 0⟩] }
    (∃ code cost, flatten leaving 0 = .ok code ∧ ∀ bound, cost < bound → ∃ m,
      Run.execute (fun _ => Run.outOfBound) bound 1 (start code) = some (.ok (), m) ∧
      m.frames = #[.entry 0 #[Native.toValue (7 : Int32)]]) ∧
    (∃ code, flatten looping 0 = .ok code ∧ ∀ bound,
      Run.execute (fun _ => Run.outOfBound) bound 1 (start code) = none) := by
  intro leaving looping start
  have starts (code : Code) :
      (start code).Starts #[.entry 0 #[]] 0 default code #[] 1 :=
    ⟨Nat.zero_lt_one, none, 0, rfl, rfl⟩
  constructor
  · have block : Node.WellFormed (fun i => i.isCall = false)
        (.block (.val .i32) ([.instr (.i32Const 7), .instr (.br ⟨0⟩)] ++ [.instr .endOf])) :=
      .block (by simp; exact ⟨.instr rfl rfl, .instr rfl rfl⟩)
    have body : Forest.IsBody (fun i => i.isCall = false) leaving :=
      ⟨[_], rfl, by simpa using block⟩
    obtain ⟨code, flat, means⟩ := flatten_preserves_meaning body
    obtain ⟨cost, ended, run, returned⟩ :=
      (means (fun _ => Run.outOfBound) (start code) _ 0 default #[] 1 (starts code)).1 4
        (.fall ⟨#[], #[Native.toValue (7 : Int32)], {}⟩) rfl
    have done : ended = (.ok (), { start code with
      frames := #[.entry 0 #[Native.toValue (7 : Int32)]] }) := returned
    exact ⟨code, cost, flat,
      fun bound enough => ⟨_, (run bound enough).trans (congrArg some done), rfl⟩⟩
  · have loop : Node.WellFormed (fun i => i.isCall = false)
        (.loop .empty ([.instr (.br ⟨0⟩)] ++ [.instr .endOf])) :=
      .loop (by simp; exact .instr rfl rfl)
    have body : Forest.IsBody (fun i => i.isCall = false) looping :=
      ⟨[_], rfl, by simpa using loop⟩
    have never (bound : Nat) :
        Forest.run default bound looping (⟨#[], #[], {}⟩ : Workspace Unit) = none := by
      induction bound using Nat.strongRecOn with
      | ind bound ih =>
        rcases bound with _ | _ | bound
        · rfl
        · rfl
        · exact ih (bound + 1) (Nat.lt_succ_self _)
    obtain ⟨code, flat, means⟩ := flatten_preserves_meaning body
    exact ⟨code, flat, (means (fun _ => Run.outOfBound) (start code) _ 0 default #[] 1
      (starts code)).2 never⟩

end WasmMachine
