import WasmMachine.Proofs.Control
import WasmMachine.Proofs.Tame

/-!
# The discipline of frames

Frames are a stack.  A step changes the innermost frame alone, puts one frame on top of it, or
takes it off and gives its results to the frame that it names as its caller, which is always the
one below (`Run.step_stepped`).  A loop of steps keeps a `Tower`: some frames that it never
touches, the base that it has been started on, and callees above it.

A `Discipline` is a property of frames that code of some kind keeps; it comes along.
-/

namespace WasmMachine

variable {σ α β : Type}

/-- What is asked of code, and what then holds of every frame that is inside of something. -/
structure Discipline where
  code : Code → Prop
  frame : Frame → Prop
  callee : ∀ {c : Code}, code c → ∀ func inst locals arity caller,
    frame (.new func c inst locals arity (some caller) ⟨arity, c.size, 0⟩)
  constant : ∀ {c : Code}, code c → ∀ inst, frame (.new none c inst #[] 1 none ⟨0, c.size, 0⟩)
  steps : ∀ {σ : Type} {f : Frame} {i : Instr} {inst : Instance} {store : Store σ} {flow : Flow}
    {b : Activation σ}, frame f → f.labels ≠ [] → f.code[f.pc]? = some i →
    i.exec inst ⟨{ f with pc := f.pc + 1 }, store⟩ = .ok flow b → b.frame.labels ≠ [] →
    frame b.frame
  operands : ∀ {f : Frame}, frame f → ∀ stack, frame { f with stack }

/-- The discipline that asks for nothing. -/
def Discipline.any : Discipline where
  code _ := True
  frame _ := True
  callee _ _ _ _ _ _ := trivial
  constant _ _ := trivial
  steps _ _ _ _ _ := trivial
  operands _ _ := trivial

/-! ## Runs that leave the frames as they were -/

/-- However it ends, a run leaves the frames as they were, and the functions tame. -/
def Run.Neutral (P : Code → Prop) (x : Run σ α) : Prop :=
  ∀ ⦃m r m'⦄, m.Tame P → x m = some (r, m') → m'.frames = m.frames ∧ m'.Tame P

/-- A way to carry out entries that leaves the frames as they were. -/
def Enter.Neutral (P : Code → Prop) (enter : Enter σ) : Prop :=
  ∀ ⦃op : Entry⦄, op.Tame (Module.AllCode P) → Run.Neutral P (enter op)

namespace Run.Neutral

variable {P : Code → Prop} {x : Run σ α}

theorem pure (a : α) : Neutral P (Pure.pure a : Run σ α) := by
  intro m r m' own run
  cases run
  exact ⟨rfl, own⟩

theorem throw (h : Halt) : Neutral P (MonadExcept.throw h : Run σ α) := by
  intro m r m' own run
  cases run
  exact ⟨rfl, own⟩

theorem trap (t : Trap) : Neutral P (Run.trap t : Run σ α) := throw _

theorem ofExcept (e : Except Trap α) : Neutral P (Run.ofExcept e : Run σ α) := by
  cases e with
  | ok a => exact pure a
  | error t => exact trap t

/-- Runs that leave the frames alone may follow each other. -/
theorem bind {k : α → Run σ β} (first : Neutral P x) (rest : ∀ a, Neutral P (k a)) :
    Neutral P (x >>= k) := by
  intro m r m' own run
  rcases bind_cases run with ⟨h, head, -⟩ | ⟨a, m₁, head, run⟩
  · exact first own head
  · obtain ⟨frames, own₁⟩ := first own head
    obtain ⟨frames', own'⟩ := rest a own₁ run
    exact ⟨frames'.trans frames, own'⟩

theorem get {k : Machine σ → Run σ α} (rest : ∀ m, Neutral P (k m)) :
    Neutral P (MonadState.get >>= k) :=
  fun m _ _ own run => rest m own run

theorem store {x : StoreM σ α} (funcs : ∀ s, (stateAfter (x s)).funcs = s.funcs) :
    Neutral P (Run.store x) := by
  intro m r m' own run
  have same := funcs m.store
  rw [store_eq] at run
  cases result : x m.store with
  | ok a s =>
    rw [result] at run same
    cases run
    exact ⟨rfl, own.of_same same rfl⟩
  | error t s =>
    rw [result] at run same
    cases run
    exact ⟨rfl, own.of_same same rfl⟩

theorem op {x : StoreM σ α} (op : StoreM.Op x) : Neutral P (Run.store x) := store op.funcs_eq

theorem getFunc (addr : Nat) : Neutral P (Run.store (StoreM.getFunc addr : StoreM σ _)) :=
  op (.getFunc _)

/-- A change of the machine that touches neither frames nor functions. -/
theorem modify {g : Machine σ → Machine σ}
    (quiet : ∀ m, m.Tame P → (g m).frames = m.frames ∧ (g m).Tame P) :
    Neutral P (MonadState.modifyGet fun m => ((), g m) : Run σ Unit) := by
  intro m r m' own run
  cases run
  exact quiet m own

/-- A tame host program is neutral. -/
theorem host {enter : Enter σ} (neutral : Enter.Neutral P enter) {p : HostProg σ}
    (tame : p.Tame (Module.AllCode P)) : Neutral P (Run.host enter p) := by
  induction tame with
  | done frame => exact pure frame
  | halt reason => exact throw reason
  | access op _ ih =>
    intro m r m' own run
    obtain ⟨frames, own₁⟩ := op.perform_quiet (P := P) m
    obtain ⟨frames', own'⟩ := ih _ (own₁ own) run
    exact ⟨frames'.trans frames, own'⟩
  | @enter op next opTame _ ih =>
    intro m r m' own run
    obtain ⟨reply, m₁, entered, run⟩ := host_enter_cases run
    obtain ⟨frames, own₁⟩ := neutral opTame own entered
    obtain ⟨frames', own'⟩ := ih reply own₁ run
    exact ⟨frames'.trans frames, own'⟩
  | register own _ _ ih =>
    intro m r m' tame run
    obtain ⟨frames, tame'⟩ := ih (tame.register own) run
    exact ⟨frames, tame'⟩
  | getState _ ih =>
    intro m r m' own run
    exact ih m.world own run
  | setState s _ ih =>
    intro m r m' own run
    have own₁ : Machine.Tame P { m with world := s } := own.of_same rfl rfl
    have after := ih own₁ run
    exact after

end Run.Neutral

/-! ## Calls and steps -/

variable {D : Discipline} {enter : Enter σ} {m m' : Machine σ} {r : Except Halt Unit}
  {start : Machine σ} {outer : Array Frame} {f : Frame}

/-- What a call makes of the frames: it fails, a host function has returned, or a guest function
has started. In each case the caller has lost or got operands and nothing else. -/
inductive Run.Called (D : Discipline) (outer : Array Frame) (f : Frame) :
    Except Halt Unit → Array Frame → Prop
  | failed (h : Halt) (stack : Array Value) : Called D outer f (.error h)
      (outer.push { f with stack })
  | returned (stack : Array Value) : Called D outer f (.ok ()) (outer.push { f with stack })
  | started (stack : Array Value) {g : Frame} :
    g.prev = some outer.size → g.labels ≠ [] → D.frame g →
    Called D outer f (.ok ()) ((outer.push { f with stack }).push g)

/-- A call pushes the frame of a guest, or leaves its operands to a host function and comes back
with the results. -/
theorem Run.call_called (neutral : Enter.Neutral D.code enter) {addr : Nat} (own : m.Tame D.code)
    (top : m.frames = outer.push f) (run : Run.call enter addr m = some (r, m')) :
    Called D outer f r m'.frames ∧ m'.Tame D.code := by
  cases calls top run with
  | refused => exact ⟨top ▸ .failed _ f.stack, own⟩
  | guest _ found =>
    have tame := own.funcs _ (Array.mem_of_getElem? found)
    exact ⟨.started _ rfl (List.cons_ne_nil _ _) (D.callee tame _ _ _ _ _), own.of_same rfl rfl⟩
  | @host g args _ _ _ found _ run =>
    have tame := own.funcs _ (Array.mem_of_getElem? found)
    have own₁ : Machine.Tame D.code { m with frames := outer.push (f.without g.numArgs) } :=
      own.of_same rfl rfl
    rcases bind_cases run with ⟨h, ran, rfl⟩ | ⟨frame, m₂, ran, run⟩
    · obtain ⟨frames, own₂⟩ := Run.Neutral.host neutral (tame _) own₁ ran
      exact ⟨frames ▸ .failed h _, own₂⟩
    · obtain ⟨frames, own₂⟩ := Run.Neutral.host neutral (tame _) own₁ ran
      rw [handBack_eq frame frames] at run
      cases results : frame.top? frame.arity with
      | none =>
        rw [results] at run
        cases run
        exact ⟨frames ▸ .failed _ _, own₂⟩
      | some rs =>
        rw [results] at run
        cases run
        exact ⟨.returned _, own₂.of_same rfl rfl⟩

/-- The instruction that a frame of a machine is at is its last one, and leaves some results on
top. -/
def Frame.Leaves (f : Frame) (m : Machine σ) (results : Array Value) : Prop :=
  ∃ (i : Instr) (inst : Instance) (b : Activation σ),
    f.code[f.pc]? = some i ∧ m.instances[f.inst]? = some inst ∧
      i.exec inst ⟨{ f with pc := f.pc + 1 }, m.store⟩ = .ok .next b ∧
      b.frame.labels = [] ∧ b.frame.top? f.arity = some results

/-- What a step makes of the frames, if the innermost one is inside of something. -/
inductive Run.Stepped (D : Discipline) (m : Machine σ) (outer : Array Frame) (f : Frame) :
    Except Halt Unit → Array Frame → Prop
  | failed (h : Halt) (above : Array Frame) : Stepped D m outer f (.error h) (outer ++ above)
  | went {g : Frame} : f.Same g → (g.labels = [] → f.prev = none) →
    (g.labels ≠ [] → D.frame g) → Stepped D m outer f (.ok ()) (outer.push g)
  | called {g h : Frame} : f.Same g → g.labels ≠ [] → D.frame g → h.prev = some outer.size →
    h.labels ≠ [] → D.frame h → Stepped D m outer f (.ok ()) ((outer.push g).push h)
  | returned {caller : Nat} {results : Array Value} : f.prev = some caller →
    caller < outer.size → f.Leaves m results →
    Stepped D m outer f (.ok ())
      (outer.modify caller fun g => { g with stack := g.stack ++ results })

theorem Frame.size_of_top? {f : Frame} {count : Nat} {vs : Array Value}
    (top : f.top? count = some vs) : vs.size = count := by
  unfold Frame.top? at top
  split at top
  · cases top
    simp
    omega
  · cases top

/-- A frame leaves as many results as its arity says. -/
theorem Frame.Leaves.size {f : Frame} {results : Array Value} (leaves : f.Leaves m results) :
    results.size = f.arity := by
  obtain ⟨_, _, _, _, _, _, _, top⟩ := leaves
  exact size_of_top? top

/-- The end of a step: the frame goes on, or hands its results to its caller. -/
theorem Run.finish_stepped {g : Frame} (same : f.Same g) (holds : g.labels ≠ [] → D.frame g)
    (leaves : ∀ results, g.labels = [] → g.top? g.arity = some results → f.Leaves start results)
    (own : m.Tame D.code) (top : m.frames = outer.push g) (run : Run.finish m = some (r, m')) :
    Stepped D start outer f r m'.frames ∧ m'.Tame D.code := by
  cases finishes top run with
  | stays free => exact ⟨top ▸ .went same (fun empty => same.prev ▸ free empty) holds, own⟩
  | fails =>
    have nothing (h : Halt) : Stepped D start outer f (.error h) (outer ++ #[]) := .failed h #[]
    rw [Array.append_empty] at nothing
    exact ⟨nothing _, own.of_same rfl rfl⟩
  | returns linked empty results there =>
    exact ⟨.returned (same.prev ▸ linked) there (leaves _ empty results), own.of_same rfl rfl⟩

/-- A call that a step asks for, and what the step does behind it. -/
theorem Run.call_stepped (neutral : Enter.Neutral D.code enter) {addr : Nat} {g : Frame}
    (own : m.Tame D.code) (same : f.Same g) (inside : g.labels ≠ []) (holds : D.frame g)
    (top : m.frames = outer.push g)
    (run : (Run.call enter addr >>= fun _ => Run.finish) m = some (r, m')) :
    Stepped D start outer f r m'.frames ∧ m'.Tame D.code := by
  rcases bind_cases run with ⟨h, called, rfl⟩ | ⟨_, m₂, called, run⟩
  · obtain ⟨outcome, own₂⟩ := call_called neutral own top called
    generalize m'.frames = fs at outcome
    cases outcome with
    | failed h stack =>
      rw [Array.push_eq_append]
      exact ⟨.failed h _, own₂⟩
  · obtain ⟨outcome, own₂⟩ := call_called neutral own top called
    generalize frames : m₂.frames = fs at outcome
    cases outcome with
    | returned stack =>
      have same' : f.Same { g with stack } := same.trans rfl
      exact finish_stepped same' (fun _ => D.operands holds stack)
        (fun _ none => absurd none inside) own₂ frames run
    | @started stack h linked inside' holds' =>
      have same' : f.Same { g with stack } := same.trans rfl
      rw [finish_eq frames, linked] at run
      simp only [if_pos inside'] at run
      cases run
      rw [frames]
      exact ⟨.called same' inside (D.operands holds stack) linked inside' holds', own₂⟩

/-- An instruction leaves the functions alone, and touches no frame but the innermost. -/
theorem Run.instruction_tame {r : Except Halt Flow} (own : m.Tame D.code)
    (top : m.frames = outer.push f) (run : instruction m = some (r, m')) :
    (∃ g, m'.frames = outer.push g) ∧ m'.Tame D.code := by
  cases instructs top run with
  | unpaid => exact ⟨⟨f, top⟩, own⟩
  | ended paid _ | homeless paid _ =>
    rw [Machine.paying_eq paid]
    exact ⟨⟨f, top⟩, own.of_same rfl rfl⟩
  | @traps paid i inst t b pays _ _ ran | @runs paid i inst t b pays _ _ ran =>
    have funcs := Instr.exec_funcs inst i ⟨{ f with pc := f.pc + 1 }, paid.store⟩
    rw [ran] at funcs
    have fuel := Machine.paying_eq pays
    exact ⟨⟨_, rfl⟩, own.of_same (funcs.trans (by rw [fuel])) (by rw [fuel]; rfl)⟩

/-- A step of a frame: it fails, goes on, calls, or leaves. -/
theorem Run.step_stepped (neutral : Enter.Neutral D.code enter) (own : m.Tame D.code)
    (inside : f.labels ≠ []) (holds : D.frame f) (top : m.frames = outer.push f)
    (run : Run.step enter m = some (r, m')) :
    Stepped D m outer f r m'.frames ∧ m'.Tame D.code := by
  rw [step_eq_instruction] at run
  rcases bind_cases run with ⟨h, failed, rfl⟩ | ⟨flow, m₂, asked, run⟩
  · obtain ⟨⟨g, frames⟩, own'⟩ := instruction_tame own top failed
    rw [frames, Array.push_eq_append]
    exact ⟨.failed h _, own'⟩
  · have own₂ := (instruction_tame own top asked).2
    cases instructs top asked with
    | @runs m₁ i inst _ b paid here there ran =>
      have fuel := Machine.paying_eq paid
      have same : f.Same b.frame := by
        have kept := Instr.exec_same inst i ⟨{ f with pc := f.pc + 1 }, m₁.store⟩
        rwa [ran] at kept
      have stays (inside' : b.frame.labels ≠ []) : D.frame b.frame :=
        D.steps holds inside here ran inside'
      cases flow with
      | next =>
        have instances : m₁.instances = m.instances := by rw [fuel]
        have store : m₁.store = m.store := by rw [fuel]
        rw [instances] at there
        rw [store] at ran
        have leaves (results : Array Value) (none : b.frame.labels = [])
            (top : b.frame.top? b.frame.arity = some results) : f.Leaves m results :=
          ⟨i, inst, b, here, there, ran, none, same.arity ▸ top⟩
        exact finish_stepped same stays leaves own₂ rfl run
      | call addr =>
        have labels : b.frame.labels ≠ [] := by
          rw [Instr.labels_of_call ran]
          exact inside
        exact call_stepped neutral own₂ same labels (stays labels) rfl run

end WasmMachine
