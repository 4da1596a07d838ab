import WasmMachine.Run

/-!
# Taking runs apart

What a run does, as equations on the machine that it starts from: the monadic operations first,
then the parts of a step.  `Run.step_eq` says everything that a step can do to a machine whose
innermost frame is known; `Machine.paying` says what it costs.  Of a run that is given, the ways
that its instruction, its call and its end may have gone are told apart by `Run.instructs`,
`Run.calls` and `Run.finishes`, so that what is kept by a step is shown by cases on these.
-/

namespace WasmMachine

variable {σ α β : Type}

namespace Run

/-! ## Operations of the monad -/

theorem bind_apply (x : Run σ α) (k : α → Run σ β) (m : Machine σ) :
    (x >>= k) m = match x m with
      | none => none
      | some (.ok a, m) => k a m
      | some (.error h, m) => some (.error h, m) := by
  change Option.bind (x m) _ = _
  cases x m with
  | none => rfl
  | some p =>
    obtain ⟨r, m'⟩ := p
    cases r <;> rfl

@[simp] theorem pure_apply (a : α) (m : Machine σ) : (pure a : Run σ α) m = some (.ok a, m) := rfl

@[simp] theorem throw_apply (h : Halt) (m : Machine σ) :
    (throw h : Run σ α) m = some (.error h, m) := rfl

@[simp] theorem trap_apply (t : Trap) (m : Machine σ) :
    (trap t : Run σ α) m = some (.error (.trap t), m) := rfl

@[simp] theorem get_bind (k : Machine σ → Run σ β) (m : Machine σ) :
    ((get : Run σ (Machine σ)) >>= k) m = k m m := rfl

@[simp] theorem modify_apply (g : Machine σ → Machine σ) (m : Machine σ) :
    (modify g : Run σ Unit) m = some (.ok (), g m) := rfl

@[simp] theorem modify_bind (g : Machine σ → Machine σ) (k : Unit → Run σ β) (m : Machine σ) :
    ((modify g : Run σ Unit) >>= k) m = k () (g m) := rfl

/-- A sequence of runs that has a result: the first one halts, or the second one goes on from
where the first has ended. -/
theorem bind_cases {x : Run σ α} {k : α → Run σ β} {m m' : Machine σ} {r : Except Halt β}
    (run : (x >>= k) m = some (r, m')) :
    (∃ h, x m = some (.error h, m') ∧ r = .error h) ∨
      ∃ a m₁, x m = some (.ok a, m₁) ∧ k a m₁ = some (r, m') := by
  rw [bind_apply] at run
  cases head : x m with
  | none =>
    rw [head] at run
    cases run
  | some p =>
    obtain ⟨r₁, m₁⟩ := p
    rw [head] at run
    cases r₁ with
    | error h =>
      cases run
      exact .inl ⟨h, rfl, rfl⟩
    | ok a => exact .inr ⟨a, m₁, rfl, run⟩

theorem tryCatch_apply (x : Run σ α) (k : Halt → Run σ α) (m : Machine σ) :
    tryCatch x k m = match x m with
      | none => none
      | some (.ok a, m) => some (.ok a, m)
      | some (.error h, m) => k h m := by
  change Option.bind (x m) _ = _
  cases x m with
  | none => rfl
  | some p =>
    obtain ⟨r, m'⟩ := p
    cases r <;> rfl

/-- A run with a handler that has a result: the run ends well, or the handler goes on from where
it has halted. -/
theorem tryCatch_cases {x : Run σ α} {k : Halt → Run σ α} {m m' : Machine σ} {r : Except Halt α}
    (run : tryCatch x k m = some (r, m')) :
    (∃ a, x m = some (.ok a, m') ∧ r = .ok a) ∨
      ∃ h m₁, x m = some (.error h, m₁) ∧ k h m₁ = some (r, m') := by
  rw [tryCatch_apply] at run
  cases head : x m with
  | none =>
    rw [head] at run
    cases run
  | some p =>
    obtain ⟨r₁, m₁⟩ := p
    rw [head] at run
    cases r₁ with
    | ok a =>
      cases run
      exact .inl ⟨a, rfl, rfl⟩
    | error h => exact .inr ⟨h, m₁, rfl, run⟩

/-- A host program goes on with the reply to an entry. -/
theorem host_enter (enter : Enter σ) (op : Entry) (next : Except Halt op.Reply → HostProg σ)
    (m : Machine σ) : host enter (.enter op next) m = match enter op m with
      | none => none
      | some (reply, m) => host enter (next reply) m := by
  cases replied : enter op m with
  | none => simp only [host, replied]
  | some p => simp only [host, replied]

theorem host_enter_cases {enter : Enter σ} {op : Entry} {next : Except Halt op.Reply → HostProg σ}
    {m m' : Machine σ} {r : Except Halt Frame}
    (run : host enter (.enter op next) m = some (r, m')) :
    ∃ reply m₁, enter op m = some (reply, m₁) ∧ host enter (next reply) m₁ = some (r, m') := by
  rw [host_enter] at run
  cases entered : enter op m with
  | none =>
    rw [entered] at run
    cases run
  | some p =>
    rw [entered] at run
    exact ⟨p.1, p.2, rfl, run⟩

end Run

/-! ## The parts of a step -/

/-- A machine that has paid for a number of steps; none if its fuel does not last for them. -/
def Machine.paying (m : Machine σ) (count : Nat) : Option (Machine σ) :=
  match m.fuel with
  | none => some m
  | some n => if count ≤ n.toNat then some { m with fuel := some (n - .ofNat count) } else none

/-- A machine with another fuel. -/
def Machine.refuel (m : Machine σ) (fuel : Option UInt64) : Machine σ := { m with fuel := fuel }

/-- A machine whose innermost frame and store are those of an activation. -/
def Machine.within (m : Machine σ) (outer : Array Frame) (a : Activation σ) : Machine σ :=
  { m with store := a.store, frames := outer.push a.frame }

/-- A frame without its top operands. -/
def Frame.without (f : Frame) (count : Nat) : Frame :=
  { f with stack := f.stack.shrink (f.stack.size - count) }

/-- Paying changes nothing but the fuel. -/
theorem Machine.paying_eq {m m' : Machine σ} {count : Nat} (paid : m.paying count = some m') :
    m' = { m with fuel := m'.fuel } := by
  unfold Machine.paying at paid
  cases fuel : m.fuel with
  | none =>
    rw [fuel] at paid
    cases paid
    rfl
  | some n =>
    rw [fuel] at paid
    dsimp only at paid
    split at paid
    · cases paid
      rfl
    · cases paid

namespace Run

theorem charge_eq (m : Machine σ) : charge m = match m.paying 1 with
    | none => some (.error (.trap .fuelExhausted), m)
    | some m => some (.ok (), m) := by
  unfold charge Machine.paying
  rw [get_bind]
  cases m.fuel with
  | none => rfl
  | some n =>
    by_cases zero : n = 0
    · subst zero
      rfl
    · have positive : 1 ≤ n.toNat := by
        have : n.toNat ≠ 0 := fun h => zero (UInt64.toNat_inj.mp h)
        omega
      simp only [zero, if_false, positive, if_true]
      rfl

theorem fetch_eq (m : Machine σ) : fetch m = match m.frames.back? with
    | none => some (.error (.trap .noFrame), m)
    | some f => match f.code[f.pc]? with
      | none => some (.error (.trap (.codeEnd f.pc)), m)
      | some i => some (.ok i, m) := by
  unfold fetch
  rw [get_bind]
  cases m.frames.back? with
  | none => rfl
  | some f =>
    dsimp only
    cases f.code[f.pc]? <;> rfl

theorem currentInstance_eq (m : Machine σ) : currentInstance m = match m.frames.back? with
    | none => some (.error (.trap .noFrame), m)
    | some f => match m.instances[f.inst]? with
      | none => some (.error (.trap (.noInstance f.inst)), m)
      | some inst => some (.ok inst, m) := by
  unfold currentInstance
  rw [get_bind]
  cases m.frames.back? with
  | none => rfl
  | some f =>
    dsimp only
    cases m.instances[f.inst]? <;> rfl

theorem dispatch_eq (i : Instr) {m : Machine σ} {outer : Array Frame} {f : Frame}
    (top : m.frames = outer.push f) : dispatch i m = match m.instances[f.inst]? with
      | none => some (.error (.trap (.noInstance f.inst)), m)
      | some inst => match i.exec inst ⟨{ f with pc := f.pc + 1 }, m.store⟩ with
        | .error t b => some (.error (.trap t), m.within outer b)
        | .ok flow b => some (.ok flow, m.within outer b) := by
  unfold dispatch
  rw [bind_apply, currentInstance_eq, top, Array.back?_push]
  dsimp only
  cases m.instances[f.inst]? with
  | none => rfl
  | some inst =>
    dsimp only
    have advanced : (do FrameM.advance; i.exec inst : Act σ Flow) ⟨f, m.store⟩
        = i.exec inst ⟨{ f with pc := f.pc + 1 }, m.store⟩ := rfl
    rw [act_push top, advanced]
    cases i.exec inst ⟨{ f with pc := f.pc + 1 }, m.store⟩ <;> rfl

theorem dispatch_within (i : Instr) {m : Machine σ} {outer : Array Frame} {f : Frame}
    {inst : Instance} (top : m.frames = outer.push f) (found : m.instances[f.inst]? = some inst) :
    dispatch i m = match i.exec inst ⟨{ f with pc := f.pc + 1 }, m.store⟩ with
      | .error t b => some (.error (.trap t), m.within outer b)
      | .ok flow b => some (.ok flow, m.within outer b) := by
  rw [dispatch_eq i top, found]

/-- A frame that is done hands its results on; any other one stays as it is. -/
theorem finish_eq {m : Machine σ} {outer : Array Frame} {f : Frame}
    (top : m.frames = outer.push f) : finish m = match f.prev with
      | none => some (.ok (), m)
      | some caller =>
        if f.labels ≠ [] then some (.ok (), m)
        else match f.top? f.arity with
          | none => some (.error (.trap (.resultCount f.stack.size f.arity)),
              { m with frames := outer })
          | some rs =>
            if caller < outer.size then
              some (.ok (), { m with
                frames := outer.modify caller fun g => { g with stack := g.stack ++ rs } })
            else some (.error (.trap (.callerGone caller)), { m with frames := outer }) := by
  unfold finish
  rw [get_bind, top, Array.back?_push]
  dsimp only
  cases f.prev with
  | none => rfl
  | some caller =>
    dsimp only
    cases labels : f.labels with
    | cons l ls => simp [Frame.hasLabel, labels]
    | nil =>
      simp only [Frame.hasLabel, labels, List.isEmpty_nil, Bool.not_true, Bool.false_eq_true,
        if_false, modify_bind, ne_eq, not_true_eq_false, top, Array.pop_push]
      cases f.top? f.arity with
      | none => rfl
      | some rs =>
        simp only [pushOperands, get_bind]
        by_cases there : caller < outer.size <;> simp [there]

/-- The ways in which a step ends, where the innermost frame is known. A frame that has a
caller goes when it is out of all constructs, and hands its results on if they and the
caller are there. -/
inductive Finishes (m : Machine σ) (outer : Array Frame) (f : Frame) :
    Except Halt Unit → Machine σ → Prop
  | stays : (f.labels = [] → f.prev = none) → Finishes m outer f (.ok ()) m
  | fails {caller : Nat} (t : Trap) : f.prev = some caller →
    Finishes m outer f (.error (.trap t)) { m with frames := outer }
  | returns {caller : Nat} {rs : Array Value} : f.prev = some caller → f.labels = [] →
    f.top? f.arity = some rs → caller < outer.size → Finishes m outer f (.ok ()) { m with
      frames := outer.modify caller fun g => { g with stack := g.stack ++ rs } }

theorem finishes {m m' : Machine σ} {outer : Array Frame} {f : Frame} {r : Except Halt Unit}
    (top : m.frames = outer.push f) (run : finish m = some (r, m')) :
    Finishes m outer f r m' := by
  rw [finish_eq top] at run
  split at run
  · next free =>
    cases run
    exact .stays fun _ => free
  · next caller linked =>
    split at run
    · next inside =>
      cases run
      exact .stays fun empty => absurd empty inside
    · next outside =>
      split at run
      · cases run
        exact .fails _ linked
      · next rs results =>
        split at run
        · next there =>
          cases run
          exact .returns linked (Classical.not_not.mp outside) results there
        · cases run
          exact .fails _ linked

theorem store_eq (x : StoreM σ α) (m : Machine σ) : store x m = match x m.store with
    | .ok a s => some (.ok a, { m with store := s })
    | .error t s => some (.error (.trap t), { m with store := s }) := by
  obtain ⟨store, instances, names, frames, hostFuncs, fuel, config, world⟩ := m
  dsimp only [Run.store, Machine.onStore]
  cases x store <;> rfl

theorem getFunc_eq (addr : Nat) (m : Machine σ) :
    store (StoreM.getFunc addr) m = match m.store.funcs[addr]? with
      | none => some (.error (.trap (.address .func addr)), m)
      | some f => some (.ok f, m) := by
  rw [store_eq]
  dsimp only [StoreM.getFunc, StoreM.gets]
  cases m.store.funcs[addr]? <;> rfl

theorem popAll_eq (count : Nat) {m : Machine σ} {outer : Array Frame} {f : Frame}
    (top : m.frames = outer.push f) : act (FrameM.popAll count : FrameM (Array Value)) m =
      match f.top? count with
      | none => some (.error (.trap .stackUnderflow), m)
      | some args => some (.ok args, { m with frames := outer.push (f.without count) }) := by
  rw [act_push top]
  have popped : (liftM (FrameM.popAll count) : Act σ (Array Value)) ⟨f, m.store⟩
      = match f.top? count with
        | none => .error .stackUnderflow ⟨f, m.store⟩
        | some args => .ok args ⟨f.without count, m.store⟩ := by
    change Act.onFrame (FrameM.popAll count) ⟨f, m.store⟩ = _
    dsimp only [Act.onFrame, FrameM.popAll]
    cases f.top? count <;> rfl
  rw [popped]
  cases f.top? count with
  | none =>
    dsimp only
    rw [← top]
  | some args => rfl

/-- The frame that a call of a guest function starts with. -/
def callee (addr : Nat) (g : ModuleFunc) (args : Array Value) (caller : Nat) : Frame :=
  .new (some addr) g.code g.inst (args ++ Array.replicate g.locals.length Value.null)
    g.type.results.length (some caller) ⟨g.type.results.length, g.code.size, 0⟩

/-- The frame that the program of a host function starts with. -/
def hostFrame (addr : Nat) (g : HostFunc σ) (inst : Nat) (args : Array Value) (caller : Nat) :
    Frame :=
  .new (some addr) #[] inst args g.arity (some caller) ⟨g.arity, 0, 0⟩

/-- The end of a call of a host function: its results go to the caller. -/
def handBack (caller : Nat) (frame : Frame) : Run σ Unit :=
  match frame.top? frame.arity with
  | none => trap .hostResultCount
  | some results => pushOperands caller results

/-- What a call does to a machine whose innermost frame is known. -/
theorem call_eq (enter : Enter σ) (addr : Nat) {m : Machine σ} {outer : Array Frame} {f : Frame}
    (top : m.frames = outer.push f) : call enter addr m =
      if m.config.maxCallDepth ≤ outer.size + 1 then some (.error (.trap .callDepth), m)
      else match m.store.funcs[addr]? with
        | none => some (.error (.trap (.address .func addr)), m)
        | some (.module g) => match f.top? g.type.params.length with
          | none => some (.error (.trap .stackUnderflow), m)
          | some args =>
            let caller := f.without g.type.params.length
            some (.ok (), { m with
              frames := (outer.push caller).push (callee addr g args outer.size) })
        | some (.host g) => match f.top? g.numArgs with
          | none => some (.error (.trap .stackUnderflow), m)
          | some args =>
            (host enter (g.body (hostFrame addr g f.inst args outer.size)) >>= handBack
              outer.size)
              { m with frames := outer.push (f.without g.numArgs) } := by
  have size : m.frames.size = outer.size + 1 := by rw [top, Array.size_push]
  have nonempty : m.frames.isEmpty = false := by rw [top]; simp
  unfold call
  rw [get_bind, get_bind, size]
  by_cases deep : m.config.maxCallDepth ≤ outer.size + 1
  · simp only [deep, if_true]
    rfl
  · simp only [deep, if_false]
    rw [bind_apply, getFunc_eq]
    cases m.store.funcs[addr]? with
    | none => rfl
    | some func =>
      dsimp only
      rw [get_bind, nonempty, if_neg Bool.false_ne_true, get_bind, size, Nat.add_sub_cancel]
      cases func with
      | module g =>
        dsimp only
        rw [bind_apply, popAll_eq _ top]
        cases f.top? g.type.params.length <;> rfl
      | host g =>
        dsimp only
        rw [bind_apply, popAll_eq _ top]
        cases f.top? g.numArgs with
        | none => rfl
        | some args =>
          have caller : (outer.push (f.without g.numArgs))[outer.size]?
              = some (f.without g.numArgs) := Array.getElem?_push_size
          dsimp only
          rw [get_bind, caller]
          rfl

/-- The ways in which a call can go, where the innermost frame is known. It traps before it does
anything, or there is room for it: a guest function is started, or the program of a host function
runs to its end. -/
inductive Calls (enter : Enter σ) (addr : Nat) (m : Machine σ) (outer : Array Frame) (f : Frame) :
    Except Halt Unit → Machine σ → Prop
  | refused (t : Trap) : Calls enter addr m outer f (.error (.trap t)) m
  | guest {g : ModuleFunc} {args : Array Value} : outer.size + 1 < m.config.maxCallDepth →
    m.store.funcs[addr]? = some (.module g) → f.top? g.type.params.length = some args →
    Calls enter addr m outer f (.ok ()) { m with
      frames :=
        (outer.push (f.without g.type.params.length)).push (callee addr g args outer.size) }
  | host {g : HostFunc σ} {args : Array Value} {r : Except Halt Unit} {m' : Machine σ} :
    outer.size + 1 < m.config.maxCallDepth → m.store.funcs[addr]? = some (.host g) →
    f.top? g.numArgs = some args →
    (host enter (g.body (hostFrame addr g f.inst args outer.size)) >>= handBack outer.size)
      { m with frames := outer.push (f.without g.numArgs) } = some (r, m') →
    Calls enter addr m outer f r m'

theorem calls {enter : Enter σ} {addr : Nat} {m m' : Machine σ} {outer : Array Frame} {f : Frame}
    {r : Except Halt Unit} (top : m.frames = outer.push f)
    (run : call enter addr m = some (r, m')) :
    Calls enter addr m outer f r m' := by
  rw [call_eq enter addr top] at run
  split at run
  · cases run
    exact .refused _
  · next shallow =>
    have room := Nat.lt_of_not_le shallow
    split at run
    · cases run
      exact .refused _
    · next g stored =>
      split at run
      · cases run
        exact .refused _
      · next args popped =>
        cases run
        exact .guest room stored popped
    · next g stored =>
      split at run
      · cases run
        exact .refused _
      · next args popped => exact .host room stored popped run

/-- A call on a machine without frames traps. -/
theorem call_empty (enter : Enter σ) (addr : Nat) {m : Machine σ} (empty : m.frames = #[]) :
    ∃ t, call enter addr m = some (.error (.trap t), m) := by
  unfold call
  rw [get_bind, get_bind]
  by_cases deep : m.config.maxCallDepth ≤ m.frames.size
  · simp only [deep, if_true]
    exact ⟨.callDepth, rfl⟩
  · simp only [deep, if_false]
    rw [bind_apply, getFunc_eq]
    cases m.store.funcs[addr]? with
    | none => exact ⟨_, rfl⟩
    | some func =>
      dsimp only
      rw [get_bind, empty]
      exact ⟨.noCaller, rfl⟩

/-- The last of some frames, changed. -/
theorem modify_push_size {γ : Type} (xs : Array γ) (x : γ) (g : γ → γ) :
    (xs.push x).modify xs.size g = xs.push (g x) := by
  apply Array.ext_getElem?
  intro i
  rw [Array.getElem?_modify, Array.getElem?_push, Array.getElem?_push]
  by_cases last : i = xs.size
  · simp [last]
  · simp [last, Ne.symm last]

theorem handBack_eq (frame : Frame) {m : Machine σ} {outer : Array Frame} {f : Frame}
    (top : m.frames = outer.push f) :
    handBack outer.size frame m = match frame.top? frame.arity with
      | none => some (.error (.trap .hostResultCount), m)
      | some rs =>
        some (.ok (), { m with frames := outer.push { f with stack := f.stack ++ rs } }) := by
  unfold handBack
  cases frame.top? frame.arity with
  | none => rfl
  | some rs =>
    dsimp only
    rw [pushOperands, get_bind, top, Array.size_push, if_pos (Nat.lt_succ_self _), modify_apply,
      top, modify_push_size]

/-- The part of a step that runs an instruction: it is paid for, read and carried out, and a call
that it asks for has not started yet. -/
def instruction : Run σ Flow := do
  charge
  dispatch (← fetch)

theorem step_eq_instruction (enter : Enter σ) : step enter = (do
    match ← instruction with
    | .next => pure ()
    | .call addr => call enter addr
    finish) :=
  ((bind_assoc charge _ _).trans
    (congrArg (charge >>= ·) (funext fun _ => bind_assoc fetch dispatch _))).symm

/-- What the instruction of a step does to a machine whose innermost frame is known. -/
theorem instruction_eq {m : Machine σ} {outer : Array Frame} {f : Frame}
    (top : m.frames = outer.push f) : instruction m = match m.paying 1 with
      | none => some (.error (.trap .fuelExhausted), m)
      | some m => match f.code[f.pc]? with
        | none => some (.error (.trap (.codeEnd f.pc)), m)
        | some i => match m.instances[f.inst]? with
          | none => some (.error (.trap (.noInstance f.inst)), m)
          | some inst => match i.exec inst ⟨{ f with pc := f.pc + 1 }, m.store⟩ with
            | .error t b => some (.error (.trap t), m.within outer b)
            | .ok flow b => some (.ok flow, m.within outer b) := by
  unfold instruction
  rw [bind_apply, charge_eq]
  cases paid : m.paying 1 with
  | none => rfl
  | some m' =>
    have top' : m'.frames = outer.push f := by rw [Machine.paying_eq paid, top]
    dsimp only
    rw [bind_apply, fetch_eq, top', Array.back?_push]
    dsimp only
    cases f.code[f.pc]? with
    | none => rfl
    | some i => exact dispatch_eq i top'

/-- The ways in which the instruction of a step can go, where the innermost frame is known.
Nothing but an instruction that is paid for, that is there, and whose instance is there is carried
out. -/
inductive Instructs (m : Machine σ) (outer : Array Frame) (f : Frame) :
    Except Halt Flow → Machine σ → Prop
  | unpaid : Instructs m outer f (.error (.trap .fuelExhausted)) m
  | ended {paid : Machine σ} : m.paying 1 = some paid → f.code[f.pc]? = none →
    Instructs m outer f (.error (.trap (.codeEnd f.pc))) paid
  | homeless {paid : Machine σ} : m.paying 1 = some paid → paid.instances[f.inst]? = none →
    Instructs m outer f (.error (.trap (.noInstance f.inst))) paid
  | traps {paid : Machine σ} {i : Instr} {inst : Instance} {t : Trap} {b : Activation σ} :
    m.paying 1 = some paid → f.code[f.pc]? = some i → paid.instances[f.inst]? = some inst →
    i.exec inst ⟨{ f with pc := f.pc + 1 }, paid.store⟩ = .error t b →
    Instructs m outer f (.error (.trap t)) (paid.within outer b)
  | runs {paid : Machine σ} {i : Instr} {inst : Instance} {flow : Flow} {b : Activation σ} :
    m.paying 1 = some paid → f.code[f.pc]? = some i → paid.instances[f.inst]? = some inst →
    i.exec inst ⟨{ f with pc := f.pc + 1 }, paid.store⟩ = .ok flow b →
    Instructs m outer f (.ok flow) (paid.within outer b)

theorem instructs {m m' : Machine σ} {outer : Array Frame} {f : Frame} {r : Except Halt Flow}
    (top : m.frames = outer.push f) (run : instruction m = some (r, m')) :
    Instructs m outer f r m' := by
  rw [instruction_eq top] at run
  cases paid : m.paying 1 with
  | none =>
    rw [paid] at run
    cases run
    exact .unpaid
  | some m₁ =>
    rw [paid] at run
    dsimp only at run
    cases here : f.code[f.pc]? with
    | none =>
      rw [here] at run
      cases run
      exact .ended paid here
    | some i =>
      rw [here] at run
      dsimp only at run
      cases there : m₁.instances[f.inst]? with
      | none =>
        rw [there] at run
        cases run
        exact .homeless paid there
      | some inst =>
        rw [there] at run
        dsimp only at run
        cases ran : i.exec inst ⟨{ f with pc := f.pc + 1 }, m₁.store⟩ with
        | error t b =>
          rw [ran] at run
          cases run
          exact .traps paid here there ran
        | ok flow b =>
          rw [ran] at run
          cases run
          exact .runs paid here there ran

/-- What a machine does when its innermost frame, the one above `outer`, has run an
instruction. -/
def resume (enter : Enter σ) (outer : Array Frame) (r : EStateM.Result Trap (Activation σ) Flow) :
    Run σ Unit := fun m =>
  match r with
  | .error t b => some (.error (.trap t), m.within outer b)
  | .ok .next b => finish (m.within outer b)
  | .ok (.call addr) b => (call enter addr >>= fun _ => finish) (m.within outer b)

/-- What a step does to a machine whose innermost frame is known. -/
theorem step_eq (enter : Enter σ) {m : Machine σ} {outer : Array Frame} {f : Frame}
    (top : m.frames = outer.push f) : step enter m = match m.paying 1 with
      | none => some (.error (.trap .fuelExhausted), m)
      | some m => match f.code[f.pc]? with
        | none => some (.error (.trap (.codeEnd f.pc)), m)
        | some i => match m.instances[f.inst]? with
          | none => some (.error (.trap (.noInstance f.inst)), m)
          | some inst =>
            resume enter outer (i.exec inst ⟨{ f with pc := f.pc + 1 }, m.store⟩) m := by
  rw [step_eq_instruction, bind_apply, instruction_eq top]
  cases m.paying 1 with
  | none => rfl
  | some m' =>
    dsimp only
    cases f.code[f.pc]? with
    | none => rfl
    | some i =>
      dsimp only
      cases m'.instances[f.inst]? with
      | none => rfl
      | some inst =>
        dsimp only [resume]
        cases i.exec inst ⟨{ f with pc := f.pc + 1 }, m'.store⟩ with
        | error t b => rfl
        | ok flow b => cases flow <;> rfl

theorem stepWhile_succ (enter : Enter σ) (more : Machine σ → Bool) (bound : Nat) (m : Machine σ) :
    stepWhile enter more (bound + 1) m =
      if more m then (step enter >>= fun _ => stepWhile enter more bound) m
      else some (.ok (), m) := by
  rw [stepWhile, get_bind]
  cases more m <;> rfl

end Run

/-! ## Fuel -/

theorem Machine.paying_eq_none {m : Machine σ} (poor : m.paying 1 = none) : m.fuel = some 0 := by
  unfold Machine.paying at poor
  cases fuel : m.fuel with
  | none =>
    rw [fuel] at poor
    cases poor
  | some n =>
    rw [fuel] at poor
    dsimp only at poor
    split at poor
    · cases poor
    · have zero : n.toNat = 0 := by omega
      exact congrArg some (UInt64.toNat_inj.mp zero)

theorem Machine.paying_zero (m : Machine σ) : m.paying 0 = some m := by
  unfold Machine.paying
  cases fuel : m.fuel with
  | none => rfl
  | some n => simp [← fuel]

/-- Steps are paid for one after the other. -/
theorem Machine.paying_add (m : Machine σ) (first second : Nat) :
    m.paying (first + second) = (m.paying first).bind (·.paying second) := by
  unfold Machine.paying
  cases fuel : m.fuel with
  | none => simp [fuel]
  | some n =>
    by_cases one : first ≤ n.toNat
    · have exact_ : (UInt64.ofNat first).toNat = first :=
        UInt64.toNat_ofNat_of_lt' (Nat.lt_of_le_of_lt one n.toNat_lt)
      have after : (n - .ofNat first).toNat = n.toNat - first := by
        rw [UInt64.toNat_sub_of_le n _ (UInt64.le_iff_toNat_le.mpr (by omega)), exact_]
      by_cases all : first + second ≤ n.toNat
      · have rest : second ≤ n.toNat - first := by omega
        have sum : n - (.ofNat first + .ofNat second) = n - .ofNat first - .ofNat second := by
          grind
        simp [one, all, after, rest, sum]
      · have rest : ¬ second ≤ n.toNat - first := by omega
        simp [one, all, after, rest]
    · have all : ¬ first + second ≤ n.toNat := by omega
      simp [one, all]

end WasmMachine
