import WasmMachine.Machine

/-!
# Running code

`step` runs one instruction of the innermost frame; a call of a guest function starts a new frame
and a call of a host function runs its program.  `invoke` calls a function from outside and steps
until it has returned.

Guest code need not end, and a host function can enter the machine again to any depth.  So a run
has a bound: a result is `none` exactly if the bound was too small, and a result that is there
does not depend on it.  An `Enter` carries out entries within some bound, which is how a host
program gets back into the machine; `Machine.enter` ties the knot.
-/

namespace WasmMachine

/-- A computation on a machine: none if its bound was too small, and else a value or a halt,
together with the machine that it leaves. -/
abbrev Run (σ α : Type) := ExceptT Halt (StateT (Machine σ) Option) α

/-- A way to carry out entries. -/
abbrev Enter (σ : Type) := (op : Entry) → Run σ op.Reply

namespace Run

variable {σ α : Type}

/-- The bound is too small. -/
def outOfBound : Run σ α := fun _ => none

/-- Stop with a trap. -/
def trap (t : Trap) : Run σ α := throw (.trap t)

/-- Use a result that was computed otherwise. -/
def ofExcept : Except Trap α → Run σ α
  | .ok a => pure a
  | .error t => trap t

/-- Act on the innermost frame and the store. The frame is taken off meanwhile, so that it is
changed in place. -/
def act (a : Act σ α) : Run σ α := fun m =>
  let ⟨store, instances, names, frames, hostFuncs, fuel, config, world⟩ := m
  if h : 0 < frames.size then
    let frame := frames.back
    let outer := frames.pop
    match a ⟨frame, store⟩ with
    | .ok x ⟨frame, store⟩ =>
      some (.ok x, ⟨store, instances, names, outer.push frame, hostFuncs, fuel, config, world⟩)
    | .error t ⟨frame, store⟩ =>
      some (.error (.trap t),
        ⟨store, instances, names, outer.push frame, hostFuncs, fuel, config, world⟩)
  else
    some (.error (.trap .noFrame),
      ⟨store, instances, names, frames, hostFuncs, fuel, config, world⟩)

/-- An act is applied to the last frame; the frames below it are not touched. -/
theorem act_push {a : Act σ α} {m : Machine σ} {outer : Array Frame} {f : Frame}
    (h : m.frames = outer.push f) :
    act a m = match a ⟨f, m.store⟩ with
      | .ok x ⟨f, s⟩ => some (.ok x, { m with store := s, frames := outer.push f })
      | .error t ⟨f, s⟩ =>
        some (.error (.trap t), { m with store := s, frames := outer.push f }) := by
  obtain ⟨store, instances, names, frames, hostFuncs, fuel, config, world⟩ := m
  subst h
  have hback : (outer.push f).back (by simp) = f := by simp [Array.back]
  simp only [act, Array.size_push, Nat.zero_lt_succ, dite_true, Array.pop_push]
  rw [hback]

/-- Without frames an act traps. -/
theorem act_empty {a : Act σ α} {m : Machine σ} (h : m.frames = #[]) :
    act a m = some (.error (.trap .noFrame), m) := by
  obtain ⟨store, instances, names, frames, hostFuncs, fuel, config, world⟩ := m
  subst h
  rfl

/-- Act on the store alone. -/
def store (a : StoreM σ α) : Run σ α := fun m =>
  match m.onStore a with
  | (.ok x, m) => some (.ok x, m)
  | (.error t, m) => some (.error (.trap t), m)

/-- Cut the frames back to a number of them. -/
def truncate (depth : Nat) : Run σ Unit :=
  modify fun m => { m with frames := m.frames.shrink depth }

/-- Add an innermost frame. -/
def pushFrame (f : Frame) : Run σ Unit := modify fun m => { m with frames := m.frames.push f }

/-- Take the innermost frame off. -/
def popFrame? : Run σ (Option Frame) := fun m =>
  some (.ok m.frames.back?, { m with frames := m.frames.pop })

/-- Push operands onto the frame at a position, which has to be there. -/
def pushOperands (idx : Nat) (vs : Array Value) : Run σ Unit := do
  if idx < (← get).frames.size then
    modify fun m => { m with
      frames := m.frames.modify idx fun f => { f with stack := f.stack ++ vs } }
  else
    trap (.callerGone idx)

/-! ## Host programs -/

/-- Run a host program. -/
def host (enter : Enter σ) : HostProg σ → Run σ Frame
  | .done frame => pure frame
  | .halt reason => throw reason
  | .access op next => fun m =>
    let (reply, m) := op.perform m
    host enter (next reply) m
  | .enter op next => fun m =>
    match enter op m with
    | none => none
    | some (reply, m) => host enter (next reply) m
  | .register f next => fun m => host enter next (m.register f)
  | .getState next => fun m => host enter (next m.world) m
  | .setState s next => fun m => host enter next { m with world := s }

/-! ## Steps -/

/-- Pay for one step. -/
def charge : Run σ Unit := do
  match (← get).fuel with
  | none => pure ()
  | some n =>
    if n = 0 then trap .fuelExhausted
    else modify fun m => { m with fuel := some (n - 1) }

/-- The instruction that the innermost frame is at. -/
def fetch : Run σ Instr := do
  match (← get).frames.back? with
  | none => trap .noFrame
  | some f =>
    match f.code[f.pc]? with
    | none => trap (.codeEnd f.pc)
    | some i => return i

/-- The instance that the innermost frame runs in. -/
def currentInstance : Run σ Instance := do
  let m ← get
  match m.frames.back? with
  | none => trap .noFrame
  | some f =>
    match m.instances[f.inst]? with
    | none => trap (.noInstance f.inst)
    | some inst => return inst

/-- Run one instruction but for the call that it may ask for. -/
def dispatch (i : Instr) : Run σ Flow := do
  let inst ← currentInstance
  act do
    FrameM.advance
    i.exec inst

/-- Start a call from the innermost frame. A guest function takes its arguments into a frame of
its own; a host function runs to its end. -/
def call (enter : Enter σ) (addr : Nat) : Run σ Unit := do
  if (← get).config.maxCallDepth ≤ (← get).frames.size then
    trap .callDepth
  let func ← store (StoreM.getFunc addr)
  if (← get).frames.isEmpty then
    trap .noCaller
  let caller := (← get).frames.size - 1
  match func with
  | .module f =>
    let args ← act (FrameM.popAll f.type.params.length)
    let locals := args ++ Array.replicate f.locals.length Value.null
    let arity := f.type.results.length
    pushFrame (.new (some addr) f.code f.inst locals arity (some caller) ⟨arity, f.code.size, 0⟩)
  | .host f =>
    let args ← act (FrameM.popAll f.numArgs)
    let inst := ((← get).frames[caller]?.map (·.inst)).getD 0
    let frame ← host enter <| f.body <|
      .new (some addr) #[] inst args f.arity (some caller) ⟨f.arity, 0, 0⟩
    match frame.top? frame.arity with
    | none => trap .hostResultCount
    | some results => pushOperands caller results

/-- If the innermost frame has left its last construct and has a caller, take it off and hand its
results to the caller. -/
def finish : Run σ Unit := do
  match (← get).frames.back? with
  | none => pure ()
  | some f =>
    match f.prev with
    | none => pure ()
    | some caller =>
      if f.hasLabel then
        pure ()
      else
        modify fun m => { m with frames := m.frames.pop }
        match f.top? f.arity with
        | none => trap (.resultCount f.stack.size f.arity)
        | some results => pushOperands caller results

/-- Run one instruction of the innermost frame. -/
def step (enter : Enter σ) : Run σ Unit := do
  charge
  match ← dispatch (← fetch) with
  | .next => pure ()
  | .call addr => call enter addr
  finish

/-- Step as long as a condition holds. -/
def stepWhile (enter : Enter σ) (more : Machine σ → Bool) : Nat → Run σ Unit
  | 0 => outOfBound
  | bound + 1 => do
    if more (← get) then
      step enter
      stepWhile enter more bound
    else
      pure ()

/-- Step until the number of frames is down to `depth`. -/
def execute (enter : Enter σ) (bound depth : Nat) : Run σ Unit :=
  stepWhile enter (fun m => depth < m.frames.size) bound

/-! ## Calls from outside -/

/-- Run something, and cut the frames back to a number of them if it halts. -/
def restoring (depth : Nat) (x : Run σ α) : Run σ α :=
  tryCatch x fun h => do
    truncate depth
    throw h

/-- Call a function and run it to its end. A halt leaves the frames as they were. -/
def invoke (enter : Enter σ) (bound addr : Nat) (args : Array Value) : Run σ (Array Value) := do
  let func ← store (StoreM.getFunc addr)
  let expected := func.type.params.length
  if args.size ≠ expected then
    trap (.argumentCount expected args.size)
  let frames := (← get).frames
  let inst := (func.inst? <|> frames.back?.map (·.inst)).getD 0
  let depth := frames.size
  pushFrame (.entry inst args)
  restoring depth do
    call enter addr
    execute enter bound (depth + 1)
  match ← popFrame? with
  | none => trap .entryGone
  | some entry => return entry.stack

/-- Evaluate a constant expression in an instance: it runs as the body of a function without
parameters and has to leave one value. -/
def constant (enter : Enter σ) (bound inst : Nat) (code : Code) : Run σ Value := do
  let depth := (← get).frames.size
  pushFrame (.new none code inst #[] 1 none ⟨0, code.size, 0⟩)
  restoring depth do
    stepWhile enter (fun m => (m.frames[depth]?.map (·.hasLabel)).getD false) bound
  truncate (depth + 1)
  match ← popFrame? with
  | none => trap .constantGone
  | some frame =>
    match frame.stack.toList with
    | [v] => return v
    | _ => trap .constantResultCount

/-- Call a function from inside a host function, and catch a long jump out of it: the frames and
the operands of the innermost of them go back to what they were. -/
def trampoline (enter : Enter σ) (bound addr : Nat) (args : Array Value) : Run σ Trampolined := do
  let depth := (← get).frames.size
  let level := (← get).frames.back?.map (·.stack.size)
  tryCatch (.returned <$> invoke enter bound addr args) fun
    | .longjmp => do
      truncate depth
      if let some level := level then
        modify fun m => { m with
          frames := m.frames.modify (m.frames.size - 1) fun f =>
            { f with stack := f.stack.shrink level } }
      return .unwound
    | h => throw h

/-- Call an exported function from outside. An exit is an outcome; a long jump that nothing has
caught is a trap. -/
def callExport (enter : Enter σ) (bound inst : Nat) (name : String) (args : Array Value) :
    Run σ Outcome := do
  match (← get).exported? inst name with
  | some (.func addr) =>
    tryCatch (.returned <$> invoke enter bound addr args) fun
      | .exit code => return .exited code
      | .longjmp => trap .escapedLongjmp
      | h => throw h
  | _ => trap (.noExport name)

end Run

end WasmMachine
