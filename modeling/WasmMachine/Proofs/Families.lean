import WasmMachine.Proofs.Neutral

/-!
# Families of runs

Many properties of runs are put together as the runs are: if the parts of a run have it, so has
the run.  A property of that kind is stated here once as closed (`Run.Closed`, and
`Run.ClosedOnFrames` for what calls and steps do besides), and the definitions that run are walked
through once.  What holds of them is then read off: of instantiations by `Run.Closed.instantiate`,
of calls, steps and entries by the lemmas of `Run.ClosedOnFrames`.

The properties are of families, with one run for each index, so that they can also compare runs
that differ in their bound.
-/

namespace WasmMachine

variable {σ ι α β : Type}

/-- A run that neither reads the fuel of its machine nor changes it. -/
def Run.Blind (x : Run σ α) : Prop :=
  ∀ m fuel, x (m.refuel fuel) = (x m).map fun (r, m') => (r, m'.refuel fuel)

/-- A run that ends with a trap of a given wording, whatever it does before, and never looks at
the fuel. -/
structure Run.Returns (x : Run σ α) (t : Trap) : Prop where
  blind : x.Blind
  traps : ∀ m, ∃ t' m', x m = some (.error (.trap t'), m') ∧ t'.message = t.message

/-- A property of families of runs that is kept when runs follow each other, and that operations
of the store have. Nothing is looked up on the machine but its instances. -/
structure Run.ClosedOnStore (Φ : ∀ α : Type, (ι → Run σ α) → Prop) : Prop where
  pure {α : Type} (a : α) : Φ α fun _ => Pure.pure a
  throw {α : Type} (h : Halt) : Φ α fun _ => MonadExcept.throw h
  bind {α β : Type} {x : ι → Run σ α} {k : α → ι → Run σ β} :
    Φ α x → (∀ a, Φ β (k a)) → Φ β fun i => x i >>= fun a => k a i
  instanceAt (inst : Nat) : Φ Instance fun _ => Run.instanceAt inst
  op {α : Type} {x : StoreM σ α} : StoreM.Op x → Φ α fun _ => Run.store x

/-- A property of that kind that is kept by whatever is looked up on the machine but its fuel. -/
structure Run.Closed (Φ : ∀ α : Type, (ι → Run σ α) → Prop) :
    Prop extends Run.ClosedOnStore Φ where
  look {α : Type} {k : Machine σ → ι → Run σ α} :
    (∀ m fuel i, k (m.refuel fuel) i = k m i) → (∀ m, Φ α (k m)) →
      Φ α fun i => MonadState.get >>= fun m => k m i
  instanceAt inst := look (fun _ _ _ => rfl) fun m => match m.instances[inst]? with
    | none => throw _
    | some i => pure i

/-- Frames each of which was there before, at another position of its code maybe and with other
operands, or belongs to no function. -/
def Frame.Follow (fs fs' : Array Frame) : Prop :=
  ∀ f ∈ fs', f.func = none ∨ ∃ f₀ ∈ fs, f₀.Same f

/-- A change of the frames that starts no function. -/
def Run.Moves (g : Array Frame → Array Frame) : Prop := ∀ fs, Frame.Follow fs (g fs)

/-- A closed property that is also kept by what calls and steps do to frames, by the catching of
halts, and by paying. The functions that are looked up have a property of their own. -/
structure Run.ClosedOnFrames (Good : StoreFunc σ → Prop)
    (Φ : ∀ α : Type, (ι → Run σ α) → Prop) : Prop extends Run.Closed Φ where
  func {α : Type} {k : StoreFunc σ → ι → Run σ α} (addr : Nat) :
    (∀ f, Good f → Φ α (k f)) → Φ α fun i => Run.store (StoreM.getFunc addr) >>= fun f => k f i
  charge : Φ Unit fun _ => Run.charge
  dispatch (i : Instr) : Φ Flow fun _ => Run.dispatch i
  popAll (count : Nat) : Φ (Array Value) fun _ => Run.act (FrameM.popAll count)
  frames {g : Array Frame → Array Frame} :
    Run.Moves g → Φ Unit fun _ => modify fun m => { m with frames := g m.frames }
  popFrame : Φ (Option Frame) fun _ => Run.popFrame?
  catching {α : Type} {x : ι → Run σ α} {k : Halt → ι → Run σ α} : Φ α x → (∀ h, Φ α (k h)) →
    (∀ t i, (k (.trap t) i).Returns t) → Φ α fun i => MonadExcept.tryCatch (x i) fun h => k h i

namespace Run

variable {Φ : ∀ α : Type, (ι → Run σ α) → Prop} {enter : ι → Enter σ} {bound : ι → Nat}

/-! ## Blind runs -/

theorem Blind.throw (h : Halt) : Blind (MonadExcept.throw h : Run σ α) := fun _ _ => rfl

theorem Blind.frames (g : Array Frame → Array Frame) :
    Blind (modify fun m => { m with frames := g m.frames } : Run σ Unit) := fun _ _ => rfl

/-- Runs that are blind to the fuel are so when they follow each other, and also when the first
one fails. -/
theorem Blind.bind {x : Run σ α} {k : α → Run σ β} (first : x.Blind) (rest : ∀ a, (k a).Blind) :
    (x >>= k).Blind := by
  intro m fuel
  rw [bind_apply, bind_apply, first m fuel]
  cases x m with
  | none => rfl
  | some p =>
    obtain ⟨r, m'⟩ := p
    cases r with
    | ok a => exact rest a m' fuel
    | error h => rfl

theorem Returns.throw (t : Trap) : Returns (MonadExcept.throw (.trap t) : Run σ α) t :=
  ⟨.throw _, fun m => ⟨t, m, rfl, rfl⟩⟩

/-! ## Instantiations -/

namespace ClosedOnStore

variable (closed : ClosedOnStore Φ)
include closed

theorem trap (t : Trap) : Φ α fun _ => Run.trap t := closed.throw _

theorem ofExcept (e : Except Trap α) : Φ α fun _ => Run.ofExcept e := by
  cases e with
  | ok a => exact closed.pure a
  | error t => exact closed.trap t

section Constants

variable (constant : ∀ inst code, Φ Value fun i => Run.constant (enter i) (bound i) inst code)
include constant

/-- The initialisers of globals are run one after the other, so that what is kept by each is kept
by all. -/
theorem initGlobals (inst addr : Nat) (codes : List Code) :
    Φ Unit fun i => Run.initGlobals (enter i) (bound i) inst addr codes := by
  induction codes generalizing addr with
  | nil => exact closed.pure ()
  | cons code codes ih =>
    refine closed.bind (constant inst code) fun v => ?_
    exact closed.bind (closed.op (.setGlobal addr v)) fun _ => ih (addr + 1)

theorem constants (inst : Nat) (codes : List Code) :
    Φ (List Value) fun i => Run.constants (enter i) (bound i) inst codes := by
  induction codes with
  | nil => exact closed.pure []
  | cons code codes ih =>
    refine closed.bind (constant inst code) fun v => ?_
    exact closed.bind ih fun vs => closed.pure (v :: vs)

/-- The items of an element segment are looked up in the instance, or are the values of
constant expressions. -/
theorem elemValues (inst : Nat) (items : ElemItems) :
    Φ (List Value) fun i => Run.elemValues (enter i) (bound i) inst items := by
  cases items with
  | funcs idxs => exact closed.bind (closed.instanceAt inst) fun i => closed.ofExcept _
  | exprs exprs => exact closed.constants constant inst exprs

theorem offset (inst : Nat) (code : Code) :
    Φ Nat fun i => Run.offset (enter i) (bound i) inst code :=
  closed.bind (constant inst code) fun v => closed.pure v.u32.toNat

/-- Only an element segment that is passive is filled; one that is active is written to its table
and dropped, as is one that is declarative. -/
theorem initElem (inst addr : Nat) (e : ElemSegment)
    (fill : ∀ values, Φ Unit fun _ => Run.store (StoreM.fillElem addr values)) :
    Φ Unit fun i => Run.initElem (enter i) (bound i) inst addr e := by
  refine closed.bind (closed.elemValues constant inst e.items) fun values => ?_
  cases e.mode with
  | passive => exact fill values
  | declarative => exact closed.op (.dropElem addr)
  | active table code =>
    refine closed.bind (closed.offset constant inst code) fun pos => ?_
    refine closed.bind (closed.instanceAt inst) fun i => ?_
    refine closed.bind (closed.ofExcept (i.tableAddr table)) fun tableAddr => ?_
    refine closed.bind (closed.op (.onTable tableAddr (.write pos values))) fun _ => ?_
    exact closed.op (.dropElem addr)

/-- What is asked about filling concerns the segments from an address on, which are those of the
instance that is being made. -/
theorem initElems (inst addr : Nat) (es : List ElemSegment)
    (fill : ∀ a ≥ addr, ∀ values, Φ Unit fun _ => Run.store (StoreM.fillElem a values)) :
    Φ Unit fun i => Run.initElems (enter i) (bound i) inst addr es := by
  induction es generalizing addr with
  | nil => exact closed.pure ()
  | cons e es ih =>
    refine closed.bind
      (closed.initElem constant inst addr e (fill addr (Nat.le_refl _))) fun _ => ?_
    exact ih (addr + 1) fun a le => fill a (Nat.le_of_succ_le le)

theorem initData (inst addr : Nat) (d : DataSegment) :
    Φ Unit fun i => Run.initData (enter i) (bound i) inst addr d := by
  unfold Run.initData
  cases d.mode with
  | passive => exact closed.pure ()
  | active mem code =>
    refine closed.bind (closed.offset constant inst code) fun pos => ?_
    refine closed.bind (closed.instanceAt inst) fun i => ?_
    refine closed.bind (closed.ofExcept (i.memAddr mem)) fun memAddr => ?_
    refine closed.bind (closed.op (.onMemory memAddr (.write pos d.bytes))) fun _ => ?_
    exact closed.op (.dropData addr)

theorem initDatas (inst addr : Nat) (ds : List DataSegment) :
    Φ Unit fun i => Run.initDatas (enter i) (bound i) inst addr ds := by
  induction ds generalizing addr with
  | nil => exact closed.pure ()
  | cons d ds ih =>
    exact closed.bind (closed.initData constant inst addr d) fun _ => ih (addr + 1)

end Constants

/-- A start function is invoked without arguments, and what it returns is not looked at. -/
theorem start (invoke : ∀ addr args, Φ _ fun i => Run.invoke (enter i) (bound i) addr args)
    (inst : Nat) (idx? : Option FuncIdx) :
    Φ Unit fun i => Run.start (enter i) (bound i) inst idx? := by
  cases idx? with
  | none => exact closed.pure ()
  | some idx =>
    refine closed.bind (closed.instanceAt inst) fun i => ?_
    refine closed.bind (closed.ofExcept (i.funcAddr idx)) fun addr => ?_
    exact closed.bind (invoke addr #[]) fun _ => closed.pure ()

end ClosedOnStore

namespace ClosedOnStore

section Stages

variable (enter bound) (closed : ClosedOnStore Φ)
  (constant : ∀ inst code, Φ Value fun i => Run.constant (enter i) (bound i) inst code)
  {name : String} {module : Module} {e : Externs}
  (allocate : Φ _ fun _ => Run.allocate name module e)
include closed constant allocate

/-- Up to the globals, an instantiation has allocated and run the initialisers. -/
theorem withGlobals : Φ _ fun i => Run.withGlobals (enter i) (bound i) name module e :=
  closed.bind allocate fun _ => closed.bind (closed.initGlobals constant _ _ _) fun _ =>
    closed.pure _

variable (fill : ∀ addr values, Φ Unit fun _ => Run.store (StoreM.fillElem addr values))
include fill

theorem withElems : Φ _ fun i => Run.withElems (enter i) (bound i) name module e := by
  refine closed.bind (closed.withGlobals enter bound constant allocate) fun _ => ?_
  exact closed.bind (closed.initElems constant _ _ _ fun addr _ => fill addr) fun _ =>
    closed.pure _

theorem withDatas : Φ _ fun i => Run.withDatas (enter i) (bound i) name module e := by
  refine closed.bind (closed.withElems enter bound constant allocate fill) fun _ => ?_
  exact closed.bind (closed.initDatas constant _ _ _) fun _ => closed.pure _

end Stages

end ClosedOnStore

/-- What an instantiation does behind its allocation. -/
def setUp (enter : Enter σ) (bound : Nat) (name : String) (module : Module) :
    Nat × Nat × Nat × Nat → Run σ Nat
  | (inst, firstGlobal, firstElem, firstData) => do
    initGlobals enter bound inst firstGlobal module.globalInits
    initElems enter bound inst firstElem module.elems
    initDatas enter bound inst firstData module.datas
    start enter bound inst module.start
    publish inst name
    return inst

/-- An instantiation is its allocation, followed by what it does with the addresses that it is
given. -/
theorem instantiate_eq_setUp (enter : Enter σ) (bound : Nat) (name : String)
    (module : Module) (e : Externs) : instantiate enter bound name module e =
      allocate name module e >>= setUp enter bound name module := by
  simp only [instantiate, allocate, setUp, bind_assoc, pure_bind]

namespace ClosedOnStore

variable (enter bound) (closed : ClosedOnStore Φ)
  (constant : ∀ inst code, Φ Value fun i => Run.constant (enter i) (bound i) inst code)
  (invoke : ∀ addr args, Φ _ fun i => Run.invoke (enter i) (bound i) addr args)
  {name : String} (publish : ∀ inst, Φ Unit fun _ => Run.publish inst name)
include closed constant invoke publish

/-- What follows the allocation has the property if running the constants, calling the start
function and publishing the instance do. -/
theorem setUp (module : Module) (inst firstGlobal firstElem firstData : Nat)
    (fill : ∀ addr ≥ firstElem, ∀ values, Φ Unit fun _ =>
      Run.store (StoreM.fillElem addr values)) :
    Φ Nat fun i =>
      Run.setUp (enter i) (bound i) name module (inst, firstGlobal, firstElem, firstData) := by
  refine closed.bind (closed.initGlobals constant inst _ _) fun _ => ?_
  refine closed.bind (closed.initElems constant inst firstElem _ fill) fun _ => ?_
  refine closed.bind (closed.initDatas constant inst _ _) fun _ => ?_
  refine closed.bind (closed.start invoke inst _) fun _ => ?_
  exact closed.bind (publish inst) fun _ => closed.pure inst

/-- An instantiation has any property that its allocation has, and that is closed under
what comes after it. -/
theorem instantiate {module : Module} {e : Externs}
    (allocate : Φ _ fun _ => Run.allocate name module e)
    (fill : ∀ addr values, Φ Unit fun _ => Run.store (StoreM.fillElem addr values)) :
    Φ Nat fun i => Run.instantiate (enter i) (bound i) name module e := by
  simp only [instantiate_eq_setUp]
  refine closed.bind allocate fun (inst, firstGlobal, firstElem, firstData) => ?_
  exact closed.setUp enter bound constant invoke publish module inst _ _ _ fun addr _ => fill addr

end ClosedOnStore

/-! ## Calls, steps and entries -/

namespace Moves

/-- A frame that belongs to no function may be pushed. -/
theorem push {f : Frame} (free : f.func = none) : Moves (·.push f) := by
  intro fs f' mem
  obtain before | rfl := Array.mem_push.mp mem
  · exact .inr ⟨f', before, .refl f'⟩
  · exact .inl free

theorem shrink (depth : Nat) : Moves (·.shrink depth) := by
  intro fs f mem
  have taken : (fs.shrink depth).toList = fs.toList.take depth := by simp
  have kept : f ∈ fs.toList.take depth := taken ▸ Array.mem_def.mp mem
  exact .inr ⟨f, Array.mem_def.mpr (List.mem_of_mem_take kept), .refl f⟩

theorem pop : Moves (·.pop) := by
  intro fs f mem
  have kept : f ∈ fs.toList.dropLast := Array.toList_pop ▸ Array.mem_def.mp mem
  exact .inr ⟨f, Array.mem_def.mpr ((List.dropLast_sublist _).mem kept), .refl f⟩

/-- Changing the operands of one frame starts no function. -/
theorem operands (idx : Array Frame → Nat) (g : Array Value → Array Value) :
    Moves fun fs => fs.modify (idx fs) fun f => { f with stack := g f.stack } := by
  intro fs f mem
  obtain ⟨j, there, rfl⟩ := Array.mem_iff_getElem.mp mem
  have there' : j < fs.size := by simpa using there
  refine .inr ⟨fs[j], Array.getElem_mem there', ?_⟩
  rw [Array.getElem_modify]
  split
  · exact rfl
  · exact .refl _

end Moves

namespace ClosedOnFrames

variable {Good : StoreFunc σ → Prop} (closed : ClosedOnFrames Good Φ)
include closed

theorem pushFrame {f : Frame} (free : f.func = none) : Φ Unit fun _ => Run.pushFrame f :=
  closed.frames (.push free)

theorem truncate (depth : Nat) : Φ Unit fun _ => Run.truncate depth :=
  closed.frames (.shrink depth)

theorem pushOperands (idx : Nat) (vs : Array Value) :
    Φ Unit fun _ => Run.pushOperands idx vs := by
  refine closed.look (fun _ _ _ => rfl) fun m => ?_
  split
  · exact closed.frames (.operands (fun _ => idx) (· ++ vs))
  · exact closed.trap _

/-- What follows a check that traps. -/
theorem guard {c : Prop} [Decidable c] {t : Trap} {x : ι → Run σ α} (rest : Φ α x) :
    Φ α fun i => if c then Run.trap t >>= fun _ : Unit => x i else x i := by
  split
  · exact closed.bind (closed.trap t) fun _ => rest
  · exact rest

/-- A call checks the room and looks up its function, and then either starts a frame or runs a
host function. Which functions there can be, and what they do, is left open. -/
theorem call (enter : ι → Enter σ)
    (guest : ∀ f, Good (.module f) → ∀ addr caller, Φ Unit fun _ =>
      Run.act (FrameM.popAll f.type.params.length) >>= fun args =>
        Run.pushFrame (callee addr f args caller))
    (host : ∀ f, Good (.host f) → ∀ frame, Φ Frame fun i => Run.host (enter i) (f.body frame))
    (addr : Nat) : Φ Unit fun i => Run.call (enter i) addr := by
  refine closed.look (fun _ _ _ => rfl) fun m => closed.look (fun _ _ _ => rfl) fun m' => ?_
  refine closed.guard (closed.func addr fun func good => closed.look (fun _ _ _ => rfl)
    fun m₁ => ?_)
  refine closed.guard (closed.look (fun _ _ _ => rfl) fun m₂ => ?_)
  cases func with
  | module f => exact guest f good addr _
  | host f =>
    refine closed.bind (closed.popAll _) fun args => closed.look (fun _ _ _ => rfl) fun m₃ => ?_
    refine closed.bind (host f good _) fun frame => ?_
    cases frame.top? frame.arity with
    | none => exact closed.trap _
    | some results => exact closed.pushOperands _ results

/-- A frame that has ended is popped and its results go to its caller; the entry frame at the
bottom has no caller and stays. -/
theorem finish : Φ Unit fun _ => Run.finish := by
  refine closed.look (fun _ _ _ => rfl) fun m => ?_
  cases m.frames.back? with
  | none => exact closed.pure ()
  | some f =>
    dsimp only
    cases f.prev with
    | none => exact closed.pure ()
    | some caller =>
      dsimp only
      split
      · exact closed.pure ()
      · refine closed.bind (closed.frames .pop) fun _ => ?_
        cases f.top? f.arity with
        | none => exact closed.trap _
        | some results => exact closed.pushOperands caller results

theorem fetch : Φ Instr fun _ => Run.fetch := by
  refine closed.look (fun _ _ _ => rfl) fun m => ?_
  cases m.frames.back? with
  | none => exact closed.trap _
  | some f =>
    dsimp only
    cases f.code[f.pc]? with
    | none => exact closed.trap _
    | some i => exact closed.pure i

theorem instruction : Φ Flow fun _ => Run.instruction :=
  closed.bind closed.charge fun _ => closed.bind closed.fetch fun i => closed.dispatch i

/-- A step is an instruction, the call that it asks for if any, and the end of the frame if
it has come to one. -/
theorem step (enter : ι → Enter σ) (call : ∀ addr, Φ Unit fun i => Run.call (enter i) addr) :
    Φ Unit fun i => Run.step (enter i) := by
  simp only [step_eq_instruction]
  refine closed.bind closed.instruction fun flow => ?_
  cases flow with
  | next => exact closed.finish
  | call addr => exact closed.bind (call addr) fun _ => closed.finish

/-- A halt drops the frames that have been pushed since, and goes on. -/
theorem restoring (depth : Nat) {x : ι → Run σ α} (inner : Φ α x) :
    Φ α fun i => Run.restoring depth (x i) := by
  refine closed.catching inner (fun h => ?_) fun t i => ?_
  · exact closed.bind (closed.truncate depth) fun _ => closed.throw h
  · exact ⟨.bind (.frames (·.shrink depth)) fun _ => .throw _, fun m => ⟨t, _, rfl, rfl⟩⟩

section Calls

variable (enter bound) (call : ∀ addr, Φ Unit fun i => Run.call (enter i) addr)
  (loop : ∀ more : Machine σ → Bool, (∀ m fuel, more (m.refuel fuel) = more m) →
    Φ Unit fun i => Run.stepWhile (enter i) more (bound i))
include call loop

/-- A call from outside, in view of its call and of the steps until its frame is on top again. -/
theorem invoke (addr : Nat) (args : Array Value) :
    Φ (Array Value) fun i => Run.invoke (enter i) (bound i) addr args := by
  refine closed.bind (closed.op (.getFunc addr)) fun func => ?_
  refine closed.guard (closed.look (fun _ _ _ => rfl) fun m => ?_)
  refine closed.bind (closed.pushFrame rfl) fun _ => ?_
  refine closed.bind (closed.restoring _ ?_) fun _ => ?_
  · exact closed.bind (call addr) fun _ => loop _ fun _ _ => rfl
  · refine closed.bind closed.popFrame fun entry => ?_
    cases entry with
    | none => exact closed.trap _
    | some entry => exact closed.pure entry.stack

omit call in
/-- A constant expression is run in a frame of its own, which goes when it has ended. -/
theorem constant (inst : Nat) (code : Code) :
    Φ Value fun i => Run.constant (enter i) (bound i) inst code := by
  refine closed.look (fun _ _ _ => rfl) fun m => ?_
  refine closed.bind (closed.pushFrame rfl) fun _ => ?_
  refine closed.bind (closed.restoring _ (loop _ fun _ _ => rfl)) fun _ => ?_
  refine closed.bind (closed.truncate _) fun _ => closed.bind closed.popFrame fun frame => ?_
  cases frame with
  | none => exact closed.trap _
  | some frame =>
    dsimp only
    split
    · exact closed.pure _
    · exact closed.trap _

end Calls

section Entries

variable (enter bound) (invoke : ∀ addr args, Φ _ fun i =>
    Run.invoke (enter i) (bound i) addr args)
include invoke

/-- A trampoline catches long jumps and goes back to the frames and operands from before. -/
theorem trampoline (addr : Nat) (args : Array Value) :
    Φ Trampolined fun i => Run.trampoline (enter i) (bound i) addr args := by
  refine closed.look (fun _ _ _ => rfl) fun m => closed.look (fun _ _ _ => rfl) fun m' => ?_
  refine closed.catching ?_ (fun h => ?_) fun t i => .throw t
  · simp only [map_eq_pure_bind]
    exact closed.bind (invoke addr args) fun values => closed.pure _
  · cases h with
    | longjmp =>
      refine closed.bind (closed.truncate _) fun _ => ?_
      cases m'.frames.back?.map (·.stack.size) with
      | none => exact closed.pure _
      | some level =>
        exact closed.bind (closed.frames (.operands (fun fs => fs.size - 1) (·.shrink level)))
          fun _ => closed.pure _
    | trap t => exact closed.throw _
    | exit code => exact closed.throw _

/-- Calling an export turns the exit of the program into an outcome, and a long jump that nobody
catches into a trap. -/
theorem callExport (inst : Nat) (name : String) (args : Array Value) :
    Φ Outcome fun i => Run.callExport (enter i) (bound i) inst name args := by
  refine closed.look (fun _ _ _ => rfl) fun m => ?_
  split
  · next addr _ =>
    refine closed.catching ?_ (fun h => ?_) fun t i => .throw t
    · simp only [map_eq_pure_bind]
      exact closed.bind (invoke addr args) fun values => closed.pure _
    · cases h with
      | longjmp => exact closed.trap _
      | trap t => exact closed.throw _
      | exit code => exact closed.pure _
  · exact closed.trap _

end Entries

/-- An entry, in view of what it is made of. -/
theorem perform (enter : ι → Enter σ) (bound : ι → Nat)
    (call : ∀ addr, Φ Unit fun i => Run.call (enter i) addr)
    (loop : ∀ more : Machine σ → Bool, (∀ m fuel, more (m.refuel fuel) = more m) →
      Φ Unit fun i => Run.stepWhile (enter i) more (bound i))
    (op : Entry)
    (instantiate : ∀ name module e, op = .instantiate name module e →
      (∀ inst code, Φ Value fun i => Run.constant (enter i) (bound i) inst code) →
      (∀ addr args, Φ _ fun i => Run.invoke (enter i) (bound i) addr args) →
      Φ Nat fun i => Run.instantiate (enter i) (bound i) name module e) :
    Φ _ fun i => op.perform (enter i) (bound i) := by
  have invoke := closed.invoke enter bound call loop
  cases op with
  | invoke addr args => exact invoke addr args
  | trampoline addr args => exact closed.trampoline enter bound invoke addr args
  | callExport inst name args => exact closed.callExport enter bound invoke inst name args
  | instantiate name module e =>
    exact instantiate name module e rfl (closed.constant enter bound loop) invoke
  | step => exact closed.step enter call
  | execute depth => exact loop _ fun _ _ => rfl

end ClosedOnFrames

end Run

end WasmMachine
