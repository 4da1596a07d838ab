import WasmMachine.Proofs.Bounds
import WasmMachine.Proofs.Linking
import WasmMachine.Proofs.Reached

/-!
# The chronicle of instantiations

`Machine.Chronicle` relates two machines by the instantiations that have ended between them, in
the order in which they have: those that host functions start while another one initialises its
instance come before it.  Whatever runs on a machine has a chronicle.  A chronicle determines
which instance a name denotes, that the instances of instantiations that failed are hidden for
good, and that all other instances are what they were (`Reached.chronicled`).

Whether an instantiation that fails leaves the names alone depends on what host functions do while
it initialises.  `Machine.enterAlone` rules out that they instantiate modules in turn.
-/

namespace WasmMachine

variable {σ α β : Type}

/-! ## Chronicles -/

/-- An instantiation that has ended: under which name, with the number of the instance that it has
added to the machine, if it got as far, and with what it returned. -/
structure Instantiation where
  name : String
  made : Option Nat
  reply : Except Halt Nat

namespace Instantiation

/-- The number that the most recent success under a name has returned. -/
def latest (name : String) : List Instantiation → Option Nat
  | [] => none
  | i :: is => (latest name is).or (if i.name = name then i.reply.toOption else none)

theorem latest_append (name : String) (is js : List Instantiation) :
    latest name (is ++ js) = (latest name js).or (latest name is) := by
  induction is with
  | nil => rw [List.nil_append, latest, Option.or_none]
  | cons i is ih => rw [List.cons_append, latest, ih, latest, Option.or_assoc]

/-- The number that is found is that of a success in the list. -/
theorem mem_of_latest {name : String} {is : List Instantiation} {number : Nat}
    (found : latest name is = some number) :
    ∃ i ∈ is, i.name = name ∧ i.reply = .ok number := by
  induction is with
  | nil => cases found
  | cons i is ih =>
    rw [latest, Option.or_eq_some_iff] at found
    rcases found with later | ⟨-, here⟩
    · obtain ⟨j, mem, success⟩ := ih later
      exact ⟨j, List.mem_cons_of_mem i mem, success⟩
    · split at here
      · next same =>
        refine ⟨i, List.mem_cons_self, same, ?_⟩
        cases reply : i.reply <;> rw [reply] at here <;> cases here
        rfl
      · cases here

end Instantiation

namespace Machine

/-- Two machines with the same instances and the same names. -/
structure Still (m m' : Machine σ) : Prop where
  instances : m'.instances = m.instances
  names : m'.names = m.names

/-- A machine that has got one more instance, of a given name, that is not ready. -/
structure Begins (name : String) (m m' : Machine σ) : Prop where
  instances : ∃ i : Instance, i.name = name ∧ i.ready = false ∧ m'.instances = m.instances.push i
  names : m'.names = m.names

/-- The instantiations that end between two machines. -/
inductive Chronicle : List Instantiation → Machine σ → Machine σ → Prop
  /-- Nothing is instantiated. -/
  | quiet {m m' : Machine σ} : m.Still m' → Chronicle [] m m'
  | trans {is js : List Instantiation} {m₁ m₂ m₃ : Machine σ} :
    Chronicle is m₁ m₂ → Chronicle js m₂ m₃ → Chronicle (is ++ js) m₁ m₃
  /-- An instantiation has added its instance and is under way. -/
  | begun {name : String} {m m' : Machine σ} : m.Begins name m' → Chronicle [] m m'
  /-- An instantiation fails before it has added an instance. -/
  | refused {bound : Nat} {name : String} {module : Module} {e : Externs} {h : Halt}
    {m m' : Machine σ} :
    Machine.enter bound (.instantiate name module e) m = some (.error h, m') → m.Still m' →
    Chronicle [⟨name, none, .error h⟩] m m'
  /-- An instantiation fails while it initialises its instance. -/
  | failed {bound : Nat} {name : String} {module : Module} {e : Externs} {h : Halt}
    {is : List Instantiation} {m m₁ m' : Machine σ} :
    Machine.enter bound (.instantiate name module e) m = some (.error h, m') →
    m.Begins name m₁ → Chronicle is m₁ m' →
    Chronicle (is ++ [⟨name, some m.instances.size, .error h⟩]) m m'
  /-- An instantiation succeeds: its instance gets ready and its name denotes it. -/
  | completed {bound : Nat} {name : String} {module : Module} {e : Externs}
    {is : List Instantiation} {m m₁ m₂ m' : Machine σ} :
    Machine.enter bound (.instantiate name module e) m = some (.ok m.instances.size, m') →
    m.Begins name m₁ → Chronicle is m₁ m₂ →
    m'.instances = m₂.instances.modify m.instances.size (fun i => { i with ready := true }) →
    m'.names = m₂.names.insert name m.instances.size →
    Chronicle (is ++ [⟨name, some m.instances.size, .ok m.instances.size⟩]) m m'

namespace Still

variable {m m' m'' : Machine σ}

theorem refl (m : Machine σ) : m.Still m := ⟨rfl, rfl⟩

theorem trans (first : m.Still m') (second : m'.Still m'') : m.Still m'' :=
  ⟨second.instances.trans first.instances, second.names.trans first.names⟩

end Still

/-- An instance that nothing finds: it is not ready. -/
structure Hides (m : Machine σ) (number : Nat) : Prop where
  absent : m.instance? number = none
  exported : ∀ name, m.exported? number name = none
  callExport : ∀ (enter : Enter σ) (bound : Nat) (name : String) (args : Array Value),
    Run.callExport enter bound number name args m = some (.error (.trap (.noExport name)), m)

theorem Hides.of_not_ready {m : Machine σ} {number : Nat} {i : Instance}
    (listed : m.instances[number]? = some i) (hidden : i.ready = false) : m.Hides number := by
  have absent : m.instance? number = none := by
    rw [instance?, listed, Option.filter_some, hidden]
    rfl
  have exported (name : String) : m.exported? number name = none := by
    rw [exported?, absent]
    rfl
  refine ⟨absent, exported, fun enter bound name args => ?_⟩
  rw [Run.callExport, Run.get_bind, exported]
  rfl

/-! ## What a chronicle says -/

namespace Chronicle

variable {m m' : Machine σ} {is : List Instantiation}

/-- The instances that were there before are unchanged. -/
theorem kept (chronicle : Chronicle is m m') {number : Nat} {i : Instance}
    (listed : m.instances[number]? = some i) : m'.instances[number]? = some i := by
  have grown {m m₁ : Machine σ} {name : String} (begins : m.Begins name m₁)
      (listed : m.instances[number]? = some i) : m₁.instances[number]? = some i := by
    obtain ⟨new, -, -, pushed⟩ := begins.instances
    have there := (Array.getElem?_eq_some_iff.mp listed).1
    rw [pushed, Array.getElem?_push_lt there]
    exact (Array.getElem?_eq_getElem there).symm.trans listed
  induction chronicle with
  | quiet still | refused _ still => rw [still.instances, listed]
  | trans _ _ first second => exact second (first listed)
  | begun begins => exact grown begins listed
  | failed _ begins _ ih => exact ih (grown begins listed)
  | completed _ begins _ ready _ ih =>
    have there := (Array.getElem?_eq_some_iff.mp listed).1
    rw [ready, Array.getElem?_modify, if_neg (by omega)]
    exact ih (grown begins listed)

/-- A name denotes what the most recent success under it has returned, or else what it denoted
before. -/
theorem names_eq (chronicle : Chronicle is m m') (name : String) :
    m'.names[name]? = (Instantiation.latest name is).or m.names[name]? := by
  induction chronicle with
  | quiet still =>
    rw [still.names]
    rfl
  | refused _ still =>
    rw [still.names]
    simp [Instantiation.latest, Except.toOption]
  | trans _ _ first second => rw [second, first, Instantiation.latest_append, Option.or_assoc]
  | begun begins =>
    rw [begins.names]
    rfl
  | failed _ begins _ ih =>
    rw [ih, begins.names, Instantiation.latest_append]
    simp [Instantiation.latest, Except.toOption]
  | @completed _ name' _ _ is m m₁ m₂ m' _ begins _ _ names ih =>
    rw [names, Std.HashMap.getElem?_insert, ih, begins.names, Instantiation.latest_append]
    by_cases same : name' = name <;> simp [Instantiation.latest, Except.toOption, same]

theorem size_le (chronicle : Chronicle is m m') : m.instances.size ≤ m'.instances.size :=
  Array.Keeps.size_le fun _ i listed => ⟨i, chronicle.kept listed, rfl⟩

end Chronicle

end Machine

/-- What an instantiation has left of its instance: it was not there before, and it is ready, with
the name of the instantiation, if that has succeeded, and not ready if it has failed. -/
structure Instantiation.Leaves (i : Instantiation) (m m' : Machine σ) : Prop where
  success : ∀ number, i.reply = .ok number → m.instances.size ≤ number ∧
    ∃ inst, m'.instances[number]? = some inst ∧ inst.ready = true ∧ inst.name = i.name
  failure : ∀ number h, i.made = some number → i.reply = .error h → m.instances.size ≤ number ∧
    ∃ inst, m'.instances[number]? = some inst ∧ inst.ready = false

variable {m m' : Machine σ} {is : List Instantiation}

/-- What is left of an instance stays as long as the instance does. -/
theorem Instantiation.Leaves.mono {i : Instantiation} {m₀ m₁ : Machine σ} (leaves : i.Leaves m m')
    (floor : m₀.instances.size ≤ m.instances.size)
    (kept : ∀ (number : Nat) (inst : Instance), m.instances.size ≤ number →
      m'.instances[number]? = some inst → m₁.instances[number]? = some inst) :
    i.Leaves m₀ m₁ where
  success number reply := by
    obtain ⟨fresh, inst, listed, ready⟩ := leaves.success number reply
    exact ⟨Nat.le_trans floor fresh, inst, kept number inst fresh listed, ready⟩
  failure number h made reply := by
    obtain ⟨fresh, inst, listed, hidden⟩ := leaves.failure number h made reply
    exact ⟨Nat.le_trans floor fresh, inst, kept number inst fresh listed, hidden⟩

namespace Machine

theorem Begins.size_eq {name : String} (begins : m.Begins name m') :
    m'.instances.size = m.instances.size + 1 := by
  obtain ⟨new, -, -, pushed⟩ := begins.instances
  rw [pushed, Array.size_push]

/-- Every instantiation of a chronicle leaves its instance as it should. -/
theorem Chronicle.leaves (chronicle : Chronicle is m m') {i : Instantiation} (mem : i ∈ is) :
    i.Leaves m m' := by
  induction chronicle with
  | quiet | begun => cases mem
  | trans first second ih₁ ih₂ =>
    rcases List.mem_append.mp mem with before | after
    · exact (ih₁ before).mono (Nat.le_refl _) fun number inst _ => second.kept
    · exact (ih₂ after).mono first.size_le fun number inst _ => id
  | refused =>
    cases List.mem_singleton.mp mem
    exact ⟨fun number reply => (nomatch reply), fun number h made => (nomatch made)⟩
  | @failed _ _ _ _ _ _ m m₁ m' _ begins inner ih =>
    rcases List.mem_append.mp mem with before | last
    · exact (ih before).mono (by rw [begins.size_eq]; omega) fun number inst _ => id
    · cases List.mem_singleton.mp last
      obtain ⟨new, -, hidden, pushed⟩ := begins.instances
      refine ⟨fun number reply => (nomatch reply), fun number h made _ => ?_⟩
      cases made
      exact ⟨Nat.le_refl _, new, inner.kept (by rw [pushed, Array.getElem?_push_size]), hidden⟩
  | @completed _ _ _ _ _ m m₁ m₂ m' _ begins inner ready _ ih =>
    rcases List.mem_append.mp mem with before | last
    · refine (ih before).mono (by rw [begins.size_eq]; omega) fun number inst fresh listed => ?_
      rw [begins.size_eq] at fresh
      rw [ready, Array.getElem?_modify, if_neg (by omega), listed]
    · cases List.mem_singleton.mp last
      obtain ⟨new, named, -, pushed⟩ := begins.instances
      refine ⟨fun number reply => ?_, fun number h made reply => (nomatch reply)⟩
      cases reply
      have listed : m₂.instances[m.instances.size]? = some new :=
        inner.kept (by rw [pushed, Array.getElem?_push_size])
      refine ⟨Nat.le_refl _, { new with ready := true }, ?_, rfl, named⟩
      rw [ready, Array.getElem?_modify, if_pos rfl, listed]
      rfl

end Machine

/-! ## Runs and their chronicles -/

/-- A relation along which machines can be followed. -/
structure Machine.Along (R : Machine σ → Machine σ → Prop) : Prop where
  still {m m' : Machine σ} : m.Still m' → R m m'
  trans {m m' m'' : Machine σ} : R m m' → R m' m'' → R m m''

theorem Machine.Alters.still {m m' : Machine σ} (alters : m.Alters m') : m.Still m' := by
  induction alters with
  | refl m => exact .refl m
  | trans _ _ first second => exact first.trans second
  | @store _ x _ m =>
    rw [onStore_eq]
    cases x m.store <;> exact ⟨rfl, rfl⟩
  | fuel | link => exact ⟨rfl, rfl⟩

theorem Machine.Along.of_still : Along (Still : Machine σ → Machine σ → Prop) := ⟨id, .trans⟩

/-- A run that leads from a machine only to machines that are related to it, however it ends. -/
def Run.Leads (R : Machine σ → Machine σ → Prop) (α : Type) (x : Run σ α) : Prop :=
  ∀ ⦃m r m'⦄, x m = some (r, m') → R m m'

namespace Run.Leads

variable {R : Machine σ → Machine σ → Prop} {x : Run σ α}

theorem of_still (along : Machine.Along R) (quiet : Leads Machine.Still α x) : Leads R α x :=
  fun _ _ _ run => along.still (quiet run)

theorem throw (h : Halt) : Leads Machine.Still α (MonadExcept.throw h : Run σ α) := by
  intro m r m' run
  cases run
  exact .refl m

theorem pure (a : α) : Leads Machine.Still α (Pure.pure a : Run σ α) := by
  intro m r m' run
  cases run
  exact .refl m

theorem store (x : StoreM σ α) : Leads Machine.Still α (Run.store x) := by
  intro m r m' run
  rw [store_eq] at run
  split at run <;> cases run <;> exact ⟨rfl, rfl⟩

theorem act (x : Act σ α) : Leads Machine.Still α (Run.act x) := by
  intro m r m' run
  by_cases empty : m.frames = #[]
  · rw [act_empty empty] at run
    cases run
    exact .refl m
  · obtain ⟨outer, f, top⟩ := Array.exists_push_of_ne_empty empty
    rw [act_push top] at run
    split at run <;> cases run <;> exact ⟨rfl, rfl⟩

theorem dispatch (i : Instr) : Leads Machine.Still Flow (Run.dispatch i : Run σ Flow) := by
  intro m r m' run
  rw [Run.dispatch, bind_apply, currentInstance_eq] at run
  cases top : m.frames.back? with
  | none =>
    rw [top] at run
    cases run
    exact .refl m
  | some f =>
    rw [top] at run
    dsimp only at run
    split at run
    · next stopped =>
      cases run
    · next ran =>
      split at ran <;> cases ran
      exact act _ run
    · next stopped =>
      cases run
      split at stopped <;> cases stopped
      exact .refl m

theorem charge : Leads Machine.Still Unit (Run.charge : Run σ Unit) := by
  intro m r m' run
  rw [charge_eq] at run
  split at run <;> cases run
  · exact .refl m
  · next paid =>
    rw [Machine.paying_eq paid]
    exact ⟨rfl, rfl⟩

section Closed

variable (along : Machine.Along R)
include along

theorem bind {k : α → Run σ β} (first : Leads R α x) (next : ∀ a, Leads R β (k a)) :
    Leads R β (x >>= k) := by
  intro m r m' run
  rcases bind_cases run with ⟨h, head, -⟩ | ⟨a, m₁, head, run⟩
  · exact first head
  · exact along.trans (first head) (next a run)

theorem catching {k : Halt → Run σ α} (inner : Leads R α x) (caught : ∀ h, Leads R α (k h)) :
    Leads R α (tryCatch x k) := by
  intro m r m' run
  rcases tryCatch_cases run with ⟨a, head, -⟩ | ⟨h, m₁, head, run⟩
  · exact inner head
  · exact along.trans (inner head) (caught h run)

theorem closed : ClosedOnFrames (fun _ : StoreFunc σ => True)
    fun α (x : Unit → Run σ α) => Leads R α (x ()) where
  pure a := of_still along (pure a)
  throw h := of_still along (throw h)
  bind := bind along
  look _ next := fun m _ _ run => next m run
  op _ := of_still along (store _)
  func addr next := bind along (of_still along (store _)) fun f => next f trivial
  charge := of_still along charge
  dispatch i := of_still along (dispatch i)
  popAll count := of_still along (act _)
  frames _ := fun m _ _ run => by
    cases run
    exact along.still ⟨rfl, rfl⟩
  popFrame := fun m _ _ run => by
    cases run
    exact along.still ⟨rfl, rfl⟩
  catching inner caught _ := catching along inner caught

section Entries

variable {enter : Enter σ} (entries : ∀ op, Leads R _ (enter op))
include entries

theorem host (p : HostProg σ) : Leads R Frame (Run.host enter p) := by
  induction p using HostProg.induct with
  | done frame => exact (closed along).pure frame
  | halt reason => exact (closed along).throw reason
  | access op next ih =>
    intro m r m' run
    refine along.trans (along.still ?_) (ih _ run)
    exact (op.perform_alters m).still
  | enter op next ih =>
    intro m r m' run
    obtain ⟨reply, m₁, entered, run⟩ := host_enter_cases run
    exact along.trans (entries op entered) (ih reply run)
  | register f next _ ih =>
    intro m r m' run
    have registered : m.Still (m.register f) := ⟨rfl, rfl⟩
    exact along.trans (along.still registered) (ih run)
  | getState next ih => exact fun m _ _ run => ih m.world run
  | setState s next ih =>
    intro m r m' run
    have set : m.Still { m with world := s } := ⟨rfl, rfl⟩
    exact along.trans (along.still set) (ih run)

theorem call (addr : Nat) : Leads R Unit (Run.call enter addr) := by
  refine (closed along).call (fun _ => enter) (fun f _ addr caller => ?_)
    (fun f _ frame => host along entries (f.body frame)) addr
  refine bind along ((closed along).popAll _) fun args m r m' run => ?_
  cases run
  exact along.still ⟨rfl, rfl⟩

theorem step : Leads R Unit (Run.step enter) :=
  (closed along).step (fun _ => enter) (call along entries)

theorem stepWhile (more : Machine σ → Bool) (bound : Nat) :
    Leads R Unit (Run.stepWhile enter more bound) := by
  induction bound with
  | zero =>
    intro m r m' run
    cases run
  | succ bound ih =>
    intro m r m' run
    rw [stepWhile_succ] at run
    split at run
    · exact bind along (step along entries) (fun _ => ih) run
    · cases run
      exact along.still (.refl m)

theorem constant (bound inst : Nat) (code : Code) :
    Leads R Value (Run.constant enter bound inst code) :=
  (closed along).constant (fun _ => enter) (fun _ => bound)
    (fun more _ => stepWhile along entries more bound) inst code

theorem invoke (bound addr : Nat) (args : Array Value) :
    Leads R (Array Value) (Run.invoke enter bound addr args) :=
  (closed along).invoke (fun _ => enter) (fun _ => bound) (call along entries)
    (fun more _ => stepWhile along entries more bound) addr args

theorem initialise (bound : Nat) (module : Module) (inst global elem data : Nat) :
    Leads R Unit (Run.initialise enter bound module (inst, global, elem, data)) := by
  have constant (inst : Nat) (code : Code) := constant along entries bound inst code
  have closed := (closed along).toClosedOnStore
  have fill (addr : Nat) (values : List Value) :
      Leads R Unit (Run.store (StoreM.fillElem addr values)) := of_still along (store _)
  refine bind along ?_ fun _ => bind along ?_ fun _ => bind along ?_ fun _ => ?_
  · exact @ClosedOnStore.initGlobals _ _ _ (fun _ => enter)
      (fun _ => bound) closed constant inst global _
  · exact @ClosedOnStore.initElems _ _ _ (fun _ => enter)
      (fun _ => bound) closed constant inst elem _
      fun addr _ => fill addr
  · exact @ClosedOnStore.initDatas _ _ _ (fun _ => enter)
      (fun _ => bound) closed constant inst data _
  · exact @ClosedOnStore.start _ _ _ (fun _ => enter) (fun _ => bound) closed
      (invoke along entries bound) inst _

end Entries

end Closed

end Run.Leads

/-! ## Everything that runs has a chronicle -/

namespace Machine

/-- Whether there is a chronicle between two machines. -/
def Recounted (m m' : Machine σ) : Prop := ∃ is, Chronicle is m m'

theorem Along.of_recounted : Along (Recounted : Machine σ → Machine σ → Prop) where
  still still := ⟨[], .quiet still⟩
  trans := fun ⟨is, first⟩ ⟨js, second⟩ => ⟨is ++ js, first.trans second⟩

variable {m m' : Machine σ} {bound : Nat} {name : String} {module : Module} {e : Externs}

/-- An instance that has just been allocated begins. -/
theorem begins_of_allocated {i : Instance} (s : Store σ)
    (exports : (Instance.allocated m.store module m.instances.size name e).addExports
      module.exports
      = .ok i) : m.Begins name { m with store := s, instances := m.instances.push i } := by
  rw [Instance.addExports_eq exports]
  exact ⟨⟨_, rfl, rfl, rfl⟩, rfl⟩

/-- An instantiation ends the chronicle of what it does, if there is one of what its entries
do. -/
theorem recounted_of_instantiate
    (entries : ∀ op, Run.Leads Recounted _ (Machine.enter bound op : Run σ op.Reply))
    {r : Except Halt Nat}
    (run : Machine.enter (bound + 1) (.instantiate name module e) m = some (r, m')) :
    ∃ is made, Chronicle (is ++ [⟨name, made, r⟩]) m m' ∧ (made = none → m.Still m') := by
  obtain ⟨t, -, rfl, rfl⟩ | ⟨-, ⟨t, -, rfl, rfl⟩ | ⟨i, exports, ran⟩⟩ := Run.instantiate_cases run
  · exact ⟨[], none, .refused run (.refl _), fun _ => .refl _⟩
  · exact ⟨[], none, .refused run ⟨rfl, rfl⟩, fun _ => ⟨rfl, rfl⟩⟩
  · have begins := begins_of_allocated (m.store.allocate module m.instances.size name) exports
    have leads := Run.Leads.initialise .of_recounted entries bound module m.instances.size
      m.store.globals.size m.store.elems.size m.store.datas.size
    obtain ⟨h, stopped, rfl⟩ | ⟨m₂, ended, rfl, rfl⟩ := Run.setUp_cases ran
    · obtain ⟨is, inner⟩ := leads stopped
      exact ⟨is, some m.instances.size, .failed run begins inner, fun none => (nomatch none)⟩
    · obtain ⟨is, inner⟩ := leads ended
      exact ⟨is, some m.instances.size, .completed run begins inner rfl rfl,
        fun none => (nomatch none)⟩

theorem enter_recounted (bound : Nat) (op : Entry) :
    Run.Leads Recounted _ (Machine.enter bound op : Run σ op.Reply) := by
  induction bound generalizing op with
  | zero =>
    intro m r m' run
    cases run
  | succ bound ih =>
    have along : Along (Recounted : Machine σ → Machine σ → Prop) := .of_recounted
    refine (Run.Leads.closed along).perform (fun _ => Machine.enter bound) (fun _ => bound)
      (Run.Leads.call along ih) (fun more _ => Run.Leads.stepWhile along ih more bound) op
      fun name module e same _ _ => ?_
    intro m r m' run
    obtain ⟨is, made, chronicle, -⟩ := recounted_of_instantiate ih run
    exact ⟨_, chronicle⟩

theorem host_recounted (bound : Nat) (p : HostProg σ) :
    Run.Leads Recounted Frame (Run.host (Machine.enter bound) p) :=
  .host .of_recounted (enter_recounted bound) p

end Machine

/-- Whatever is reached has a chronicle from the beginning. -/
theorem Reached.recounted {config : Config} {world : σ} {program : HostProg σ} {task : Task σ}
    {m : Machine σ} (reached : Reached config world program task m) :
    (Machine.new config world).Recounted m := by
  have along : Machine.Along (Machine.Recounted : Machine σ → Machine σ → Prop) := .of_recounted
  have entries (inner : Nat) (op : Entry) := Machine.enter_recounted (σ := σ) inner op
  have closed := Run.Leads.closed along
  have constant (inner bound inst : Nat) (code : Code) :=
    Run.Leads.constant along (entries inner) bound inst code
  have fill (addr : Nat) (values : List Value) :
      Run.Leads Machine.Recounted Unit (Run.store (StoreM.fillElem addr values) : Run σ Unit) :=
    .of_still along (.store _)
  have allocate (name : String) (module : Module) (e : Externs) :
      Run.Leads Machine.Recounted _ (Run.allocate name module e : Run σ _) := by
    intro m r m' run
    rw [Run.allocate_eq] at run
    split at run
    · cases run
      exact along.still (.refl m)
    · split at run <;> cases run
      · exact along.still ⟨rfl, rfl⟩
      · next exports => exact ⟨[], .begun (Machine.begins_of_allocated _ exports)⟩
  have after {γ : Type} {x : Run σ γ} {m m' : Machine σ} {r : Except Halt γ}
      (ih : (Machine.new config world).Recounted m) (leads : Run.Leads Machine.Recounted γ x)
      (run : x m = some (r, m')) : (Machine.new config world).Recounted m' :=
    along.trans ih (leads run)
  induction reached with
  | begin => exact along.still (.refl _)
  | @access op next m _ ih => exact along.trans ih (along.still (op.perform_alters m).still)
  | register _ ih | setState _ ih | invoke _ _ ih | constant _ ih =>
    exact along.trans ih (along.still ⟨rfl, rfl⟩)
  | getState _ ih | enter _ ih | trampoline _ ih | callExport _ _ ih | global _ ih | items _ _ ih
  | dataOffset _ _ ih | item _ ih | step _ _ ih => exact ih
  | entered inner _ run ih => exact after ih (entries inner _) run
  | @invoked addr args m m' inst inner _ run ih =>
    have pushed : m.Still { m with frames := m.frames.push (.entry inst args) } := ⟨rfl, rfl⟩
    exact after (along.trans ih (along.still pushed)) (.call along (entries inner) _) run
  | globals _ run ih => exact after ih (allocate _ _ _) run
  | globalSet inner bound _ run ih =>
    exact after ih (.bind along (constant inner bound _ _) fun v =>
      .of_still along (.store _)) run
  | elems inner bound _ run ih =>
    exact after ih (closed.toClosed.withGlobals (fun _ => Machine.enter inner) (fun _ => bound)
      (constant inner bound) (allocate _ _ _)) run
  | elemOffset inner bound _ _ run ih =>
    exact after ih (@Run.ClosedOnStore.elemValues _ _ _ (fun _ => Machine.enter inner)
      (fun _ => bound)
      closed.toClosedOnStore (constant inner bound) _ _) run
  | elemSet inner bound _ run ih =>
    exact after ih (@Run.ClosedOnStore.initElem _ _ _ (fun _ => Machine.enter inner)
      (fun _ => bound)
      closed.toClosedOnStore (constant inner bound) _ _ _ (fill _)) run
  | datas inner bound _ run ih =>
    exact after ih (closed.toClosed.withElems (fun _ => Machine.enter inner) (fun _ => bound)
      (constant inner bound) (allocate _ _ _) fill) run
  | dataSet inner bound _ run ih =>
    exact after ih (@Run.ClosedOnStore.initData _ _ _ (fun _ => Machine.enter inner)
      (fun _ => bound)
      closed.toClosedOnStore (constant inner bound) _ _ _) run
  | start inner bound addr _ run _ ih =>
    exact after ih (closed.toClosed.withDatas (fun _ => Machine.enter inner) (fun _ => bound)
      (constant inner bound) (allocate _ _ _) fill) run
  | itemDone inner bound _ run ih => exact after ih (constant inner bound _ _) run
  | stepped inner _ _ run ih => exact after ih (.step along (entries inner)) run
  | call _ run ih => exact after ih closed.instruction run
  | callHost inst caller _ _ popped ih => exact after ih (.of_still along (.act _)) popped

/-! ## Instantiations of which host functions make no others -/

/-- Whether an entry is an instantiation. -/
def Entry.isInstantiate : Entry → Bool
  | .instantiate .. => true
  | _ => false

/-- Carry out entries, but no instantiation: an entry that comes to one has no result. -/
def Machine.enterAlone : Nat → (op : Entry) → Run σ op.Reply
  | 0, _ => Run.outOfBound
  | bound + 1, op =>
    if op.isInstantiate then Run.outOfBound
    else op.perform (fun op => Machine.enterAlone bound op) bound

namespace Machine

/-- Entries carried out one way or the other. -/
def enterEither (bound : Nat) (i : Bool) : Enter σ := fun op =>
  bif i then Machine.enter bound op else Machine.enterAlone bound op

theorem enterEither_agree (bound : Nat) (op : Entry) :
    Run.Agree _ fun i => (enterEither bound i op : Run σ op.Reply) := by
  induction bound generalizing op with
  | zero =>
    intro m p run
    cases run
  | succ bound ih =>
    intro m p run
    simp only [enterEither, cond_false, enterAlone] at run
    split at run
    · cases run
    · exact Run.Agree.perform ih op (Nat.le_refl bound) run

/-- An instantiation during which no other one is started goes as it goes in general. -/
theorem enter_of_enterAlone {bound : Nat} {name : String} {module : Module} {e : Externs}
    {m : Machine σ} {p : Except Halt Nat × Machine σ}
    (run : Run.instantiate (Machine.enterAlone bound) bound name module e m = some p) :
    Machine.enter (bound + 1) (.instantiate name module e) m = some p :=
  Run.Agree.perform (enterEither_agree bound) (.instantiate name module e) (Nat.le_refl bound) run

theorem enterAlone_still (bound : Nat) (op : Entry) :
    Run.Leads Still _ (Machine.enterAlone bound op : Run σ op.Reply) := by
  induction bound generalizing op with
  | zero =>
    intro m r m' run
    cases run
  | succ bound ih =>
    intro m r m' run
    rw [enterAlone] at run
    split at run
    · cases run
    · next other =>
      have along : Along (Still : Machine σ → Machine σ → Prop) := .of_still
      refine (Run.Leads.closed along).perform (fun _ => Machine.enterAlone bound) (fun _ => bound)
        (Run.Leads.call along ih) (fun more _ => Run.Leads.stepWhile along ih more bound) op
        (fun name module e same _ _ => ?_) run
      rw [same] at other
      exact absurd rfl other

/-- An instantiation that fails, and during which no other one is started, leaves the names and
the instances that were there. -/
theorem failed_alone {bound : Nat} {name : String} {module : Module} {e : Externs} {h : Halt}
    {m m' : Machine σ}
    (run : Run.instantiate (Machine.enterAlone bound) bound name module e m =
      some (.error h, m')) :
    m'.names = m.names ∧ Array.Keeps (· = ·) m.instances m'.instances := by
  obtain ⟨t, -, -, rfl⟩ | ⟨-, ⟨t, -, -, rfl⟩ | ⟨i, exports, ran⟩⟩ := Run.instantiate_cases run
  · exact ⟨rfl, .refl (fun _ => rfl) _⟩
  · exact ⟨rfl, .refl (fun _ => rfl) _⟩
  · obtain ⟨h, stopped, -⟩ | ⟨m₂, -, failed, -⟩ := Run.setUp_cases ran
    · have still :=
        Run.Leads.initialise .of_still (enterAlone_still bound) bound module _ _ _ _ stopped
      rw [still.instances, still.names]
      exact ⟨rfl, .push (fun _ => rfl) _ _⟩
    · cases failed

/-- Every machine that is reached has a chronicle of the instantiations that have ended by then.
An instantiation ends the chronicle of what it does, with the instance that it has added, if any,
and with what it returns; so does whatever a program does later prolong it.  By every chronicle, a
name denotes the instance that the most recent success under it has returned, which is ready and
has that name; and an instance whose instantiation has failed is not found by anything.  An
instantiation that fails without any other being started meanwhile leaves the names and all
earlier instances as they were. -/
theorem chronicled (config : Config) (world : σ) :
    (∀ program task m, Reached config world program task m →
      ∃ is, Chronicle is (.new config world) m) ∧
    (∀ bound name module e (m : Machine σ) r m',
      Machine.enter bound (.instantiate name module e) m = some (r, m') →
      ∃ is made, Chronicle (is ++ [⟨name, made, r⟩]) m m' ∧
        (made = none → m'.instances = m.instances ∧ m'.names = m.names)) ∧
    (∀ bound program (m : Machine σ) r m',
      Run.host (Machine.enter bound) program m = some (r, m') →
      ∃ is, Chronicle is m m') ∧
    (∀ is m, Chronicle is (.new config world) m →
      (∀ name, m.names[name]? = Instantiation.latest name is) ∧
      (∀ name number, m.names[name]? = some number →
        ∃ i, m.instance? number = some i ∧ i.name = name) ∧
      ∀ i ∈ is, ∀ number h, i.made = some number → i.reply = .error h → m.Hides number) ∧
    ∀ bound name module e (m : Machine σ) h m',
      Run.instantiate (Machine.enterAlone bound) bound name module e m = some (.error h, m') →
      Machine.enter (bound + 1) (.instantiate name module e) m = some (.error h, m') ∧
      m'.names = m.names ∧
      ∀ (number : Nat) (i : Instance), m.instances[number]? = some i →
        m'.instances[number]? = some i := by
  refine ⟨fun program task m => Reached.recounted, fun bound name module e m r m' run => ?_,
    fun bound program m r m' run => host_recounted bound program run, fun is m chronicle => ?_,
    fun bound name module e m h m' run => ?_⟩
  · cases bound with
    | zero => cases run
    | succ bound =>
      obtain ⟨is, made, chronicle, refused⟩ :=
        recounted_of_instantiate (enter_recounted bound) run
      exact ⟨is, made, chronicle, fun none => ⟨(refused none).instances, (refused none).names⟩⟩
  · have names (name : String) : m.names[name]? = Instantiation.latest name is := by
      have nothing : (new config world : Machine σ).names[name]? = none :=
        Std.HashMap.getElem?_empty
      rw [chronicle.names_eq name, nothing, Option.or_none]
    refine ⟨names, fun name number found => ?_, fun i mem number h made reply => ?_⟩
    · rw [names] at found
      obtain ⟨i, mem, rfl, reply⟩ := Instantiation.mem_of_latest found
      obtain ⟨-, inst, listed, ready, named⟩ := (chronicle.leaves mem).success number reply
      exact ⟨inst, by rw [instance?, listed, Option.filter_some, ready]; rfl, named⟩
    · obtain ⟨-, inst, listed, hidden⟩ := (chronicle.leaves mem).failure number h made reply
      exact .of_not_ready listed hidden
  · obtain ⟨names, kept⟩ := failed_alone run
    refine ⟨enter_of_enterAlone run, names, fun number i listed => ?_⟩
    obtain ⟨_, there, rfl⟩ := kept number i listed
    exact there

end Machine

end WasmMachine
