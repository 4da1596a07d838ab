import WasmMachine.Proofs.Evolution
import WasmMachine.Proofs.Metering

/-!
# Counting steps

Every run that ends takes a number of steps (`Machine.enter_counts`), if the host functions of its
machine keep away from fuel: they neither read nor set it, and they return any trap that they get
from entering the machine again.
-/

namespace WasmMachine

variable {σ α β : Type}

/-! ## Host functions that keep away from fuel -/

/-- Programs that return a trap: they enter the machine no more, keep away from fuel and halt with
a trap of the same wording. -/
inductive HostProg.GivesUp (t : Trap) : HostProg σ → Prop
  | halt {t' : Trap} : t'.message = t.message → GivesUp t (.halt (.trap t'))
  | access {op : Access} {next : op.Reply → HostProg σ} :
    op.Unmetered → (∀ reply, GivesUp t (next reply)) → GivesUp t (.access op next)
  | register {f : HostFunc σ} {next : HostProg σ} : GivesUp t next → GivesUp t (.register f next)
  | getState {next : σ → HostProg σ} : (∀ s, GivesUp t (next s)) → GivesUp t (.getState next)
  | setState {s : σ} {next : HostProg σ} : GivesUp t next → GivesUp t (.setState s next)

/-- To return any trap that an entry ends in. -/
def HostProg.ReturnsTraps (op : Entry) (next : Except Halt op.Reply → HostProg σ) : Prop :=
  ∀ t, GivesUp t (next (.error (.trap t)))

/-- Programs that neither read nor set fuel and return any trap from entering the machine. -/
abbrev HostProg.Indifferent : HostProg σ → Prop := HostProg.Obeys Access.Unmetered ReturnsTraps

/-! ## Blind runs -/

namespace Run

variable {m m' : Machine σ} {x : Run σ α}

namespace Blind

theorem pure (a : α) : Blind (Pure.pure a : Run σ α) := fun _ _ => rfl

theorem store (x : StoreM σ α) : Blind (Run.store x) := by
  intro m fuel
  rw [store_eq, store_eq]
  dsimp only [Machine.refuel]
  cases x m.store <;> rfl

theorem act (a : Act σ α) : Blind (Run.act a) := by
  intro m fuel
  by_cases empty : m.frames = #[]
  · have empty' : (m.refuel fuel).frames = #[] := empty
    rw [act_empty empty, act_empty empty']
    rfl
  · obtain ⟨outer, f, top⟩ := Array.exists_push_of_ne_empty empty
    have top' : (m.refuel fuel).frames = outer.push f := top
    rw [act_push top, act_push top']
    dsimp only [Machine.refuel]
    cases a ⟨f, m.store⟩ <;> rfl

/-- An instruction does not look at the fuel, since it has been paid for. -/
theorem dispatch (i : Instr) : Blind (Run.dispatch i : Run σ Flow) := by
  refine bind (fun m fuel => ?_) fun inst => act _
  rw [currentInstance_eq, currentInstance_eq]
  dsimp only [Machine.refuel]
  cases m.frames.back? with
  | none => rfl
  | some f =>
    dsimp only
    cases m.instances[f.inst]? <;> rfl

end Blind

end Run

/-- Checking the imports reads the store alone. -/
theorem Machine.checkEach_aside {g : Machine σ → Machine σ} (aside : Aside g) (m : Machine σ)
    (types : Array FuncType) (is : List Import) (funcs tables memories : List Nat) :
    (g m).checkEach types is funcs tables memories =
      m.checkEach types is funcs tables memories := by
  induction is generalizing funcs tables memories with
  | nil => rfl
  | cons i is ih =>
    simp only [checkEach, checkFunc, checkTable, checkMemory, funcType?, func?, aside.store]
    cases i.desc with
    | func idx => exact congrArg (_ >>= ·) (funext fun _ => ih _ _ _)
    | table type => exact congrArg (_ >>= ·) (funext fun _ => ih _ _ _)
    | mem type => exact congrArg (_ >>= ·) (funext fun _ => ih _ _ _)
    | global type => exact ih _ _ _

/-- Checking imports looks at the store alone. -/
theorem Machine.checkImports_aside {g : Machine σ → Machine σ} (aside : Aside g) (m : Machine σ)
    (module : Module) (e : Externs) : (g m).checkImports module e = m.checkImports module e := by
  unfold checkImports
  rw [checkEach_aside aside]

theorem Machine.checkImports_refuel (m : Machine σ) (fuel : Option UInt64) (module : Module)
    (e : Externs) : (m.refuel fuel).checkImports module e = m.checkImports module e :=
  checkImports_aside (aside_refuel fuel) m module e

namespace Run

variable {m m' : Machine σ} {x : Run σ α}

/-- Allocating does not look at the fuel. -/
theorem Blind.allocate (name : String) (module : Module) (e : Externs) :
    Blind (Run.allocate name module e : Run σ (Nat × Nat × Nat × Nat)) := by
  intro m fuel
  rw [allocate_eq, allocate_eq, Machine.checkImports_refuel]
  dsimp only [Machine.refuel]
  cases m.checkImports module e with
  | error t => rfl
  | ok u =>
    dsimp only
    cases (Instance.allocated m.store module m.instances.size name e).addExports
      module.exports <;>
      rfl

/-- A program that returns a trap runs so. -/
theorem Returns.host {enter : Enter σ} {t : Trap} {p : HostProg σ} (gives : p.GivesUp t) :
    (Run.host enter p).Returns t := by
  induction gives with
  | halt same => exact ⟨.throw _, fun m => ⟨_, m, rfl, same⟩⟩
  | @access op next free _ ih =>
    refine ⟨fun m fuel => ?_, fun m => (ih (op.perform m).1).traps (op.perform m).2⟩
    have reply := op.perform_refuel free fuel m
    change Run.host enter (next (op.perform (m.refuel fuel)).1) (op.perform (m.refuel fuel)).2 = _
    rw [reply]
    exact (ih (op.perform m).1).blind (op.perform m).2 fuel
  | @register f next _ ih =>
    exact ⟨fun m fuel => ih.blind (m.register f) fuel, fun m => ih.traps (m.register f)⟩
  | getState _ ih =>
    exact ⟨fun m fuel => (ih m.world).blind m fuel, fun m => (ih m.world).traps m⟩
  | @setState s next _ ih =>
    exact ⟨fun m fuel => ih.blind { m with world := s } fuel,
      fun m => ih.traps { m with world := s }⟩

/-! ## Runs that can be counted -/

/-- Machines evolve under a run whose host functions keep away from fuel, and if it ends it has
taken a number of steps. -/
structure Counts (α : Type) (x : Run σ α) : Prop where
  evolving : Evolving (fun _ => True) HostProg.Indifferent 0 α x
  takes : ∀ ⦃m r m'⦄, m.Hosts HostProg.Indifferent → x m = some (r, m') → ∃ k, x.Takes m k r m'

namespace Counts

/-- A run that never looks at the fuel takes none. -/
theorem blind (evolving : Evolving (fun _ => True) HostProg.Indifferent 0 α x) (blind : x.Blind) :
    Counts α x :=
  ⟨evolving, fun _ _ _ _ run => ⟨0, .free blind run⟩⟩

/-- Two runs count as one, if a trap of the first is only passed on: then running out in the
middle is seen at the end. -/
theorem andThen {f : Except Halt α → Run σ β} (first : Counts α x)
    (evolving : Evolving (fun _ => True) HostProg.Indifferent 0 β (x.andThen f))
    (returns : ∀ t, (f (.error (.trap t))).Returns t)
    (next : ∀ r, (∀ t, r ≠ .error (.trap t)) → Counts β (f r)) : Counts β (x.andThen f) := by
  refine ⟨evolving, fun m s m' hosts run => ?_⟩
  unfold Run.andThen at run
  cases head : x m with
  | none =>
    rw [head] at run
    cases run
  | some p =>
    obtain ⟨r, m₁⟩ := p
    obtain ⟨k, takes⟩ := first.takes hosts head
    rw [head] at run
    by_cases other : ∀ t, r ≠ .error (.trap t)
    · obtain ⟨l, takes'⟩ :=
        (next r other).takes ((first.evolving hosts (Nat.zero_le _) head).hosts hosts) run
      exact ⟨k + l, .andThen returns other takes takes'⟩
    · obtain ⟨t, trapped⟩ : ∃ t, r = .error (.trap t) := by simpa using other
      subst trapped
      exact ⟨k, .trapped returns takes run⟩

/-- What is bound, as what is made of the end of the first part. -/
theorem bind_eq_andThen (x : Run σ α) (k : α → Run σ β) : x >>= k = x.andThen fun
    | .ok a => k a
    | .error h => MonadExcept.throw h := by
  funext m
  rw [bind_apply, Run.andThen]
  cases x m with
  | none => rfl
  | some p =>
    obtain ⟨r, m'⟩ := p
    cases r <;> rfl

/-- Catching a halt is made of the end of the first part in the same way. -/
theorem tryCatch_eq_andThen (x : Run σ α) (k : Halt → Run σ α) : tryCatch x k = x.andThen fun
    | .ok a => Pure.pure a
    | .error h => k h := by
  funext m
  rw [tryCatch_apply, Run.andThen]
  cases x m with
  | none => rfl
  | some p =>
    obtain ⟨r, m'⟩ := p
    cases r <;> rfl

theorem bind {k : α → Run σ β} (first : Counts α x) (next : ∀ a, Counts β (k a)) :
    Counts β (x >>= k) := by
  have evolving := first.evolving.bind fun a => (next a).evolving
  rw [bind_eq_andThen] at evolving ⊢
  refine first.andThen evolving .throw fun r _ => ?_
  cases r with
  | ok a => exact next a
  | error h => exact .blind (.throw h) (.throw h)

theorem catching {k : Halt → Run σ α} (inner : Counts α x) (caught : ∀ h, Counts α (k h))
    (returns : ∀ t, (k (.trap t)).Returns t) : Counts α (tryCatch x k) := by
  have evolving := inner.evolving.catching fun h => (caught h).evolving
  rw [tryCatch_eq_andThen] at evolving ⊢
  refine inner.andThen evolving returns fun r _ => ?_
  cases r with
  | ok a => exact .blind (.pure a) (.pure a)
  | error h => exact caught h

theorem get {k : Machine σ → Run σ α} (free : ∀ m fuel, k (m.refuel fuel) = k m)
    (next : ∀ m, Counts α (k m)) : Counts α (MonadState.get >>= k) := by
  refine ⟨.get fun m => (next m).evolving, fun m r m' hosts run => ?_⟩
  obtain ⟨n, takes⟩ := (next m).takes hosts run
  refine ⟨n, .same (fun fuel => ?_) takes⟩
  change k (m.refuel fuel) (m.refuel fuel) = _
  rw [free]

/-- A function that is looked up may be one of the host, which is indifferent to fuel. -/
theorem getFunc {k : StoreFunc σ → Run σ α} (addr : Nat)
    (next : ∀ f : StoreFunc σ, f.Hosts HostProg.Indifferent → Counts α (k f)) :
    Counts α (Run.store (StoreM.getFunc addr) >>= k) := by
  refine ⟨.getFunc addr fun f own => (next f own).evolving, fun m _ _ hosts run => ?_⟩
  have blind : Blind (Run.store (StoreM.getFunc addr) : Run σ (StoreFunc σ)) := .store _
  have looked := getFunc_eq addr m
  rw [bind_apply, looked] at run
  rw [bind_eq_andThen]
  cases found : m.store.funcs[addr]? with
  | none =>
    rw [found] at run looked
    exact ⟨0, .trapped .throw (.free blind looked) run⟩
  | some f =>
    rw [found] at run looked
    obtain ⟨l, takes⟩ := (next f (hosts.stored f (Array.mem_of_getElem? found))).takes hosts run
    exact ⟨0 + l, .andThen .throw (fun _ same => by cases same) (.free blind looked) takes⟩

theorem closed : ClosedOnFrames (StoreFunc.Hosts HostProg.Indifferent)
    fun α (x : Unit → Run σ α) => Counts α (x ()) where
  pure a := .blind (.pure a) (.pure a)
  throw h := .blind (.throw h) (.throw h)
  bind := bind
  look free next := get (fun m fuel => free m fuel ()) next
  op op := .blind (Evolving.closed.op op) (.store _)
  func addr next := getFunc addr next
  charge := ⟨.charge, fun _ _ _ _ run => ⟨1, .charge run⟩⟩
  dispatch i := .blind (.dispatch i) (.dispatch i)
  popAll count := .blind (Evolving.closed.popAll count) (.act _)
  frames moves := .blind (Evolving.closed.frames moves) (.frames _)
  popFrame := .blind Evolving.closed.popFrame fun _ _ => rfl
  catching inner caught returns := inner.catching caught fun t => returns t ()

theorem allocate (name : String) (module : Module) (e : Externs) :
    Counts _ (Run.allocate name module e : Run σ (Nat × Nat × Nat × Nat)) :=
  .blind (.allocate name trivial e) (.allocate name module e)

theorem publish (inst : Nat) (name : String) : Counts Unit (Run.publish inst name : Run σ Unit) :=
  .blind (.publish inst name) fun _ _ => rfl

theorem fill (addr : Nat) (values : List Value) :
    Counts Unit (Run.store (StoreM.fillElem addr values) : Run σ Unit) :=
  .blind (.fill (Nat.zero_le _) values) (.store _)

section Entries

variable {enter : Enter σ} (entries : ∀ op : Entry, Counts _ (enter op))
include entries

/-- A host program that is indifferent to fuel spends what its entries spend. -/
theorem host {p : HostProg σ} (own : p.Indifferent) : Counts _ (Run.host enter p) := by
  have evolving {p : HostProg σ} (own : p.Indifferent) :
      Evolving (fun _ => True) HostProg.Indifferent 0 _ (Run.host enter p) :=
    .host (fun op _ _ => by cases op <;> trivial) (fun op _ => (entries op).evolving) own
  induction own with
  | done frame => exact closed.pure frame
  | halt reason => exact closed.throw reason
  | @access op next free _ ih =>
    have looked : Counts _ fun m : Machine σ =>
        some (.ok (op.perform m).1, (op.perform m).2) := by
      refine .blind (fun m _ _ _ _ run => ?_) fun m fuel => ?_
      · cases run
        exact (op.perform_alters m).evolves
      · dsimp only
        rw [op.perform_refuel free]
        rfl
    exact looked.bind ih
  | @enter op next returns all ih =>
    have split : Run.host enter (.enter op next)
        = (enter op).andThen fun reply => Run.host enter (next reply) := by
      funext m
      rw [host_enter, Run.andThen]
      cases enter op m <;> rfl
    rw [split]
    refine (entries op).andThen (split ▸ evolving (.enter returns all)) (fun t => ?_)
      fun reply _ => ih reply
    exact .host (returns t)
  | @register f next own _ _ ih =>
    have registers : Counts Unit (modify fun m : Machine σ => m.register f) := by
      refine .blind (fun m _ _ _ _ run => ?_) fun _ _ => rfl
      cases run
      exact .register own m
    exact registers.bind fun _ => ih
  | getState _ ih => exact get (fun _ _ => rfl) fun m => ih m.world
  | @setState s next _ ih =>
    have sets : Counts Unit (modify fun m : Machine σ => { m with world := s }) := by
      refine .blind (fun m _ _ _ _ run => ?_) fun _ _ => rfl
      cases run
      exact .world s m
    exact sets.bind fun _ => ih

theorem call (addr : Nat) : Counts Unit (Run.call enter addr) :=
  closed.call (fun _ => enter)
    (fun _ _ _ _ => bind (closed.popAll _) fun _ => .blind (.pushFrame _) fun _ _ => rfl)
    (fun _ own frame => host entries (own frame)) addr

theorem step : Counts Unit (Run.step enter) := closed.step (fun _ => enter) (call entries)

/-- A loop spends what its steps spend, by induction on its bound. -/
theorem stepWhile {more : Machine σ → Bool} (free : ∀ m fuel, more (m.refuel fuel) = more m)
    (bound : Nat) : Counts Unit (Run.stepWhile enter more bound) := by
  induction bound with
  | zero => exact ⟨fun _ _ _ _ _ run => by (cases run), fun _ _ _ _ run => by cases run⟩
  | succ bound ih =>
    refine get (fun m fuel => by rw [free]) fun m => ?_
    split
    · exact (step entries).bind fun _ => ih
    · exact closed.pure ()

theorem perform (bound : Nat) (op : Entry) : Counts _ (op.perform enter bound) :=
  closed.perform (fun _ => enter) (fun _ => bound) (call entries)
    (fun _ free => stepWhile entries free bound) op
    fun name module e _ constant invoke =>
      closed.toClosed.instantiate (fun _ => enter) (fun _ => bound) constant invoke
        (fun inst => publish inst name) (allocate name module e) fill

end Entries

end Counts

end Run

/-- Every entry that ends has taken a number of steps. -/
theorem Machine.enter_counts (bound : Nat) (op : Entry) :
    Run.Counts _ (Machine.enter bound op : Run σ op.Reply) := by
  induction bound generalizing op with
  | zero => exact ⟨fun _ _ _ _ _ run => by (cases run), fun _ _ _ _ run => by cases run⟩
  | succ bound ih => exact Run.Counts.perform ih bound op

end WasmMachine
