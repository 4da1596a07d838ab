import WasmMachine.Proofs.Accesses
import WasmMachine.Proofs.Families
import WasmMachine.Proofs.Programs

/-!
# How a machine evolves

Whatever runs on a machine, what becomes of it is put together from a few kinds of change: to the
frames, the fuel and the embedder's state; to the store, by one of its operations; linking and
registering a host function; and the stages of instantiating a module (`Machine.Evolves`).  Every
entry evolves its machine so (`Machine.enter_evolves`), so that a property of machines that each
kind of change keeps is kept by everything that runs.
-/

namespace WasmMachine

variable {σ α β : Type}

/-- Host functions whose programs have a property. -/
def StoreFunc.Hosts (G : HostProg σ → Prop) : StoreFunc σ → Prop
  | .module _ => True
  | .host f => ∀ frame, G (f.body frame)

/-- A machine whose host functions all have programs with a property, the registered ones
included. -/
structure Machine.Hosts (G : HostProg σ → Prop) (m : Machine σ) : Prop where
  stored : ∀ f ∈ m.store.funcs, f.Hosts G
  registered : ∀ (key : String) (f : HostFunc σ), m.hostFuncs[key]? = some f →
    (StoreFunc.host f).Hosts G

/-- Entries that bring in modules of one kind alone. -/
def Entry.Brings (Q : Module → Prop) : Entry → Prop
  | .instantiate _ module _ => Q module
  | _ => True

/-- What can become of a machine that brings in modules of one kind alone, and host functions
whose programs have some property, and that fills only some of its element segments. -/
inductive Machine.Evolves (Q : Module → Prop) (G : HostProg σ → Prop) (F : Nat → Prop) :
    Machine σ → Machine σ → Prop
  | refl (m : Machine σ) : Evolves Q G F m m
  | trans {m₁ m₂ m₃ : Machine σ} : Evolves Q G F m₁ m₂ → Evolves Q G F m₂ m₃ → Evolves Q G F m₁ m₃
  | frames (fs : Array Frame) (m : Machine σ) : Evolves Q G F m { m with frames := fs }
  | fuel (n : Option UInt64) (m : Machine σ) : Evolves Q G F m (m.refuel n)
  | world (s : σ) (m : Machine σ) : Evolves Q G F m { m with world := s }
  | store {α : Type} {x : StoreM σ α} : StoreM.Op x → ∀ m, Evolves Q G F m { m with
      store := stateAfter (x m.store) }
  | link {m : Machine σ} {key : String} {f : HostFunc σ} : m.hostFuncs[key]? = some f →
    Evolves Q G F m (m.addFunc (.host f)).2
  | register {f : HostFunc σ} : (StoreFunc.host f).Hosts G → ∀ m, Evolves Q G F m (m.register f)
  | abandon {m : Machine σ} {name : String} {module : Module} {e : Externs} {t : Trap} :
    Q module → m.checkImports module e = .ok () →
    (Instance.allocated m.store module m.instances.size name e).addExports module.exports
      = .error t →
    Evolves Q G F m { m with store := m.store.allocate module m.instances.size name }
  | allocate {m : Machine σ} {name : String} {module : Module} {e : Externs} {i : Instance} :
    Q module → m.checkImports module e = .ok () →
    (Instance.allocated m.store module m.instances.size name e).addExports module.exports =
      .ok i →
    Evolves Q G F m { m with
      store := m.store.allocate module m.instances.size name
      instances := m.instances.push i }
  | fill {addr : Nat} : F addr → ∀ (values : List Value) (m : Machine σ), Evolves Q G F m { m with
      store := stateAfter (StoreM.fillElem addr values m.store) }
  | publish (inst : Nat) (name : String) (m : Machine σ) : Evolves Q G F m { m with
      instances := m.instances.modify inst fun i => { i with ready := true }
      names := m.names.insert name inst }

variable {Q : Module → Prop} {G : HostProg σ → Prop} {F : Nat → Prop} {m m' : Machine σ}

/-! ## Element segments -/

/-- No operation but the filling of a segment does more to element segments than drop them. -/
theorem StoreM.Op.elems_kept {x : StoreM σ α} (op : StoreM.Op x) (s : Store σ) :
    (stateAfter (x s)).elems.size = s.elems.size ∧ ∀ a : Nat,
      (stateAfter (x s)).elems[a]? = s.elems[a]? ∨ (stateAfter (x s)).elems[a]? = some none := by
  have unchanged {s' : Store σ} (eq : s'.elems = s.elems) : s'.elems.size = s.elems.size ∧
      ∀ a : Nat, s'.elems[a]? = s.elems[a]? ∨ s'.elems[a]? = some none :=
    ⟨congrArg Array.size eq, fun a => .inl (congrArg (·[a]?) eq)⟩
  cases op with
  | @gets _ f _ =>
    unfold StoreM.gets
    cases f s <;> exact unchanged rfl
  | setGlobal addr v =>
    unfold StoreM.setGlobal
    split <;> exact unchanged rfl
  | dropElem addr =>
    refine ⟨Array.size_setIfInBounds, fun a => ?_⟩
    change (s.elems.setIfInBounds addr none)[a]? = _ ∨ (s.elems.setIfInBounds addr none)[a]? = _
    rw [Array.getElem?_setIfInBounds]
    by_cases here : addr = a
    · subst here
      by_cases there : addr < s.elems.size
      · exact .inr (by simp [there])
      · exact .inl (by simp [there])
    · exact .inl (if_neg here)
  | dropData addr => exact unchanged rfl
  | onTable addr op =>
    refine unchanged ?_
    rcases Nat.lt_or_ge addr s.tables.size with lt | le
    · rw [StoreM.onTable_of_lt lt]
      split <;> rfl
    · rw [StoreM.onTable_of_le le]
      rfl
  | onMemory addr op =>
    refine unchanged ?_
    rcases Nat.lt_or_ge addr s.memories.size with lt | le
    · rw [StoreM.onMemory_of_lt lt]
      split <;> rfl
    · rw [StoreM.onMemory_of_le le]
      rfl

namespace Machine

/-- A segment that is not filled stays as it is, or is dropped, and none goes away. -/
theorem Evolves.elems_kept (evolves : m.Evolves Q G F m') :
    m.store.elems.size ≤ m'.store.elems.size ∧ ∀ a < m.store.elems.size, ¬ F a →
      m'.store.elems[a]? = m.store.elems[a]? ∨ m'.store.elems[a]? = some none := by
  induction evolves with
  | refl | frames | fuel | world | link | register | publish =>
    exact ⟨Nat.le_refl _, fun a _ _ => .inl rfl⟩
  | trans _ _ first second =>
    refine ⟨Nat.le_trans first.1 second.1, fun a there free => ?_⟩
    obtain kept | dropped := second.2 a (Nat.lt_of_lt_of_le there first.1) free
    · rw [kept]
      exact first.2 a there free
    · exact .inr dropped
  | store op m =>
    obtain ⟨size, kept⟩ := op.elems_kept m.store
    exact ⟨Nat.le_of_eq size.symm, fun a _ _ => kept a⟩
  | abandon | allocate =>
    simp only [Store.allocate, Array.append_list]
    refine ⟨?_, fun a there _ => .inl (Array.getElem?_append_left there)⟩
    rw [Array.size_append]
    exact Nat.le_add_right _ _
  | @fill addr filled values m =>
    have size : (m.store.elems.modify addr (Option.map fun e => { e with values })).size =
        m.store.elems.size := Array.size_modify
    refine ⟨Nat.le_of_eq size.symm, fun a there free => .inl ?_⟩
    change (m.store.elems.modify addr _)[a]? = _
    rw [Array.getElem?_modify, if_neg]
    rintro rfl
    exact free filled

theorem Hosts.of_same (hosts : m.Hosts G) (funcs : m'.store.funcs = m.store.funcs)
    (registered : m'.hostFuncs = m.hostFuncs) : m'.Hosts G :=
  ⟨funcs ▸ hosts.stored, registered ▸ hosts.registered⟩

/-- What an access does is a way to evolve. -/
theorem Alters.evolves (alters : m.Alters m') : m.Evolves Q G F m' := by
  induction alters with
  | refl m => exact .refl m
  | trans _ _ first second => exact first.trans second
  | @store α x op m =>
    have evolves : m.Evolves Q G F { m with store := stateAfter (x m.store) } := .store op m
    rw [onStore_eq]
    cases result : x m.store <;> rw [result] at evolves <;> exact evolves
  | fuel n m => exact .fuel n m
  | link found => exact .link found

/-- What a module defines joins the functions, and it is not a host function. -/
theorem Hosts.allocate (hosts : m.Hosts G) (module : Module) (inst : Nat) (name : String) :
    Hosts G { m with store := m.store.allocate module inst name } := by
  refine ⟨fun f mem => ?_, hosts.registered⟩
  obtain before | ⟨g, _, rfl⟩ := Store.mem_funcs_allocate mem
  · exact hosts.stored f before
  · trivial

/-- Host functions keep obeying: those that are added obey as well. -/
theorem Evolves.hosts (evolves : m.Evolves Q G F m') (hosts : m.Hosts G) : m'.Hosts G := by
  induction evolves with
  | refl => exact hosts
  | trans _ _ first second => exact second (first hosts)
  | frames | fuel | world | fill | publish => exact hosts.of_same rfl rfl
  | store op m => exact hosts.of_same (op.funcs_eq _) rfl
  | @link m key f found =>
    refine ⟨fun g mem => ?_, hosts.registered⟩
    obtain before | rfl := Array.mem_push.mp mem
    · exact hosts.stored g before
    · exact hosts.registered key f found
  | @register f own m =>
    refine ⟨hosts.stored, fun key g found => ?_⟩
    obtain rfl | before := eq_or_found_of_register found
    · exact own
    · exact hosts.registered key g before
  | abandon => exact hosts.allocate _ _ _
  | allocate => exact (hosts.allocate _ _ _).of_same rfl rfl

/-- The limits of a machine never change. -/
theorem Evolves.config_eq (evolves : m.Evolves Q G F m') : m'.config = m.config := by
  induction evolves with
  | trans _ _ first second => exact second.trans first
  | _ => rfl

end Machine

/-! ## Runs that evolve their machine -/

/-- What an instantiation does before it runs any code. -/
theorem Run.allocate_eq (name : String) (module : Module) (e : Externs) (m : Machine σ) :
    Run.allocate name module e m = match m.checkImports module e with
      | .error t => some (.error (.trap t), m)
      | .ok () =>
        match (Instance.allocated m.store module m.instances.size name e).addExports
            module.exports with
        | .error t => some (.error (.trap t), { m with
            store := m.store.allocate module m.instances.size name })
        | .ok i =>
          some (.ok (m.instances.size, m.store.globals.size, m.store.elems.size,
            m.store.datas.size),
            { m with
              store := m.store.allocate module m.instances.size name
              instances := m.instances.push i }) := by
  rw [allocate, get_bind]
  cases m.checkImports module e with
  | error t => rfl
  | ok u =>
    dsimp only [ofExcept]
    rw [pure_bind]
    iterate 5 rw [get_bind]
    rw [modify_bind]
    cases (Instance.allocated m.store module m.instances.size name e).addExports
      module.exports with
    | error t => rfl
    | ok i => rfl

/-- What a plain act does to a store, an evolving machine can do to its own. -/
theorem Act.Plain.evolves {x : Act σ α} (plain : x.Plain) (a : Activation σ) (m : Machine σ)
    (same : m.store = a.store) :
    m.Evolves Q G F { m with store := (stateAfter (x a)).store } := by
  have unchanged {s : Store σ} (eq : s = a.store) : m.Evolves Q G F { m with store := s } := by
    rw [eq, ← same]
    exact .refl m
  induction plain generalizing a m with
  | pure | throw | push => exact unchanged rfl
  | @ofExcept α r _ => cases r <;> exact unchanged rfl
  | @bind α β x k _ _ first next =>
    have evolves := first a m same unchanged
    change m.Evolves Q G F { m with store := (stateAfter (EStateM.bind x k a)).store }
    unfold EStateM.bind
    cases result : x a with
    | ok v b =>
      rw [result] at evolves
      exact evolves.trans (next v b { m with store := b.store } rfl fun eq => eq ▸ .refl _)
    | error t b =>
      rw [result] at evolves
      exact evolves
  | pop =>
    refine unchanged ?_
    simp only [Act.onFrame, FrameM.pop]
    by_cases some : 0 < a.frame.stack.size <;> simp [some, stateAfter]
  | peek =>
    refine unchanged ?_
    simp only [Act.onFrame, FrameM.peek]
    by_cases some : 0 < a.frame.stack.size <;> simp [some, stateAfter]
  | getLocal idx =>
    refine unchanged ?_
    simp only [Act.onFrame, FrameM.getLocal]
    cases a.frame.locals[idx]? <;> rfl
  | setLocal idx v =>
    refine unchanged ?_
    simp only [Act.onFrame, FrameM.setLocal]
    by_cases found : idx < a.frame.locals.size <;> simp [found, stateAfter]
  | @onStore α x op =>
    have evolves : m.Evolves Q G F { m with store := stateAfter (x m.store) } := .store op m
    rw [same] at evolves
    simp only [Act.onStore]
    cases result : x a.store <;> rw [result] at evolves <;> exact evolves

/-- Machines whose host functions have the property evolve under a run, however it ends. What was
there of their first element segments before the run is not filled. -/
def Run.Evolving (Q : Module → Prop) (G : HostProg σ → Prop) (b : Nat) (α : Type) (x : Run σ α) :
    Prop :=
  ∀ ⦃m r m'⦄, m.Hosts G → b ≤ m.store.elems.size → x m = some (r, m') → m.Evolves Q G (b ≤ ·) m'

namespace Run.Evolving

variable {x : Run σ α} {b : Nat}

theorem pure (a : α) : Evolving Q G b α (Pure.pure a) := by
  intro m r m' _ _ run
  cases run
  exact .refl m

theorem throw (h : Halt) : Evolving Q G b α (MonadExcept.throw h) := by
  intro m r m' _ _ run
  cases run
  exact .refl m

/-- A machine evolves through the first run, and goes on from there. -/
theorem bind {k : α → Run σ β} (first : Evolving Q G b α x) (next : ∀ a, Evolving Q G b β (k a)) :
    Evolving Q G b β (x >>= k) := by
  intro m r m' hosts floor run
  rcases bind_cases run with ⟨h, head, -⟩ | ⟨a, m₁, head, run⟩
  · exact first hosts floor head
  · have evolves := first hosts floor head
    exact evolves.trans (next a (evolves.hosts hosts)
      (Nat.le_trans floor evolves.elems_kept.1) run)

theorem catching {k : Halt → Run σ α} (inner : Evolving Q G b α x)
    (caught : ∀ h, Evolving Q G b α (k h)) : Evolving Q G b α (tryCatch x k) := by
  intro m r m' hosts floor run
  rcases tryCatch_cases run with ⟨a, head, -⟩ | ⟨h, m₁, head, run⟩
  · exact inner hosts floor head
  · have evolves := inner hosts floor head
    exact evolves.trans (caught h (evolves.hosts hosts)
      (Nat.le_trans floor evolves.elems_kept.1) run)

theorem get {k : Machine σ → Run σ α} (next : ∀ m, Evolving Q G b α (k m)) :
    Evolving Q G b α (MonadState.get >>= k) := fun m _ _ hosts floor run => next m hosts floor run

theorem store {x : StoreM σ α} (op : ∀ m : Machine σ, m.Evolves Q G (b ≤ ·) { m with
    store := stateAfter (x m.store) }) : Evolving Q G b α (Run.store x) := by
  intro m r m' _ _ run
  have evolves := op m
  rw [store_eq] at run
  cases result : x m.store <;> rw [result] at run evolves <;> cases run <;> exact evolves

theorem getFunc {k : StoreFunc σ → Run σ α} (addr : Nat)
    (next : ∀ f : StoreFunc σ, f.Hosts G → Evolving Q G b α (k f)) :
    Evolving Q G b α (Run.store (StoreM.getFunc addr) >>= k) := by
  intro m r m' hosts floor run
  rw [bind_apply, getFunc_eq] at run
  cases found : m.store.funcs[addr]? with
  | none =>
    rw [found] at run
    cases run
    exact .refl m
  | some f =>
    rw [found] at run
    exact next f (hosts.stored f (Array.mem_of_getElem? found)) hosts floor run

theorem charge : Evolving Q G b Unit Run.charge := by
  intro m r m' _ _ run
  rw [charge_eq] at run
  cases paid : m.paying 1 with
  | none =>
    rw [paid] at run
    cases run
    exact .refl m
  | some m₁ =>
    rw [paid] at run
    cases run
    rw [Machine.paying_eq paid]
    exact .fuel _ m

theorem act {x : Act σ α} (acts : ∀ (a : Activation σ) (m : Machine σ), m.store = a.store →
    m.Evolves Q G (b ≤ ·) { m with store := (stateAfter (x a)).store }) :
    Evolving Q G b α (Run.act x) := by
  intro m r m' _ _ run
  by_cases empty : m.frames = #[]
  · rw [act_empty empty] at run
    cases run
    exact .refl m
  · obtain ⟨outer, f, top⟩ := Array.exists_push_of_ne_empty empty
    have evolves := acts ⟨f, m.store⟩ m rfl
    rw [act_push top] at run
    cases result : x ⟨f, m.store⟩ <;> rw [result] at run evolves <;> cases run <;>
      exact evolves.trans (.frames _ _)

/-- An instruction acts on the store by its operations. -/
theorem dispatch (i : Instr) : Evolving Q G b Flow (Run.dispatch i) := by
  refine bind (fun m r m' _ _ run => ?_) fun inst => act fun a m same => ?_
  · rw [currentInstance_eq] at run
    split at run
    · cases run
      exact .refl m
    · split at run <;> cases run <;> exact .refl m
  · have same' : m.store = (⟨{ a.frame with pc := a.frame.pc + 1 },
        a.store⟩ : Activation σ).store :=
      same
    change m.Evolves Q G (b ≤ ·) { m with store :=
      (stateAfter (i.exec inst ⟨{ a.frame with pc := a.frame.pc + 1 }, a.store⟩)).store }
    cases control : i.isControl with
    | false => exact (i.exec_plain inst control).evolves _ m same'
    | true =>
      rw [(Instr.exec_control inst control _).2, ← same']
      exact .refl m

/-- All that calls and steps are made of evolves the machine. -/
theorem closed : ClosedOnFrames (StoreFunc.Hosts G)
    fun α (x : Unit → Run σ α) => Evolving Q G b α (x ()) where
  pure := pure
  throw := throw
  bind := bind
  look _ := get
  op op := store fun m => .store op m
  func addr next := getFunc addr next
  charge := charge
  dispatch := dispatch
  popAll count := act fun a m same => by
    have kept : (stateAfter ((liftM (FrameM.popAll count) : Act σ (Array Value)) a)).store
        = m.store := by
      rw [same]
      change (stateAfter (Act.onFrame (FrameM.popAll count) a)).store = _
      dsimp only [Act.onFrame, FrameM.popAll]
      cases a.frame.top? count <;> rfl
    rw [kept]
    exact .refl m
  frames _ := by
    intro m r m' _ _ run
    cases run
    exact .frames _ m
  popFrame := by
    intro m r m' _ _ run
    cases run
    exact .frames _ m
  catching inner caught _ := catching inner caught

theorem pushFrame (f : Frame) : Evolving Q G b Unit (Run.pushFrame f) := by
  intro m r m' _ _ run
  cases run
  exact .frames _ m

theorem allocate (name : String) {module : Module} (kind : Q module) (e : Externs) :
    Evolving Q G b _ (Run.allocate name module e) := by
  intro m r m' _ _ run
  rw [allocate_eq] at run
  split at run
  · cases run
    exact .refl m
  · next checked =>
    split at run
    · next exports =>
      cases run
      exact .abandon kind checked exports
    · next exports =>
      cases run
      exact .allocate kind checked exports

/-- What follows an allocation fills none of the element segments that were there before it. -/
theorem allocate_bind (name : String) {module : Module} (kind : Q module) (e : Externs)
    {k : Nat × Nat × Nat × Nat → Run σ α}
    (rest : ∀ inst global elem data, b ≤ elem → Evolving Q G b α (k (inst, global, elem, data))) :
    Evolving Q G b α (Run.allocate name module e >>= k) := by
  intro m r m' hosts floor run
  rcases bind_cases run with ⟨h, allocated, -⟩ | ⟨places, m₁, allocated, run⟩
  · exact allocate name kind e hosts floor allocated
  · have evolves := allocate name kind e hosts floor allocated
    have here : b ≤ places.2.2.1 := by
      rw [allocate_eq] at allocated
      split at allocated
      · cases allocated
      · split at allocated <;> cases allocated
        exact floor
    refine evolves.trans (rest _ _ _ _ here (evolves.hosts hosts) ?_ run)
    exact Nat.le_trans floor evolves.elems_kept.1

theorem fill {addr : Nat} (above : b ≤ addr) (values : List Value) :
    Evolving Q G b Unit (Run.store (StoreM.fillElem addr values)) :=
  store fun m => .fill above values m

theorem publish (inst : Nat) (name : String) : Evolving Q G b Unit (Run.publish inst name) := by
  intro m r m' _ _ run
  cases run
  exact .publish inst name m

/-! ### Entries -/

section Entries

variable {A : Access → Prop} {E : (op : Entry) → (Except Halt op.Reply → HostProg σ) → Prop}
  (kinds : ∀ op next, E op next → op.Brings Q) {enter : Enter σ}
  (entries : ∀ op : Entry, op.Brings Q → Evolving Q (HostProg.Obeys A E) b _ (enter op))
include kinds entries

/-- A host program that obeys evolves the machine, in view of its accesses and entries. -/
theorem host {p : HostProg σ} (obeys : p.Obeys A E) :
    Evolving Q (HostProg.Obeys A E) b _ (Run.host enter p) := by
  have after {m m₁ m' : Machine σ} {p : HostProg σ} {r : Except Halt Frame}
      (ih : Evolving Q (HostProg.Obeys A E) b _ (Run.host enter p))
      (hosts : m.Hosts (HostProg.Obeys A E)) (floor : b ≤ m.store.elems.size)
      (evolves : m.Evolves Q (HostProg.Obeys A E) (b ≤ ·) m₁)
      (run : Run.host enter p m₁ = some (r, m')) : m.Evolves Q (HostProg.Obeys A E) (b ≤ ·) m' :=
    evolves.trans (ih (evolves.hosts hosts) (Nat.le_trans floor evolves.elems_kept.1) run)
  induction obeys with
  | done frame => exact pure frame
  | halt reason => exact throw reason
  | @access op next _ _ ih =>
    exact fun m r m' hosts floor run => after (ih _) hosts floor (op.perform_alters m).evolves run
  | @enter op next own _ ih =>
    intro m r m' hosts floor run
    obtain ⟨reply, m₁, entered, run⟩ := host_enter_cases run
    exact after (ih _) hosts floor (entries op (kinds op next own) hosts floor entered) run
  | @register f next own _ _ ih =>
    exact fun m r m' hosts floor run => after ih hosts floor (.register own m) run
  | @getState next _ ih => exact fun m r m' hosts floor run => ih m.world hosts floor run
  | setState s _ ih =>
    exact fun m r m' hosts floor run => after ih hosts floor (.world s m) run

theorem call (addr : Nat) : Evolving Q (HostProg.Obeys A E) b Unit (Run.call enter addr) :=
  closed.call (fun _ => enter)
    (fun _ _ _ _ => bind (closed.popAll _) fun _ => pushFrame _)
    (fun _ own frame => host kinds entries (own frame)) addr

theorem step : Evolving Q (HostProg.Obeys A E) b Unit (Run.step enter) :=
  closed.step (fun _ => enter) (call kinds entries)

theorem stepWhile (more : Machine σ → Bool) (bound : Nat) :
    Evolving Q (HostProg.Obeys A E) b Unit (Run.stepWhile enter more bound) := by
  induction bound with
  | zero =>
    intro m r m' _ _ run
    cases run
  | succ bound ih =>
    refine get fun m => ?_
    split
    · exact bind (step kinds entries) fun _ => ih
    · exact pure ()

/-- Every entry evolves the machine, if what it brings in is of the kind that is asked for. -/
theorem perform (bound : Nat) {op : Entry} (brings : op.Brings Q) :
    Evolving Q (HostProg.Obeys A E) b _ (op.perform enter bound) := by
  refine closed.perform (fun _ => enter) (fun _ => bound) (call kinds entries)
    (fun more _ => stepWhile kinds entries more bound) op
    fun name module e same constant invoke => ?_
  subst same
  simp only [instantiate_eq_setUp]
  refine allocate_bind name brings e fun inst global elem data above => ?_
  exact closed.toClosed.setUp (fun _ => enter) (fun _ => bound) constant invoke
    (fun inst => publish inst name) module inst global elem data
    fun addr le => fill (Nat.le_trans above le)

end Entries

end Run.Evolving

/-- Every entry evolves a machine whose host functions keep to a rule: it brings in modules of the
kind that it is about itself, or that the rule allows, and fills no element segment that was there
before it. -/
theorem Machine.enter_evolves {A : Access → Prop}
    {E : (op : Entry) → (Except Halt op.Reply → HostProg σ) → Prop} {b : Nat}
    (kinds : ∀ op next, E op next → op.Brings Q) (bound : Nat) {op : Entry}
    (brings : op.Brings Q) :
    Run.Evolving Q (HostProg.Obeys A E) b _ (Machine.enter bound op) := by
  induction bound generalizing op with
  | zero =>
    intro m r m' _ _ run
    cases run
  | succ bound ih => exact Run.Evolving.perform kinds (fun op brings => ih brings) bound brings

end WasmMachine
