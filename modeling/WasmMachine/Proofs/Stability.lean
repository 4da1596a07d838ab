import WasmMachine.Proofs.Guarded
import WasmMachine.Proofs.Ownership

/-!
# Addresses are stable

Whatever happens on a machine, an address goes on denoting what it denoted (`Machine.Stable`):
functions are the same, tables and memories keep their types and only grow, dropped segments stay
dropped, and instances change in nothing but getting ready.  Each kind of change that a machine
can undergo is stable, hence everything that runs on it (`Machine.always_stable`).

`Machine.Later` is the relation of a machine to whatever can become of it.
-/

namespace WasmMachine

variable {σ α : Type}

/-! ## Lists -/

/-- A list in which something has a property has a last thing that has it. -/
theorem List.exists_last {α : Type} {P : α → Prop} {xs : List α} (some : ∃ x ∈ xs, P x) :
    ∃ before x after, xs = before ++ x :: after ∧ P x ∧ ∀ y ∈ after, ¬ P y := by
  induction xs with
  | nil =>
    obtain ⟨x, mem, -⟩ := some
    cases mem
  | cons x xs ih =>
    by_cases later : ∃ y ∈ xs, P y
    · obtain ⟨before, y, after, rfl, holds, last⟩ := ih later
      exact ⟨x :: before, y, after, rfl, holds, last⟩
    · obtain ⟨y, mem, holds⟩ := some
      rcases List.mem_cons.mp mem with rfl | there
      · exact ⟨[], y, xs, rfl, holds, fun z mem other => later ⟨z, mem, other⟩⟩
      · exact absurd ⟨y, there, holds⟩ later

/-- Every item of one list has, at its position in another list, an item that it is related to. -/
def Array.Keeps (R : α → α → Prop) (xs ys : Array α) : Prop :=
  ∀ (i : Nat) (x : α), xs[i]? = some x → ∃ y, ys[i]? = some y ∧ R x y

namespace Array.Keeps

variable {R : α → α → Prop} {xs ys zs : Array α}

theorem refl (same : ∀ x, R x x) (xs : Array α) : Keeps R xs xs :=
  fun _ x there => ⟨x, there, same x⟩

theorem trans (chain : ∀ {x y z}, R x y → R y z → R x z) (first : Keeps R xs ys)
    (second : Keeps R ys zs) : Keeps R xs zs := by
  intro i x there
  obtain ⟨y, there, left⟩ := first i x there
  obtain ⟨z, there, right⟩ := second i y there
  exact ⟨z, there, chain left right⟩

/-- An array that keeps its items has not become shorter. -/
theorem size_le (keeps : Keeps R xs ys) : xs.size ≤ ys.size := by
  rcases Nat.lt_or_ge ys.size xs.size with shorter | le
  · obtain ⟨y, there, -⟩ := keeps ys.size _ (Array.getElem?_eq_getElem shorter)
    rw [Array.getElem?_eq_none (Nat.le_refl _)] at there
    cases there
  · exact le

/-- Appending keeps all items. -/
theorem append (same : ∀ x, R x x) (xs : Array α) (more : List α) : Keeps R xs (xs ++ more) := by
  intro i x there
  have lt := (Array.getElem?_eq_some_iff.mp there).1
  rw [Array.append_list]
  exact ⟨x, (Array.getElem?_append_left lt).trans there, same x⟩

theorem push (same : ∀ x, R x x) (xs : Array α) (last : α) : Keeps R xs (xs.push last) := by
  intro i x there
  obtain ⟨lt, rfl⟩ := Array.getElem?_eq_some_iff.mp there
  exact ⟨_, Array.getElem?_push_lt lt, same _⟩

/-- So does changing one, if the change is one that may be made. -/
theorem modify (same : ∀ x, R x x) (xs : Array α) (i : Nat) {g : α → α}
    (changed : ∀ x, R x (g x)) :
    Keeps R xs (xs.modify i g) := by
  intro j x there
  rw [Array.getElem?_modify, there]
  split
  · exact ⟨g x, rfl, changed x⟩
  · exact ⟨x, rfl, same x⟩

theorem setIfInBounds (same : ∀ x, R x x) (xs : Array α) (i : Nat) {y : α}
    (changed : ∀ x, xs[i]? = some x → R x y) : Keeps R xs (xs.setIfInBounds i y) := by
  intro j x there
  rw [Array.getElem?_setIfInBounds]
  by_cases here : i = j
  · subst here
    exact ⟨y, by simp [(Array.getElem?_eq_some_iff.mp there).1], changed x there⟩
  · rw [if_neg here]
    exact ⟨x, there, same x⟩

end Array.Keeps

/-! ## What addresses denote -/

/-- A table of the same type that is no shorter. -/
structure Table.Grows (t t' : Table) : Prop where
  type : t'.type = t.type
  size : t.size ≤ t'.size

/-- A memory with the same limits that is no shorter. -/
structure Memory.Grows (m m' : Memory) : Prop where
  limits : m'.limits = m.limits
  size : m.size ≤ m'.size

/-- A segment that is still dropped if it was. -/
def ElemInstance.StaysDropped (e e' : Option ElemInstance) : Prop := e = none → e' = none

/-- A data segment that has its bytes still, or is dropped. -/
def DataStays (d d' : Option (List UInt8)) : Prop := d' = d ∨ d' = none

/-- An instance that differs in nothing but being ready, and is ready if it was. -/
structure Instance.Settles (i i' : Instance) : Prop where
  same : i' = { i with ready := i'.ready }
  ready : i.ready = true → i'.ready = true

/-- A store in which every address denotes what it denoted in another. -/
structure Store.Stable (s s' : Store σ) : Prop where
  funcs : Array.Keeps (· = ·) s.funcs s'.funcs
  tables : Array.Keeps Table.Grows s.tables s'.tables
  memories : Array.Keeps Memory.Grows s.memories s'.memories
  globals : s.globals.size ≤ s'.globals.size
  elems : Array.Keeps ElemInstance.StaysDropped s.elems s'.elems
  datas : Array.Keeps DataStays s.datas s'.datas

/-- A machine whose addresses and instances are those of another. -/
structure Machine.Stable (m m' : Machine σ) : Prop where
  store : m.store.Stable m'.store
  instances : Array.Keeps Instance.Settles m.instances m'.instances

theorem Table.Grows.refl (t : Table) : t.Grows t := ⟨rfl, Nat.le_refl _⟩

/-- A table that has grown may grow again. -/
theorem Table.Grows.trans {t t' t'' : Table} (first : t.Grows t') (second : t'.Grows t'') :
    t.Grows t'' :=
  ⟨second.type.trans first.type, Nat.le_trans first.size second.size⟩

theorem Memory.Grows.refl (m : Memory) : m.Grows m := ⟨rfl, Nat.le_refl _⟩

theorem Memory.Grows.trans {m m' m'' : Memory} (first : m.Grows m') (second : m'.Grows m'') :
    m.Grows m'' :=
  ⟨second.limits.trans first.limits, Nat.le_trans first.size second.size⟩

theorem ElemInstance.StaysDropped.refl (e : Option ElemInstance) : StaysDropped e e := id

theorem DataStays.refl (d : Option (List UInt8)) : DataStays d d := .inl rfl

/-- A data segment stays or is dropped, and does not come back. -/
theorem DataStays.trans {d d' d'' : Option (List UInt8)} (first : DataStays d d')
    (second : DataStays d' d'') : DataStays d d'' := by
  rcases second with same | dropped
  · exact same ▸ first
  · exact .inr dropped

theorem Instance.Settles.refl (i : Instance) : i.Settles i := ⟨rfl, id⟩

theorem Instance.Settles.trans {i i' i'' : Instance} (first : i.Settles i')
    (second : i'.Settles i'') : i.Settles i'' :=
  ⟨by rw [second.same, first.same], second.ready ∘ first.ready⟩

theorem Store.Stable.refl (s : Store σ) : s.Stable s where
  funcs := .refl (fun _ => rfl) _
  tables := .refl .refl _
  memories := .refl .refl _
  globals := Nat.le_refl _
  elems := .refl .refl _
  datas := .refl .refl _

theorem Store.Stable.trans {s s' s'' : Store σ} (first : s.Stable s') (second : s'.Stable s'') :
    s.Stable s'' where
  funcs := first.funcs.trans Eq.trans second.funcs
  tables := first.tables.trans .trans second.tables
  memories := first.memories.trans .trans second.memories
  globals := Nat.le_trans first.globals second.globals
  elems := first.elems.trans (fun left right => right ∘ left) second.elems
  datas := first.datas.trans .trans second.datas

namespace Machine.Stable

variable {m m' m'' : Machine σ}

theorem refl (m : Machine σ) : m.Stable m := ⟨.refl _, .refl .refl _⟩

theorem trans (first : m.Stable m') (second : m'.Stable m'') : m.Stable m'' :=
  ⟨first.store.trans second.store, first.instances.trans .trans second.instances⟩

/-- A change of the store alone. -/
theorem of_store (store : m.store.Stable m'.store) (instances : m'.instances = m.instances) :
    m.Stable m' :=
  ⟨store, instances ▸ .refl .refl _⟩

end Machine.Stable

/-! ## Operations on the store -/

/-- A table whose size is the same, or to which slots have been added as far as its limits allow
it. -/
structure Table.Resizes (t t' : Table) : Prop where
  type : t'.type = t.type
  size : t'.size = t.size ∨ ∃ delta, t.size + delta ≤ t.maxSize ∧ t'.size = t.size + delta

/-- A memory whose size is the same, or to which pages have been added as far as its limits allow
it. -/
structure Memory.Resizes (m m' : Memory) : Prop where
  limits : m'.limits = m.limits
  size : m'.size = m.size ∨
    ∃ delta, m.pages + delta ≤ m.maxPages ∧ m'.size = m.size + delta * pageSize

theorem Table.Resizes.refl (t : Table) : t.Resizes t := ⟨rfl, .inl rfl⟩

theorem Memory.Resizes.refl (m : Memory) : m.Resizes m := ⟨rfl, .inl rfl⟩

theorem Table.Resizes.grows {t t' : Table} (resizes : t.Resizes t') : t.Grows t' := by
  refine ⟨resizes.type, ?_⟩
  rcases resizes.size with same | ⟨delta, -, more⟩
  · exact Nat.le_of_eq same.symm
  · rw [more]
    exact Nat.le_add_right _ _

theorem Memory.Resizes.grows {m m' : Memory} (resizes : m.Resizes m') : m.Grows m' := by
  refine ⟨resizes.limits, ?_⟩
  rcases resizes.size with same | ⟨delta, -, more⟩
  · exact Nat.le_of_eq same.symm
  · rw [more]
    exact Nat.le_add_right _ _

theorem Table.write_resizes (pos : Nat) (vs : List Value) (t : Table) :
    t.Resizes (stateAfter (Table.write pos vs t)) := by
  unfold Table.write
  split
  · exact ⟨rfl, .inl (size_overwriteItems _ _ _)⟩
  · exact .refl t

/-- Only growing changes the size of a table, and this within what its type allows. -/
theorem Table.Op.resizes {x : EStateM Trap Table α} (op : Table.Op x) (t : Table) :
    t.Resizes (stateAfter (x t)) := by
  cases op with
  | look f => exact .refl t
  | set idx v =>
    unfold Table.set
    split
    · exact ⟨rfl, .inl Array.size_setIfInBounds⟩
    · exact .refl t
  | grow delta v =>
    unfold Table.grow
    dsimp only
    split
    · next fits =>
      refine ⟨rfl, .inr ⟨delta, fits, ?_⟩⟩
      change (t.values ++ Array.replicate delta v).size = t.values.size + delta
      rw [Array.size_append, Array.size_replicate]
    · exact .refl t
  | read pos count =>
    unfold Table.read
    split <;> exact .refl t
  | write pos vs => exact write_resizes pos vs t
  | fill pos v count =>
    unfold Table.fill
    split
    · exact write_resizes pos _ t
    · exact .refl t
  | copy dst src count =>
    unfold Table.copy
    have kept := Table.read_unchanged src count t
    split
    · change t.Resizes (stateAfter (EStateM.bind (Table.read src count) (Table.write dst) t))
      unfold EStateM.bind
      cases ran : Table.read src count t <;> rw [ran] at kept <;> obtain rfl : _ = t := kept
      · exact write_resizes dst _ _
      · exact .refl _
    · exact .refl t

theorem Memory.write_resizes (pos : Nat) (bs : List UInt8) (m : Memory) :
    m.Resizes (stateAfter (Memory.write pos bs m)) := by
  unfold Memory.write
  split
  · exact ⟨rfl, .inl rfl⟩
  · exact .refl m

/-- The same for a memory. -/
theorem Memory.Op.resizes {x : EStateM Trap Memory α} (op : Memory.Op x) (m : Memory) :
    m.Resizes (stateAfter (x m)) := by
  cases op with
  | look f => exact .refl m
  | grow delta =>
    unfold Memory.grow
    dsimp only
    split
    · next fits => exact ⟨rfl, .inr ⟨delta, fits, Nat.add_mul _ _ _⟩⟩
    · exact .refl m
  | read pos count =>
    unfold Memory.read
    split <;> exact .refl m
  | write pos bs => exact write_resizes pos bs m
  | fill v pos count =>
    unfold Memory.fill
    split
    · exact write_resizes pos _ m
    · exact .refl m
  | copy dst src count =>
    unfold Memory.copy
    have kept := Memory.read_unchanged src count m
    split
    · change m.Resizes (stateAfter (EStateM.bind (Memory.read src count) (Memory.write dst) m))
      unfold EStateM.bind
      cases ran : Memory.read src count m <;> rw [ran] at kept <;> obtain rfl : _ = m := kept
      · exact write_resizes dst _ _
      · exact .refl _
    · exact .refl m

namespace StoreM

/-- What an operation on a table leaves of the store, whether it fails or not. -/
theorem stateAfter_onTable (addr : Nat) (x : EStateM Trap Table α) (s : Store σ) :
    stateAfter (onTable addr x s) = match s.tables[addr]? with
      | none => s
      | some t => { s with tables := s.tables.setIfInBounds addr (stateAfter (x t)) } := by
  rcases Nat.lt_or_ge addr s.tables.size with there | absent
  · rw [onTable_of_lt there, Array.getElem?_eq_getElem there]
    cases ran : x s.tables[addr] <;> simp [stateAfter, Array.setIfInBounds, there, ran]
  · rw [onTable_of_le absent, Array.getElem?_eq_none absent]
    rfl

/-- What an operation on a memory leaves of the store, whether it fails or not. -/
theorem stateAfter_onMemory (addr : Nat) (x : EStateM Trap Memory α) (s : Store σ) :
    stateAfter (onMemory addr x s) = match s.memories[addr]? with
      | none => s
      | some m => { s with memories := s.memories.setIfInBounds addr (stateAfter (x m)) } := by
  rcases Nat.lt_or_ge addr s.memories.size with there | absent
  · rw [onMemory_of_lt there, Array.getElem?_eq_getElem there]
    cases ran : x s.memories[addr] <;> simp [stateAfter, Array.setIfInBounds, there, ran]
  · rw [onMemory_of_le absent, Array.getElem?_eq_none absent]
    rfl

/-- Every operation of the store is stable. -/
theorem Op.stable {x : StoreM σ α} (op : Op x) (s : Store σ) : s.Stable (stateAfter (x s)) := by
  cases op with
  | @gets _ f _ =>
    unfold StoreM.gets
    cases f s <;> exact .refl s
  | setGlobal addr v =>
    unfold StoreM.setGlobal
    split
    · exact { Store.Stable.refl s with globals := Nat.le_of_eq Array.size_setIfInBounds.symm }
    · exact .refl s
  | dropElem addr =>
    exact { Store.Stable.refl s with elems := .setIfInBounds .refl _ _ fun _ _ _ => rfl }
  | dropData addr =>
    exact { Store.Stable.refl s with datas := .setIfInBounds .refl _ _ fun _ _ => .inr rfl }
  | @onTable _ addr y op =>
    rw [stateAfter_onTable]
    cases there : s.tables[addr]? with
    | none => exact .refl s
    | some t =>
      refine { Store.Stable.refl s with tables := .setIfInBounds .refl _ _ fun t' same => ?_ }
      cases there.symm.trans same
      exact (op.resizes t).grows
  | @onMemory _ addr y op =>
    rw [stateAfter_onMemory]
    cases there : s.memories[addr]? with
    | none => exact .refl s
    | some m =>
      refine { Store.Stable.refl s with memories := .setIfInBounds .refl _ _ fun m' same => ?_ }
      cases there.symm.trans same
      exact (op.resizes m).grows

end StoreM

/-- Allocating appends, so that every address denotes what it did. -/
theorem Store.allocate_stable (s : Store σ) (module : Module) (inst : Nat) (name : String) :
    s.Stable (s.allocate module inst name) where
  funcs := .append (fun _ => rfl) _ _
  tables := .append .refl _ _
  memories := .append .refl _ _
  globals := (Array.Keeps.append (R := fun _ _ => True) (fun _ => trivial) _ _).size_le
  elems := .append .refl _ _
  datas := .append .refl _ _

/-! ## Everything that runs -/

/-- What can become of a machine, whatever happens. -/
abbrev Machine.Later : Machine σ → Machine σ → Prop :=
  Machine.Evolves (fun _ => True) (fun _ => True) fun _ => True

namespace Machine

variable {Q : Module → Prop} {G : HostProg σ → Prop} {F : Nat → Prop} {m m' : Machine σ}

/-- How a machine evolves may be known less exactly. -/
theorem Evolves.mono {Q' : Module → Prop} {G' : HostProg σ → Prop} {F' : Nat → Prop}
    (modules : ∀ module, Q module → Q' module) (programs : ∀ p, G p → G' p)
    (segments : ∀ a, F a → F' a) (evolves : m.Evolves Q G F m') : m.Evolves Q' G' F' m' := by
  induction evolves with
  | refl m => exact .refl m
  | trans _ _ first second => exact first.trans second
  | frames fs m => exact .frames fs m
  | fuel n m => exact .fuel n m
  | world s m => exact .world s m
  | store op m => exact .store op m
  | link found => exact .link found
  | @register f own m =>
    have own' : (StoreFunc.host f).Hosts G' := fun frame => programs _ (own frame)
    exact .register own' m
  | abandon kind checked failed => exact .abandon (modules _ kind) checked failed
  | allocate kind checked exports => exact .allocate (modules _ kind) checked exports
  | fill filled values m => exact .fill (segments _ filled) values m
  | publish inst name m => exact .publish inst name m

theorem Evolves.later (evolves : m.Evolves Q G F m') : m.Later m' :=
  evolves.mono (fun _ _ => trivial) (fun _ _ => trivial) fun _ _ => trivial

/-- Addresses and instances are stable under whatever becomes of a machine. -/
theorem Evolves.stable (evolves : m.Evolves Q G F m') : m.Stable m' := by
  induction evolves with
  | refl m => exact .refl m
  | frames | fuel | world | register => exact .of_store (.refl _) rfl
  | trans _ _ first second => exact first.trans second
  | store op m => exact .of_store (op.stable m.store) rfl
  | @link m key f found =>
    exact .of_store { Store.Stable.refl m.store with funcs := .push (fun _ => rfl) _ _ } rfl
  | abandon => exact .of_store (Store.allocate_stable _ _ _ _) rfl
  | allocate => exact ⟨Store.allocate_stable _ _ _ _, .push .refl _ _⟩
  | @fill addr filled values m =>
    refine .of_store { Store.Stable.refl m.store with elems := .modify .refl _ _ fun e => ?_ } rfl
    rintro rfl
    rfl
  | publish inst name m =>
    exact ⟨.refl _, .modify .refl _ _ fun i => ⟨rfl, fun _ => rfl⟩⟩

end Machine

/-- Programs and machines that nothing is asked of. -/
theorem HostProg.obeys_all (p : HostProg σ) : p.Obeys (fun _ => True) fun _ _ => True := by
  induction p using HostProg.induct with
  | done frame => exact .done frame
  | halt reason => exact .halt reason
  | access op next ih => exact .access trivial ih
  | enter op next ih => exact .enter trivial ih
  | register f next bodies ih => exact .register bodies ih
  | getState next ih => exact .getState ih
  | setState s next ih => exact .setState s ih

theorem Machine.hosts_all (m : Machine σ) :
    m.Hosts (HostProg.Obeys (fun _ => True) fun _ _ => True) where
  stored f _ := by
    cases f with
    | module g => trivial
    | host g => exact fun frame => (g.body frame).obeys_all
  registered _ f _ := fun frame => (f.body frame).obeys_all

theorem Entry.brings_all (op : Entry) : op.Brings fun _ => True := by
  cases op <;> trivial

/-- Whatever is reached has become of the machine at the beginning. -/
theorem Reached.later {config : Config} {world : σ} {program : HostProg σ} {task : Task σ}
    {m : Machine σ} (reached : Reached config world program task m) :
    (Machine.new config world).Later m :=
  (reached.settled (fun op _ _ => op.brings_all) program.obeys_all).1.evolves.later

namespace Machine

variable {m m' : Machine σ} {bound : Nat}

/-- An entry fills none of the element segments that were there before it. -/
theorem evolves_of_enter {op : Entry} {r : Except Halt op.Reply}
    (run : Machine.enter bound op m = some (r, m')) :
    m.Evolves (fun _ => True) (fun _ => True) (m.store.elems.size ≤ ·) m' := by
  have evolving := Machine.enter_evolves (σ := σ) (A := fun _ => True) (E := fun _ _ => True)
    (b := m.store.elems.size) (fun op _ _ => op.brings_all) bound op.brings_all
  exact (evolving m.hosts_all (Nat.le_refl _) run).mono (fun _ => id)
    (fun _ _ => trivial) fun _ => id

theorem evolves_of_host {p : HostProg σ} {r : Except Halt Frame}
    (run : Run.host (Machine.enter bound) p m = some (r, m')) :
    m.Evolves (fun _ => True) (fun _ => True) (m.store.elems.size ≤ ·) m' := by
  have evolving : Run.Evolving (fun _ => True) (HostProg.Obeys (fun _ => True) fun _ _ => True)
      m.store.elems.size _ (Run.host (Machine.enter bound) p) :=
    .host (fun op _ _ => op.brings_all)
      (fun op own => Machine.enter_evolves (fun op _ _ => op.brings_all) bound own) p.obeys_all
  exact (evolving m.hosts_all (Nat.le_refl _) run).mono (fun _ => id)
    (fun _ _ => trivial) fun _ => id

theorem later_of_enter {op : Entry} {r : Except Halt op.Reply}
    (run : Machine.enter bound op m = some (r, m')) : m.Later m' := (evolves_of_enter run).later

theorem later_of_host {p : HostProg σ} {r : Except Halt Frame}
    (run : Run.host (Machine.enter bound) p m = some (r, m')) : m.Later m' :=
  (evolves_of_host run).later

/-- Addresses and instances are stable under every operation: under the operations on the store,
its memories and its tables; under accesses; under the registration of a host function; under
entries, however they end; and so under everything that a program makes of them. -/
theorem always_stable (m : Machine σ) :
    (∀ (α : Type) (x : StoreM σ α), StoreM.Op x → m.Stable (m.onStore x).2) ∧
    (∀ op : Access, m.Stable (op.perform m).2) ∧
    (∀ f : HostFunc σ, m.Stable (m.register f)) ∧
    (∀ bound op r m', Machine.enter bound op m = some (r, m') → m.Stable m') ∧
    ∀ bound p r m', Run.host (Machine.enter bound) p m = some (r, m') → m.Stable m' := by
  have stable {m' : Machine σ} (later : m.Later m') : m.Stable m' := later.stable
  have registered (f : HostFunc σ) : (StoreFunc.host f).Hosts fun _ => True := fun _ => trivial
  exact ⟨fun α x op => stable (Alters.store op m).evolves,
    fun op => stable (op.perform_alters m).evolves,
    fun f => stable (.register (registered f) m),
    fun bound op r m' run => stable (later_of_enter run),
    fun bound p r m' run => stable (later_of_host run)⟩

end Machine

end WasmMachine
