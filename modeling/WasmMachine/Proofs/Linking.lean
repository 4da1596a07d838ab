import WasmMachine.Proofs.Homes
import WasmMachine.Proofs.Stability

/-!
# Linking

Four enumerations have to agree position by position for an instance to be linked well: the
imports of its module, whatever order their kinds are in; the addresses given for each kind; the
index spaces of the module; and the lists of the store that its definitions are appended to.  That
they do is `Machine.Links`: every address of the instance denotes something of the type that the
module declares at its index.  An instantiation that succeeds establishes it, and it holds for
good (`Machine.instantiate_links`), since what addresses denote is stable.

`Run.instantiate_cases` tells the ways apart in which an instantiation can go.
-/

namespace WasmMachine

variable {σ α β : Type}

/-! ## The ways of an instantiation -/

/-- An instantiation fails at its imports and changes nothing, or it fails at its exports and
leaves what it has appended to the store, or it adds an instance and runs what initialises it. -/
theorem Run.instantiate_cases {enter : Enter σ} {bound : Nat} {name : String} {module : Module}
    {e : Externs} {m m' : Machine σ} {r : Except Halt Nat}
    (run : instantiate enter bound name module e m = some (r, m')) :
    (∃ t, m.checkImports module e = .error t ∧ r = .error (.trap t) ∧ m' = m) ∨
    m.checkImports module e = .ok () ∧
      ((∃ t, (Instance.allocated m.store module m.instances.size name e).addExports module.exports
          = .error t ∧ r = .error (.trap t) ∧
          m' = { m with store := m.store.allocate module m.instances.size name }) ∨
      ∃ i, (Instance.allocated m.store module m.instances.size name e).addExports module.exports
          = .ok i ∧
        setUp enter bound name module
          (m.instances.size, m.store.globals.size, m.store.elems.size, m.store.datas.size)
          { m with
            store := m.store.allocate module m.instances.size name
            instances := m.instances.push i } = some (r, m')) := by
  rw [instantiate_eq_setUp, bind_apply, allocate_eq] at run
  cases checked : m.checkImports module e with
  | error t =>
    rw [checked] at run
    cases run
    exact .inl ⟨t, rfl, rfl, rfl⟩
  | ok u =>
    rw [checked] at run
    refine .inr ⟨rfl, ?_⟩
    cases exports : (Instance.allocated m.store module m.instances.size name e).addExports
        module.exports with
    | error t =>
      rw [exports] at run
      cases run
      exact .inl ⟨t, rfl, rfl, rfl⟩
    | ok i =>
      rw [exports] at run
      exact .inr ⟨i, rfl, run⟩

/-- What initialises an instance: its globals, its segments and its start function. -/
def Run.initialise (enter : Enter σ) (bound : Nat) (module : Module) :
    Nat × Nat × Nat × Nat → Run σ Unit
  | (inst, firstGlobal, firstElem, firstData) => do
    initGlobals enter bound inst firstGlobal module.globalInits
    initElems enter bound inst firstElem module.elems
    initDatas enter bound inst firstData module.datas
    start enter bound inst module.start

/-- An instance whose initialisation has succeeded is made available under its name. -/
theorem Run.setUp_cases {enter : Enter σ} {bound : Nat} {name : String} {module : Module}
    {places : Nat × Nat × Nat × Nat} {m m' : Machine σ} {r : Except Halt Nat}
    (run : setUp enter bound name module places m = some (r, m')) :
    (∃ h, initialise enter bound module places m = some (.error h, m') ∧ r = .error h) ∨
    ∃ m₁, initialise enter bound module places m = some (.ok (), m₁) ∧ r = .ok places.1 ∧
      m' = { m₁ with
        instances := m₁.instances.modify places.1 fun i => { i with ready := true }
        names := m₁.names.insert name places.1 } := by
  obtain ⟨inst, firstGlobal, firstElem, firstData⟩ := places
  have split : setUp enter bound name module (inst, firstGlobal, firstElem, firstData)
      = initialise enter bound module (inst, firstGlobal, firstElem, firstData) >>= fun _ =>
        publish inst name >>= fun _ => pure inst := by
    simp only [setUp, initialise, bind_assoc]
  rw [split] at run
  rcases bind_cases run with halted | ⟨_, m₁, ran, run⟩
  · exact .inl halted
  · cases run
    exact .inr ⟨m₁, ran, rfl, rfl⟩

/-- What initialises an instance brings in nothing of its own. -/
theorem Run.Evolving.setUp {Q : Module → Prop} {A : Access → Prop} {b : Nat}
    {E : (op : Entry) → (Except Halt op.Reply → HostProg σ) → Prop} {enter : Enter σ}
    (kinds : ∀ op next, E op next → op.Brings Q)
    (entries : ∀ op : Entry, op.Brings Q → Evolving Q (HostProg.Obeys A E) b _ (enter op))
    (bound : Nat) (name : String) (module : Module) (inst global elem data : Nat)
    (above : b ≤ elem) :
    Evolving Q (HostProg.Obeys A E) b _
      (Run.setUp enter bound name module (inst, global, elem, data)) := by
  have loop (more : Machine σ → Bool) : Evolving Q (HostProg.Obeys A E) b Unit
      (Run.stepWhile enter more bound) := .stepWhile kinds entries more bound
  have constant (inst : Nat) (code : Code) : Evolving Q (HostProg.Obeys A E) b Value
      (Run.constant enter bound inst code) :=
    closed.constant (fun _ => enter) (fun _ => bound) (fun more _ => loop more) inst code
  have invoke (addr : Nat) (args : Array Value) : Evolving Q (HostProg.Obeys A E) b _
      (Run.invoke enter bound addr args) :=
    closed.invoke (fun _ => enter) (fun _ => bound) (.call kinds entries)
      (fun more _ => loop more)
      addr args
  exact closed.toClosed.setUp (fun _ => enter) (fun _ => bound) constant invoke
    (fun inst => .publish inst name) module inst global elem data
    fun addr le => .fill (Nat.le_trans above le)

theorem Machine.later_of_setUp {bound : Nat} {name : String} {module : Module}
    {inst global elem data : Nat} {m m' : Machine σ} {r : Except Halt Nat}
    (run : Run.setUp (Machine.enter bound) bound name module (inst, global, elem, data) m
      = some (r, m')) : m.Later m' := by
  have evolving :=
    Run.Evolving.setUp (σ := σ) (A := fun _ => True) (E := fun _ _ => True) (b := 0)
    (fun op _ _ => op.brings_all)
      (fun op own => Machine.enter_evolves (fun op _ _ => op.brings_all)
      bound own) bound name module inst global elem data (Nat.zero_le _)
  exact (evolving m.hosts_all (Nat.zero_le _) run).later

/-- A machine with an instance of which nothing has been initialised yet. -/
def Machine.adding (m : Machine σ) (name : String) (module : Module) (i : Instance) : Machine σ :=
  { m with
    store := m.store.allocate module m.instances.size name
    instances := m.instances.push i }

/-- An instantiation that has succeeded: its imports fit, it has exports, and the instance that it
adds has been initialised and made available under its name. -/
structure Machine.Instantiates (m : Machine σ) (name : String) (module : Module) (e : Externs)
    (number : Nat) (i : Instance) (m' : Machine σ) : Prop where
  checked : m.checkImports module e = .ok ()
  exports : (Instance.allocated m.store module m.instances.size name e).addExports module.exports
    = .ok i
  numbered : number = m.instances.size
  later : (m.adding name module i).Later m'
  initialised : ∃ (bound : Nat) (m₁ : Machine σ),
    Run.initialise (Machine.enter bound) bound module
      (number, m.store.globals.size, m.store.elems.size, m.store.datas.size)
        (m.adding name module i)
        = some (.ok (), m₁) ∧
    m' = { m₁ with
      instances := m₁.instances.modify number fun i => { i with ready := true }
      names := m₁.names.insert name number }

theorem Machine.instantiates_of_enter {bound number : Nat} {name : String} {module : Module}
    {e : Externs} {m m' : Machine σ}
    (run : Machine.enter bound (.instantiate name module e) m = some (.ok number, m')) :
    ∃ i, m.Instantiates name module e number i m' := by
  cases bound with
  | zero => cases run
  | succ bound =>
    obtain ⟨t, -, failed, -⟩ | ⟨checked, ⟨t, -, failed, -⟩ | ⟨i, exports, run⟩⟩ :=
      Run.instantiate_cases run
    · cases failed
    · cases failed
    · have later := later_of_setUp run
      obtain ⟨h, -, failed⟩ | ⟨m₁, ran, ended, made⟩ := Run.setUp_cases run
      · cases failed
      · cases ended
        exact ⟨i, checked, exports, rfl, later, bound, m₁, ran, made⟩

/-! ## What a module declares -/

/-- A module that bytes encode is built from sections. -/
theorem Module.decode_built {bytes : List UInt8} {module : Module}
    (run : Module.decode bytes = .ok module) : ∃ s : Sections, s.build = .ok module := by
  obtain ⟨⟨⟨⟩, rest⟩, -, run⟩ := Except.exists_of_bind run
  obtain ⟨sections, -, run⟩ := Except.exists_of_bind run
  cases built : sections.build with
  | error e =>
    rw [built] at run
    cases run
  | ok m =>
    rw [built] at run
    cases run
    exact ⟨sections, built⟩

/-- A module each of whose index spaces begins with its imports of that kind, in their order and
with their types. -/
structure Module.ImportsInOrder (module : Module) : Prop where
  funcs : ∀ (j : Nat) (idx : TypeIdx) (d : FuncDecl), module.importedFuncs[j]? = some idx →
    module.funcs[j]? = some d → module.types[idx.toNat]? = some d.type
  tables : ∀ j < module.importedTables.length, module.importedTables[j]? = module.tables[j]?
  memories : ∀ j < module.importedMemories.length, module.importedMemories[j]? =
    module.memories[j]?

theorem Sections.build_importsInOrder {s : Sections} {module : Module}
    (run : s.build = .ok module) : module.ImportsInOrder := by
  obtain ⟨sound, rfl⟩ := Sections.build_eq_ok.mp run
  refine ⟨fun j idx d import_ there => ?_, fun j lt => ?_, fun j lt => ?_⟩
  · have lt : j < (s.importedFuncs.map (importedDecl s.types.toArray)).length := by
      rw [List.length_map]
      exact (List.getElem?_eq_some_iff.mp import_).1
    have inside := (Sections.defects_eq_nil.mp sound).2.1 idx (List.mem_of_getElem? import_)
    change (_ ++ _)[j]? = some d at there
    rw [List.getElem?_append_left lt, List.getElem?_map,
      show s.importedFuncs[j]? = _ from import_] at there
    cases there
    exact getElem?_typeAt (List.size_toArray ▸ inside)
  · exact (List.getElem?_append_left lt).symm
  · exact (List.getElem?_append_left lt).symm

theorem Module.ImportsFirst.body_of_import {module : Module}
    (first : module.ImportsFirst) {j : Nat}
    {d : FuncDecl} (import_ : j < module.importedFuncs.length)
    (there : module.funcs[j]? = some d) :
    d.body = none := by
  obtain ⟨imported, defined, funcs, length, absent, -⟩ := first.funcs
  rw [funcs, List.getElem?_append_left (by omega)] at there
  exact absent d (List.mem_of_getElem? there)

/-! ## What imports are given -/

/-- Every address that is given for an import denotes something of the type that is asked for. The
addresses of each kind are counted by the imports of that kind. -/
structure Machine.Gives (m : Machine σ) (types : Array FuncType) (imports : List Import)
    (funcs tables memories : List Nat) : Prop where
  funcs : ∀ (j : Nat) (idx : TypeIdx), (imports.filterMap (·.desc.func?))[j]? = some idx →
    ∃ f t, m.store.funcs[funcs.getD j 0]? = some f ∧ types[idx.toNat]? = some t ∧ f.type = t
  tables : ∀ (j : Nat) (type : TableType), (imports.filterMap (·.desc.table?))[j]? = some type →
    ∃ t, m.store.tables[tables.getD j 0]? = some t ∧ t.type = type
  memories : ∀ (j : Nat) (type : MemType), (imports.filterMap (·.desc.mem?))[j]? = some type →
    ∃ mem, m.store.memories[memories.getD j 0]? = some mem ∧ mem.limits = type.limits

namespace Machine

variable {m : Machine σ} {types : Array FuncType} {i : Import}

theorem checkFunc_ok {idx : TypeIdx} {addr : Nat}
    (checked : m.checkFunc types i idx addr = .ok ()) :
    ∃ f t, m.store.funcs[addr]? = some f ∧ types[idx.toNat]? = some t ∧ f.type = t := by
  unfold checkFunc at checked
  split at checked
  · cases checked
  · next expected known =>
    split at checked
    · cases checked
    · next got found =>
      split at checked
      · next same =>
        obtain ⟨f, stored, type⟩ := Option.map_eq_some_iff.mp found
        exact ⟨f, expected, stored, known, type.trans same⟩
      · cases checked

theorem checkTable_ok {type : TableType} {addr : Nat}
    (checked : m.checkTable i type addr = .ok ()) :
    ∃ t, m.store.tables[addr]? = some t ∧ t.type = type := by
  unfold checkTable at checked
  split at checked
  · cases checked
  · next t stored =>
    split at checked
    · next same => exact ⟨t, stored, same⟩
    · cases checked

theorem checkMemory_ok {type : MemType} {addr : Nat}
    (checked : m.checkMemory i type addr = .ok ()) :
    ∃ mem, m.store.memories[addr]? = some mem ∧ mem.limits = type.limits := by
  unfold checkMemory at checked
  split at checked
  · cases checked
  · next mem stored =>
    split at checked
    · next same => exact ⟨mem, stored, same⟩
    · cases checked

/-- Imports that have passed their checks are given what they ask for. Each check uses up the next
address of its kind, so that the kinds may come in any order. -/
theorem checkEach_gives {imports : List Import} {funcs tables memories : List Nat}
    (checked : m.checkEach types imports funcs tables memories = .ok ()) :
    m.Gives types imports funcs tables memories := by
  induction imports generalizing funcs tables memories with
  | nil => exact ⟨fun j _ there => (nomatch there), fun j _ there => (nomatch there),
      fun j _ there => (nomatch there)⟩
  | cons i is ih =>
    obtain ⟨module, name, desc⟩ := i
    cases desc with
    | func idx =>
      obtain ⟨⟨⟩, here, rest⟩ := Except.exists_of_bind checked
      have gives := ih rest
      refine ⟨fun j idx' there => ?_, gives.tables, gives.memories⟩
      cases j with
      | zero =>
        cases there
        cases funcs <;> exact checkFunc_ok here
      | succ j => cases funcs <;> exact gives.funcs j idx' there
    | table type =>
      obtain ⟨⟨⟩, here, rest⟩ := Except.exists_of_bind checked
      have gives := ih rest
      refine ⟨gives.funcs, fun j type' there => ?_, gives.memories⟩
      cases j with
      | zero =>
        cases there
        cases tables <;> exact checkTable_ok here
      | succ j => cases tables <;> exact gives.tables j type' there
    | mem type =>
      obtain ⟨⟨⟩, here, rest⟩ := Except.exists_of_bind checked
      have gives := ih rest
      refine ⟨gives.funcs, gives.tables, fun j type' there => ?_⟩
      cases j with
      | zero =>
        cases there
        cases memories <;> exact checkMemory_ok here
      | succ j => cases memories <;> exact gives.memories j type' there
    | global type => exact ⟨(ih checked).funcs, (ih checked).tables, (ih checked).memories⟩

end Machine

/-! ## Instances that are linked -/

/-- An index space of an instance: first the addresses that are given for imports, in import
order, then the addresses of what has been appended to `before` entries, one after the other. -/
structure Instance.Space (addrs given : Array Nat) (before count : Nat) : Prop where
  size : addrs.size = count
  imports : ∀ k a : Nat, given[k]? = some a → addrs[k]? = some a
  own : ∀ k a : Nat, addrs[given.size + k]? = some a → a = before + k

/-- An instance, of a given number, that is linked as its module declares it, where the store was
`before` when it was made and is `s` now: its index spaces are those of the module, and what their
addresses denote has the types of the module. A function of the module's own is the one that is
declared at its index. -/
structure Instance.Linked (i : Instance) (s before : Store σ) (module : Module) (e : Externs)
    (number : Nat) : Prop where
  funcs : Space i.funcs e.funcs before.funcs.size module.funcs.length
  tables : Space i.tables e.tables before.tables.size module.tables.length
  memories : Space i.memories e.memories before.memories.size module.memories.length
  globals : Space i.globals e.globals before.globals.size module.globals.length
  elems : Space i.elems #[] before.elems.size module.elems.length
  datas : Space i.datas #[] before.datas.size module.datas.length
  func : ∀ (j : Nat) (d : FuncDecl), module.funcs[j]? = some d → ∃ a f, i.funcs[j]? = some a ∧
    s.funcs[a]? = some f ∧ f.type = d.type ∧ ∀ g, d.made number i.name = some g → f = .module g
  table : ∀ (j : Nat) (type : TableType), module.tables[j]? = some type →
    ∃ a t, i.tables[j]? = some a ∧ s.tables[a]? = some t ∧ t.type = type
  memory : ∀ (j : Nat) (type : MemType), module.memories[j]? = some type →
    ∃ a mem, i.memories[j]? = some a ∧ s.memories[a]? = some mem ∧ mem.limits = type.limits

namespace Instance

theorem getElem?_freshAddrs {n count k : Nat} (lt : k < count) :
    (freshAddrs n count)[k]? = some (n + k) := by
  rw [freshAddrs, Array.getElem?_ofFn, dif_pos lt]

theorem Space.append {given : Array Nat} {before count total : Nat}
    (size : (given ++ freshAddrs before count).size = total) :
    Space (given ++ freshAddrs before count) given before total where
  size := size
  imports k a there :=
    (Array.getElem?_append_left (Array.getElem?_eq_some_iff.mp there).1).trans there
  own k a there := by
    rw [Array.getElem?_append_right (Nat.le_add_right _ _), Nat.add_sub_cancel_left] at there
    have lt := (Array.getElem?_eq_some_iff.mp there).1
    rw [size_freshAddrs] at lt
    exact (Option.some.inj ((getElem?_freshAddrs lt).symm.trans there)).symm

theorem Space.fresh (before count : Nat) : Space (freshAddrs before count) #[] before count := by
  have space := @Space.append #[] before count count (by rw [Array.empty_append, size_freshAddrs])
  rwa [Array.empty_append] at space

/-- What an index denotes is either given for an import or has been appended. -/
theorem Space.cases {given : Array Nat} {count j : Nat} (before : Nat)
    (lt : j < given.size + count) :
    (j < given.size ∧ (given ++ freshAddrs before count)[j]? = some (given.toList.getD j 0)) ∨
    ∃ k, j = given.size + k ∧ (given ++ freshAddrs before count)[j]? = some (before + k) := by
  rcases Nat.lt_or_ge j given.size with import_ | own
  · refine .inl ⟨import_, ?_⟩
    rw [Array.getElem?_append_left import_, Array.getElem?_eq_getElem import_,
      List.getD_eq_getElem?_getD, Array.getElem?_toList, Array.getElem?_eq_getElem import_]
    rfl
  · obtain ⟨k, rfl⟩ := Nat.exists_eq_add_of_le own
    refine .inr ⟨k, rfl, ?_⟩
    rw [Array.getElem?_append_right own, Nat.add_sub_cancel_left, getElem?_freshAddrs (by omega)]

/-- What an address denotes is stable, and so is how an instance is linked. -/
theorem Linked.kept {i i' : Instance} {s s' before : Store σ} {module : Module} {e : Externs}
    {number : Nat} (linked : i.Linked s before module e number) (stable : s.Stable s')
    (settles : i.Settles i') : i'.Linked s' before module e number := by
  rw [settles.same]
  refine { linked with
    func := fun j d there => ?_, table := fun j t there => ?_, memory := fun j t there => ?_ }
  · obtain ⟨a, f, here, stored, type, made⟩ := linked.func j d there
    obtain ⟨f', stored', rfl⟩ := stable.funcs a f stored
    exact ⟨a, f, here, stored', type, made⟩
  · obtain ⟨a, t, here, stored, type⟩ := linked.table j t there
    obtain ⟨t', stored', grows⟩ := stable.tables a t stored
    exact ⟨a, t', here, stored', grows.type.trans type⟩
  · obtain ⟨a, mem, here, stored, limits⟩ := linked.memory j t there
    obtain ⟨mem', stored', grows⟩ := stable.memories a mem stored
    exact ⟨a, mem', here, stored', grows.limits.trans limits⟩

end Instance

namespace Machine

variable {m m' : Machine σ} {module : Module} {e : Externs} {name : String}

theorem getElem?_append_list (xs : Array α) (l : List α) (k : Nat) :
    (xs ++ l)[xs.size + k]? = l[k]? := by
  rw [Array.append_list, Array.getElem?_append_right (Nat.le_add_right _ _),
    Nat.add_sub_cancel_left, List.getElem?_toArray]

theorem gives_of_checkImports (checked : m.checkImports module e = .ok ()) :
    m.Gives module.types module.imports e.funcs.toList e.tables.toList e.memories.toList := by
  unfold checkImports at checked
  split at checked
  · cases checked
  · exact checkEach_gives checked

section Allocated

variable (first : module.ImportsFirst) (ordered : module.ImportsInOrder)
  (checked : m.checkImports module e = .ok ()) (number : Nat) (name : String)
include first ordered checked

theorem allocated_func {j : Nat} {d : FuncDecl} (declared : module.funcs[j]? = some d) :
    ∃ a f, (Instance.allocated m.store module number name e).funcs[j]? = some a ∧
      (m.store.allocate module number name).funcs[a]? = some f ∧ f.type = d.type ∧
      ∀ g, d.made number name = some g → f = .module g := by
  obtain ⟨funcs, -⟩ := checkImports_counts checked
  have lt := (List.getElem?_eq_some_iff.mp declared).1
  rw [← first.length_definedFuncs number name, ← funcs] at lt
  rcases Instance.Space.cases m.store.funcs.size lt with ⟨import_, here⟩ | ⟨k, rfl, here⟩
  · have asked : module.importedFuncs[j]? = some module.importedFuncs[j] :=
      List.getElem?_eq_getElem (funcs ▸ import_)
    obtain ⟨f, t, stored, known, type⟩ := (gives_of_checkImports checked).funcs j _ asked
    obtain ⟨f', stored', rfl⟩ := (m.store.allocate_stable module number name).funcs _ f stored
    cases known.symm.trans (ordered.funcs j _ d asked declared)
    refine ⟨_, f, here, stored', type, fun g made => ?_⟩
    rw [FuncDecl.made, first.body_of_import (funcs ▸ import_) declared] at made
    cases made
  · have own : k < (module.definedFuncs number name).length := by omega
    have made := first.getElem?_definedFuncs number name k
    rw [← funcs, declared, List.getElem?_eq_getElem own] at made
    refine ⟨_, .module (module.definedFuncs number name)[k], here, ?_, ?_, fun g same => ?_⟩
    · rw [Store.allocate, getElem?_append_list, List.getElem?_map, List.getElem?_eq_getElem own]
      rfl
    · obtain ⟨b, -, same⟩ := Option.map_eq_some_iff.mp made.symm
      rw [StoreFunc.type, ← same]
    · cases made.trans same
      rfl

theorem allocated_table {j : Nat} {type : TableType} (declared : module.tables[j]? = some type) :
    ∃ a t, (Instance.allocated m.store module number name e).tables[j]? = some a ∧
      (m.store.allocate module number name).tables[a]? = some t ∧ t.type = type := by
  obtain ⟨-, tables, -⟩ := checkImports_counts checked
  have count := (first.covers checked number name).tables
  simp only [Instance.allocated, Array.size_append, size_freshAddrs] at count
  have lt := (List.getElem?_eq_some_iff.mp declared).1
  rw [← count] at lt
  rcases Instance.Space.cases m.store.tables.size lt with ⟨import_, here⟩ | ⟨k, rfl, here⟩
  · obtain ⟨t, stored, same⟩ := (gives_of_checkImports checked).tables j type
      ((ordered.tables j (tables ▸ import_)).trans declared)
    obtain ⟨t', stored', grows⟩ := (m.store.allocate_stable module number name).tables _ t stored
    exact ⟨_, t', here, stored', grows.type.trans same⟩
  · refine ⟨_, Table.new type, here, ?_, rfl⟩
    rw [Store.allocate, getElem?_append_list, List.getElem?_map, Module.definedTables,
      List.getElem?_drop, ← tables, declared]
    rfl

theorem allocated_memory {j : Nat} {type : MemType} (declared : module.memories[j]? = some type) :
    ∃ a mem, (Instance.allocated m.store module number name e).memories[j]? = some a ∧
      (m.store.allocate module number name).memories[a]? = some mem ∧
      mem.limits = type.limits := by
  obtain ⟨-, -, memories, -⟩ := checkImports_counts checked
  have count := (first.covers checked number name).memories
  simp only [Instance.allocated, Array.size_append, size_freshAddrs] at count
  have lt := (List.getElem?_eq_some_iff.mp declared).1
  rw [← count] at lt
  rcases Instance.Space.cases m.store.memories.size lt with
    ⟨import_, here⟩ | ⟨k, rfl, here⟩
  · obtain ⟨mem, stored, same⟩ := (gives_of_checkImports checked).memories j type
      ((ordered.memories j (memories ▸ import_)).trans declared)
    obtain ⟨mem', stored', grows⟩ :=
      (m.store.allocate_stable module number name).memories _ mem stored
    exact ⟨_, mem', here, stored', grows.limits.trans same⟩
  · refine ⟨_, Memory.new type.limits, here, ?_, rfl⟩
    rw [Store.allocate, getElem?_append_list, List.getElem?_map, Module.definedMemories,
      List.getElem?_drop, ← memories, declared]
    rfl

/-- An instance is linked as soon as it has been allocated. -/
theorem allocated_linked : (Instance.allocated m.store module number name e).Linked
    (m.store.allocate module number name) m.store module e number := by
  have covers := first.covers checked number name
  exact {
    funcs := .append covers.funcs
    tables := .append covers.tables
    memories := .append covers.memories
    globals := .append covers.globals
    elems := .fresh _ _
    datas := .fresh _ _
    func := fun _ _ declared => allocated_func first ordered checked number name declared
    table := fun _ _ declared => allocated_table first ordered checked number name declared
    memory := fun _ _ declared => allocated_memory first ordered checked number name declared }

end Allocated

/-- An instantiation that succeeds gives the number of an instance that is linked to its module,
and stays so whatever becomes of the machine; one whose imports fail their checks traps and
changes nothing. -/
theorem instantiate_links (m : Machine σ) (name : String) {module : Module} (e : Externs)
    (made : (∃ s : Sections, s.build = .ok module) ∨ ∃ bytes, Module.decode bytes = .ok module) :
    (∀ bound number m', Machine.enter bound (.instantiate name module e) m =
      some (.ok number, m') →
      (∀ m'', m'.Later m'' → ∃ i, m''.instances[number]? = some i ∧
        i.Linked m''.store m.store module e number) ∧
      ∀ bound' p r m'', Run.host (Machine.enter bound') p m' = some (r, m'') →
        ∃ i, m''.instances[number]? = some i ∧ i.Linked m''.store m.store module e number) ∧
    ∀ t bound, m.checkImports module e = .error t →
      Machine.enter (bound + 1) (.instantiate name module e) m = some (.error (.trap t), m) := by
  obtain ⟨s, built⟩ : ∃ s : Sections, s.build = .ok module := by
    rcases made with built | ⟨bytes, decoded⟩
    · exact built
    · exact Module.decode_built decoded
  have first := Sections.build_importsFirst built
  have ordered := Sections.build_importsInOrder built
  refine ⟨fun bound number m' run => ?_, fun t bound failed => ?_⟩
  · have linked {m'' : Machine σ} (later : m'.Later m'') :
        ∃ i, m''.instances[number]? = some i ∧ i.Linked m''.store m.store module e number := by
      obtain ⟨i, made⟩ := instantiates_of_enter run
      obtain rfl := made.numbered
      have stable := (made.later.trans later).stable
      obtain ⟨i', listed, settles⟩ := stable.instances m.instances.size i Array.getElem?_push_size
      have here := allocated_linked first ordered made.checked m.instances.size name
      rw [Instance.addExports_eq made.exports] at settles
      have new : { Instance.allocated m.store module m.instances.size name e with
        exports := i.exports }.Linked (m.store.allocate module m.instances.size name) m.store
          module e m.instances.size := { here with }
      exact ⟨i', listed, new.kept stable.store settles⟩
    exact ⟨fun m'' later => linked later, fun bound' p r m'' run => linked (later_of_host run)⟩
  · change Run.instantiate _ _ name module e m = _
    rw [Run.instantiate_eq_setUp, Run.bind_apply, Run.allocate_eq, failed]

/-- A module that imports something of each kind, its functions apart from each other, and defines
a function and a table itself. -/
theorem instantiate_links_of_mixed :
    let sections : Sections := {
      types := [⟨[], []⟩, ⟨[.i32], []⟩]
      imports := [⟨"p", "f", .func ⟨1⟩⟩, ⟨"p", "g", .global ⟨.i32, .const⟩⟩,
        ⟨"p", "m", .mem ⟨.atLeast 0⟩⟩, ⟨"p", "h", .func ⟨0⟩⟩,
        ⟨"p", "t", .table ⟨.funcRef, .atLeast 1⟩⟩]
      funcs := [⟨1⟩], tables := [⟨.externRef, .between 1 2⟩], bodies := [⟨[], #[.endOf]⟩] }
    let provided : Store Unit := {
      funcs := #[.module ⟨⟨[], []⟩, [], #[.endOf], 0, "p"⟩,
        .module ⟨⟨[.i32], []⟩, [], #[.endOf], 0, "p"⟩]
      tables := #[.new ⟨.funcRef, .atLeast 1⟩]
      memories := #[.new (.atLeast 0)], globals := #[.null] }
    let e : Externs := { funcs := #[1, 0], tables := #[0], memories := #[0], globals := #[0] }
    let m := { Machine.new {} () with store := provided }
    ∃ module, sections.build = .ok module ∧ ∃ number m' i,
      Machine.enter 9 (.instantiate "a" module e) m = some (.ok number, m') ∧
      m'.instances[number]? = some i ∧ i.Linked m'.store provided module e number := by
  intro sections provided e m
  refine ⟨_, rfl, ?_⟩
  generalize built : Module.mk _ _ _ _ _ _ _ _ _ _ _ _ = module
  have ended : (Machine.enter 9 (.instantiate "a" module e) m).map (fun p => p.1.toBool)
      = some true := by
    subst built
    decide +kernel
  obtain ⟨⟨r, m'⟩, run, success⟩ := Option.map_eq_some_iff.mp ended
  cases r with
  | error h => cases success
  | ok number =>
    have made : ∃ s : Sections, s.build = .ok module := ⟨sections, built ▸ rfl⟩
    obtain ⟨links, -⟩ := instantiate_links m "a" e (.inl made)
    obtain ⟨i, listed, linked⟩ := (links 9 number m' run).1 m' (.refl m')
    exact ⟨number, m', i, run, listed, linked⟩

end Machine

end WasmMachine
