import WasmMachine.Proofs.DecodedModule
import WasmMachine.Proofs.Evolution

/-!
# Where functions belong

The functions that a module defines are numbered for its instance before there is one: the
instance joins the machine after its exports have been looked up.  If an export denotes nothing,
the functions stay behind without an instance, and the next instantiation takes the number that
they carry.  On a machine that only brings in modules whose exports all denote something, an
instantiation that has added functions has added their instance as well, and so every function has
a home (`Machine.Evolves.homes`): the instance that it runs in has been made together with it and
lists it where its module does.
-/

namespace WasmMachine

variable {σ α β : Type}

/-! ## What stays on a machine -/

namespace Machine

variable {Q : Module → Prop} {G : HostProg σ → Prop} {F : Nat → Prop} {m m' : Machine σ}

/-- Functions stay where they are. -/
theorem Evolves.func_kept (evolves : m.Evolves Q G F m') {a : Nat} {f : StoreFunc σ}
    (stored : m.store.funcs[a]? = some f) : m'.store.funcs[a]? = some f := by
  have there {m : Machine σ} (stored : m.store.funcs[a]? = some f) : a < m.store.funcs.size :=
    (Array.getElem?_eq_some_iff.mp stored).1
  induction evolves with
  | refl | frames | fuel | world | register | fill | publish => exact stored
  | trans _ _ first second => exact second (first stored)
  | store op m =>
    have same := op.funcs_eq m.store
    exact (congrArg (·[a]?) same).trans stored
  | link =>
    exact (Array.getElem?_push_lt (there stored)).trans (by rwa [← Array.getElem?_eq_getElem])
  | abandon | allocate =>
    simp only [Store.allocate, Array.append_list]
    exact (Array.getElem?_append_left (there stored)).trans stored

/-- Instances stay what they are, but for getting ready. -/
theorem Evolves.instance_kept (evolves : m.Evolves Q G F m') {n : Nat} {i : Instance}
    (listed : m.instances[n]? = some i) :
    ∃ ready, m'.instances[n]? = some { i with ready := ready } := by
  induction evolves generalizing i with
  | refl | frames | fuel | world | store | link | register | abandon | fill =>
    exact ⟨i.ready, listed⟩
  | trans _ _ first second =>
    obtain ⟨ready, listed₁⟩ := first listed
    obtain ⟨ready', listed₂⟩ := second listed₁
    exact ⟨ready', listed₂⟩
  | allocate =>
    have there := (Array.getElem?_eq_some_iff.mp listed).1
    refine ⟨i.ready, (Array.getElem?_push_lt there).trans ?_⟩
    rwa [← Array.getElem?_eq_getElem]
  | publish inst name m =>
    change ∃ ready, (m.instances.modify inst fun i => { i with ready := true })[n]? = _
    rw [Array.getElem?_modify, listed]
    split
    · exact ⟨true, rfl⟩
    · exact ⟨i.ready, rfl⟩

end Machine

/-! ## Index spaces of modules -/

/-- A module whose index spaces begin with its imports, and whose other functions and
globals are its own. -/
structure Module.ImportsFirst (module : Module) : Prop where
  funcs : ∃ imported defined, module.funcs = imported ++ defined ∧
    imported.length = module.importedFuncs.length ∧ (∀ d ∈ imported, d.body = none) ∧
    ∀ d ∈ defined, ∃ b, d.body = some b
  tables : module.importedTables.length ≤ module.tables.length
  memories : module.importedMemories.length ≤ module.memories.length
  globals : module.importedGlobals.length + module.globalInits.length = module.globals.length

theorem Sections.build_importsFirst {s : Sections} {module : Module}
    (run : s.build = .ok module) :
    module.ImportsFirst := by
  obtain ⟨-, rfl⟩ := Sections.build_eq_ok.mp run
  refine ⟨⟨_, _, rfl, List.length_map _, fun d mem => ?_, fun d mem => ?_⟩, ?_, ?_, ?_⟩
  · obtain ⟨idx, -, rfl⟩ := List.mem_map.mp mem
    rfl
  · obtain ⟨entry, -, rfl⟩ := List.mem_map.mp mem
    exact ⟨_, rfl⟩
  · simp [Sections.joined, Module.importedTables]
  · simp [Sections.joined, Module.importedMemories]
  · -- what is imported has no initialiser, and all others have one
    have others : ((s.imports.filterMap (·.desc.global?)).map
        fun t => (⟨t, none⟩ : GlobalDecl)).filterMap (·.init) = [] := by
      apply List.filterMap_eq_nil_iff.mpr
      intro d mem
      obtain ⟨t, -, rfl⟩ := List.mem_map.mp mem
      rfl
    have own : ((s.globals.map fun g => (⟨g.type, some g.init⟩ : GlobalDecl)).filterMap
        (·.init)).length = s.globals.length := by
      rw [List.filterMap_length_eq_length.mpr, List.length_map]
      intro d mem
      obtain ⟨g, -, rfl⟩ := List.mem_map.mp mem
      rfl
    simp only [Sections.joined, Module.importedGlobals, Module.globalInits,
      List.filterMap_append, others, List.nil_append, own, List.length_append, List.length_map]

theorem getElem?_filterMap_of_all {g : α → Option β} {xs : List α}
    (all : ∀ a ∈ xs, ∃ b, g a = some b) (j : Nat) : (xs.filterMap g)[j]? = xs[j]?.bind g := by
  induction xs generalizing j with
  | nil => rfl
  | cons a xs ih =>
    obtain ⟨b, here⟩ := all a List.mem_cons_self
    rw [List.filterMap_cons_some here]
    cases j with
    | zero => exact here.symm
    | succ j => exact ih (fun a mem => all a (List.mem_cons_of_mem _ mem)) j

/-- The function that a declaration defines. -/
def FuncDecl.made (inst : Nat) (name : String) (d : FuncDecl) : Option ModuleFunc :=
  d.body.map fun b => ⟨d.type, b.locals, b.code, inst, name⟩

namespace Module.ImportsFirst

variable {module : Module} (first : module.ImportsFirst) (inst : Nat) (name : String)
include first

/-- The functions that are defined come from the declarations behind those of imports. -/
theorem definedFuncs_eq : ∃ imported defined, module.funcs = imported ++ defined ∧
    imported.length = module.importedFuncs.length ∧
    module.definedFuncs inst name = defined.filterMap (FuncDecl.made inst name) ∧
    ∀ d ∈ defined, ∃ f, d.made inst name = some f := by
  obtain ⟨imported, defined, funcs, length, absent, present⟩ := first.funcs
  have none : imported.filterMap (FuncDecl.made inst name) = [] :=
    List.filterMap_eq_nil_iff.mpr fun d mem => by rw [FuncDecl.made, absent d mem]; rfl
  refine ⟨imported, defined, funcs, length, ?_, fun d mem => ?_⟩
  · change module.funcs.filterMap (FuncDecl.made inst name) = _
    rw [funcs, List.filterMap_append, none, List.nil_append]
  · obtain ⟨b, body⟩ := present d mem
    exact ⟨_, congrArg (Option.map _) body⟩

theorem getElem?_definedFuncs (j : Nat) : (module.definedFuncs inst name)[j]? =
    module.funcs[module.importedFuncs.length + j]?.bind (FuncDecl.made inst name) := by
  obtain ⟨imported, defined, funcs, length, made, all⟩ := first.definedFuncs_eq inst name
  rw [made, funcs, ← length, List.getElem?_append_right (Nat.le_add_right _ _),
    Nat.add_sub_cancel_left]
  exact getElem?_filterMap_of_all all j

theorem length_definedFuncs :
    module.importedFuncs.length + (module.definedFuncs inst name).length =
      module.funcs.length := by
  obtain ⟨imported, defined, funcs, length, made, all⟩ := first.definedFuncs_eq inst name
  have whole := List.filterMap_length_eq_length.mpr fun d mem =>
    Option.isSome_iff_exists.mpr (all d mem)
  rw [made, funcs, List.length_append, length, whole]

end Module.ImportsFirst

theorem size_freshAddrs (n count : Nat) : (freshAddrs n count).size = count := Array.size_ofFn

/-- An instance has an address for everything that its module declares. -/
structure Instance.Covers (i : Instance) (module : Module) : Prop where
  funcs : i.funcs.size = module.funcs.length
  tables : i.tables.size = module.tables.length
  memories : i.memories.size = module.memories.length
  globals : i.globals.size = module.globals.length

/-- What is given for the imports of a module has been counted. -/
theorem Machine.checkImports_counts {m : Machine σ} {module : Module} {e : Externs}
    (checked : m.checkImports module e = .ok ()) :
    e.funcs.size = module.importedFuncs.length ∧ e.tables.size = module.importedTables.length ∧
      e.memories.size = module.importedMemories.length ∧
      e.globals.size = module.importedGlobals.length := by
  unfold checkImports at checked
  split at checked
  · cases checked
  · next counted => simpa only [not_or, ne_eq, Decidable.not_not] using counted

theorem Module.ImportsFirst.covers {module : Module} (first : module.ImportsFirst) {m : Machine σ}
    {e : Externs} (checked : m.checkImports module e = .ok ()) (inst : Nat) (name : String) :
    (Instance.allocated m.store module inst name e).Covers module := by
  obtain ⟨funcs, tables, memories, globals⟩ := Machine.checkImports_counts checked
  constructor <;> simp only [Instance.allocated, Array.size_append, size_freshAddrs]
  · rw [funcs, first.length_definedFuncs inst name]
  · rw [tables, definedTables, List.length_drop, Nat.add_sub_cancel' first.tables]
  · rw [memories, definedMemories, List.length_drop, Nat.add_sub_cancel' first.memories]
  · rw [globals, first.globals]

/-! ## Exports -/

/-- Whether an export denotes something in the index spaces of a module. Only memory zero can be
exported. -/
def Module.Has (module : Module) : ExportDesc → Prop
  | .func idx => idx.toNat < module.funcs.length
  | .table idx => idx.toNat < module.tables.length
  | .mem idx => idx.val = 0 ∧ 0 < module.memories.length
  | .global idx => idx.toNat < module.globals.length

instance (module : Module) : DecidablePred module.Has
  | .func idx => inferInstanceAs (Decidable (idx.toNat < module.funcs.length))
  | .table idx => inferInstanceAs (Decidable (idx.toNat < module.tables.length))
  | .mem idx => inferInstanceAs (Decidable (idx.val = 0 ∧ 0 < module.memories.length))
  | .global idx => inferInstanceAs (Decidable (idx.toNat < module.globals.length))

/-- A module as it is built, all of whose exports denote something. -/
structure Module.Exporting (module : Module) : Prop where
  built : ∃ s : Sections, s.build = .ok module
  exports : ∀ e ∈ module.exports, module.Has e.desc

namespace Instance

/-- Adding exports changes nothing but the exports. -/
theorem addExports_eq {i i' : Instance} {es : List Export} (run : i.addExports es = .ok i') :
    i' = { i with exports := i'.exports } := by
  induction es generalizing i with
  | nil =>
    cases run
    rfl
  | cons e es ih =>
    obtain ⟨v, -, rest⟩ := Except.exists_of_bind run
    rw [ih rest]

/-- Exports that all denote something can be added. -/
theorem addExports_total {i : Instance} {es : List Export}
    (all : ∀ e ∈ es, ∃ v, i.externVal e.desc = .ok v) : ∃ i', i.addExports es = .ok i' := by
  induction es generalizing i with
  | nil => exact ⟨i, rfl⟩
  | cons e es ih =>
    obtain ⟨v, here⟩ := all e List.mem_cons_self
    obtain ⟨i', rest⟩ := @ih { i with exports := i.exports.insert e.name v } fun e' mem => by
      obtain ⟨v', there⟩ := all e' (List.mem_cons_of_mem _ mem)
      exact ⟨v', by cases desc : e'.desc <;> rw [desc] at there <;> exact there⟩
    refine ⟨i', ?_⟩
    rw [addExports, here]
    exact rest

theorem addrOf_total (space : IndexSpace) {addrs : Array Nat} {idx : UInt32}
    (there : idx.toNat < addrs.size) : ∃ a, addrOf space addrs idx = .ok a := by
  rw [addrOf, Array.getElem?_eq_getElem there]
  exact ⟨_, rfl⟩

end Instance

/-- The exports that the instance of an exporting module has are found. -/
theorem Module.Exporting.addExports_total {module : Module} (exporting : module.Exporting)
    {m : Machine σ} {e : Externs} (checked : m.checkImports module e = .ok ()) (inst : Nat)
    (name : String) :
    ∃ i, (Instance.allocated m.store module inst name e).addExports module.exports = .ok i := by
  obtain ⟨s, built⟩ := exporting.built
  have covers := (Sections.build_importsFirst built).covers checked inst name
  generalize Instance.allocated m.store module inst name e = i at covers
  refine Instance.addExports_total fun ex mem => ?_
  have denotes := exporting.exports ex mem
  cases desc : ex.desc <;> rw [desc] at denotes
  case func idx =>
    obtain ⟨a, there⟩ :=
      Instance.addrOf_total .func (Nat.lt_of_lt_of_eq denotes covers.funcs.symm)
    exact ⟨.func a, congrArg (ExternVal.func <$> ·) there⟩
  case table idx =>
    obtain ⟨a, there⟩ :=
      Instance.addrOf_total .table (Nat.lt_of_lt_of_eq denotes covers.tables.symm)
    exact ⟨.table a, congrArg (ExternVal.table <$> ·) there⟩
  case mem idx =>
    obtain ⟨zero, some⟩ := denotes
    have within : idx.toNat < i.memories.size := by
      rw [Idx.toNat, zero, covers.memories]
      exact some
    obtain ⟨a, there⟩ := Instance.addrOf_total .mem within
    exact ⟨.mem a, congrArg (ExternVal.mem <$> ·) ((if_neg (not_not_intro zero)).trans there)⟩
  case global idx =>
    obtain ⟨a, there⟩ :=
      Instance.addrOf_total .global (Nat.lt_of_lt_of_eq denotes covers.globals.symm)
    exact ⟨.global a, congrArg (ExternVal.global <$> ·) there⟩

/-! ## Homes -/

/-- An instantiation of a module, up to where it runs code, has added a function and its
instance: the instance has the number that the function carries, and lists its address where the
module has the function. -/
structure Machine.Makes (m₀ m₁ : Machine σ) (module : Module) (i : Instance) (a : Nat)
    (f : ModuleFunc) : Prop where
  allocated : ∃ name e firsts, Run.allocate name module e m₀ = some (.ok (f.inst, firsts), m₁)
  new : m₀.store.funcs[a]? = none ∧ m₀.instances[f.inst]? = none
  stored : m₁.store.funcs[a]? = some (.module f)
  listed : m₁.instances[f.inst]? = some i
  place : ∃ (pos : Nat) (d : FuncDecl), i.funcs[pos]? = some a ∧ module.funcs[pos]? = some d ∧
    d.made f.inst i.name = some f

/-- The home of a function that a module defines: one instantiation in the past of the machine has
made the function and the instance that it runs in, and the instance is still there. -/
inductive Machine.Home (Q : Module → Prop) (G : HostProg σ → Prop) (F : Nat → Prop)
    (origin m : Machine σ) (a : Nat) (f : ModuleFunc) : Prop
  | intro {m₀ m₁ : Machine σ} {module : Module} {i : Instance} (ready : Bool) :
    origin.Evolves Q G F m₀ → m₀.Makes m₁ module i a f → m₁.Evolves Q G F m →
    m.instances[f.inst]? = some { i with ready := ready } → Home Q G F origin m a f

namespace Machine

variable {Q : Module → Prop} {G : HostProg σ → Prop} {F : Nat → Prop} {origin m m' : Machine σ}
  {a : Nat} {f : ModuleFunc}

theorem Home.kept (home : Home Q G F origin m a f) (evolves : m.Evolves Q G F m') :
    Home Q G F origin m' a f := by
  obtain ⟨ready, before, makes, after, kept⟩ := home
  obtain ⟨ready', kept'⟩ := evolves.instance_kept kept
  exact .intro ready' before makes (after.trans evolves) kept'

/-- An instantiation that adds an instance makes all the functions that it adds. -/
theorem makes_of_allocate {name : String} {module : Module} {e : Externs} {i : Instance}
    (first : module.ImportsFirst) (checked : m.checkImports module e = .ok ())
    (exports : (Instance.allocated m.store module m.instances.size name e).addExports
      module.exports
      = .ok i) (absent : m.store.funcs[a]? = none)
    (stored : (m.store.allocate module m.instances.size name).funcs[a]? = some (.module f)) :
    m.Makes { m with
      store := m.store.allocate module m.instances.size name
      instances := m.instances.push i } module i a f := by
  have fresh : m.store.funcs.size ≤ a := Array.getElem?_eq_none_iff.mp absent
  obtain ⟨j, rfl⟩ := Nat.exists_eq_add_of_le fresh
  have defined : (module.definedFuncs m.instances.size name)[j]? = some f := by
    rw [Store.allocate, Array.append_list, Array.getElem?_append_right fresh,
      Nat.add_sub_cancel_left, List.getElem?_toArray, List.getElem?_map] at stored
    obtain ⟨g, defined, same⟩ := Option.map_eq_some_iff.mp stored
    cases same
    exact defined
  have declared := first.getElem?_definedFuncs m.instances.size name j
  rw [defined] at declared
  obtain ⟨d, there, made⟩ := Option.bind_eq_some_iff.mp declared.symm
  have number : f.inst = m.instances.size := by
    obtain ⟨b, -, rfl⟩ := Option.map_eq_some_iff.mp made
    rfl
  have added := Instance.addExports_eq exports
  refine ⟨⟨name, e, (m.store.globals.size, m.store.elems.size, m.store.datas.size), ?_⟩,
    ⟨absent, ?_⟩, stored, ?_, module.importedFuncs.length + j, d, ?_, there, ?_⟩
  · rw [number, Run.allocate_eq, checked]
    dsimp only
    rw [exports]
  · rw [number, Array.getElem?_eq_none (Nat.le_refl _)]
  · rw [number]
    exact Array.getElem?_push_size
  · obtain ⟨counted, -⟩ := checkImports_counts checked
    rw [added, Instance.allocated, ← counted, Array.getElem?_append_right (Nat.le_add_right _ _),
      Nat.add_sub_cancel_left]
    have lt := (List.getElem?_eq_some_iff.mp defined).1
    rw [freshAddrs, Array.getElem?_ofFn, dif_pos lt]
  · rw [number, added]
    exact made

/-- Every module function of a machine that began without any has a home, if all modules that it
brings in are exporting. -/
theorem Evolves.homes (evolves : m.Evolves Module.Exporting G F m')
    (before : origin.Evolves Module.Exporting G F m)
    (homes : ∀ a f, m.store.funcs[a]? = some (.module f) →
      Home Module.Exporting G F origin m a f) (a : Nat) (f : ModuleFunc)
    (stored : m'.store.funcs[a]? = some (.module f)) :
    Home Module.Exporting G F origin m' a f := by
  induction evolves generalizing a f with
  | refl => exact homes a f stored
  | trans step _ first second =>
    exact second (before.trans step) (fun a f => first before homes a f) a f stored
  | frames fs m => exact (homes a f stored).kept (.frames fs m)
  | fuel n m => exact (homes a f stored).kept (.fuel n m)
  | world s m => exact (homes a f stored).kept (.world s m)
  | register own m => exact (homes a f stored).kept (.register own m)
  | fill filled values m => exact (homes a f stored).kept (.fill filled values m)
  | publish inst name m => exact (homes a f stored).kept (.publish inst name m)
  | store op m =>
    have same := op.funcs_eq m.store
    exact (homes a f ((congrArg (·[a]?) same).symm.trans stored)).kept (.store op m)
  | @link m key g found =>
    have kept : m.store.funcs[a]? = some (.module f) := by
      change (m.store.funcs.push (.host g))[a]? = _ at stored
      rw [Array.getElem?_push] at stored
      split at stored
      · cases stored
      · exact stored
    exact (homes a f kept).kept (.link found)
  | @abandon m name module e t kind checked failed =>
    obtain ⟨i, exports⟩ := kind.addExports_total checked m.instances.size name
    rw [exports] at failed
    cases failed
  | @allocate m name module e i kind checked exports =>
    obtain ⟨s, built⟩ := kind.built
    cases known : m.store.funcs[a]? with
    | none =>
      have makes :=
        makes_of_allocate (Sections.build_importsFirst built) checked exports known stored
      exact .intro _ before makes (.refl _) makes.listed
    | some g =>
      have evolves : m.Evolves Module.Exporting G F { m with
          store := m.store.allocate module m.instances.size name
          instances := m.instances.push i } := .allocate kind checked exports
      have same := (evolves.func_kept known).symm.trans stored
      cases same
      exact (homes a f known).kept evolves

end Machine

end WasmMachine
