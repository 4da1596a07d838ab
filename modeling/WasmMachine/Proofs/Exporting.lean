import WasmMachine.Proofs.Linking

/-!
# Exports of a module and of its instances

A module lists its exports, and a name is looked up from the front (`Module.export?`).  An
instance has a map, which is filled in the order of the list, so that the last export of a name
counts (`Instance.addExports_last`).  Both know the same names, and if all exports of a name
describe the same thing, they agree on it: what an instance shows under the name is what its index
spaces give for the description that the module has (`Machine.exports_agree`), whatever becomes of
the machine and by whatever way it is looked up (`Machine.Shows`).

Nothing makes sure that names are unique.  With two exports of one name the module and the
instance differ (`Machine.exports_differ`).
-/

namespace WasmMachine

variable {σ : Type}

/-! ## What descriptions denote -/

/-- What a description denotes in an instance: something of the same kind, with the address that
the instance has at the index. -/
inductive ExportDesc.Denotes (i : Instance) : ExportDesc → ExternVal → Prop
  | func {idx : FuncIdx} {addr : Nat} : i.funcs[idx.toNat]? = some addr →
    Denotes i (.func idx) (.func addr)
  | table {idx : TableIdx} {addr : Nat} : i.tables[idx.toNat]? = some addr →
    Denotes i (.table idx) (.table addr)
  | mem {idx : MemIdx} {addr : Nat} : i.memories[idx.toNat]? = some addr →
    Denotes i (.mem idx) (.mem addr)
  | global {idx : GlobalIdx} {addr : Nat} : i.globals[idx.toNat]? = some addr →
    Denotes i (.global idx) (.global addr)

/-- Whether an import asks for something of the kind of a value. -/
def ImportDesc.asks : ImportDesc → ExternVal → Bool
  | .func _, .func _ | .table _, .table _ | .mem _, .mem _ | .global _, .global _ => true
  | _, _ => false

/-- Addresses for imports with one more, of the kind of a value. -/
def Externs.add (e : Externs) : ExternVal → Externs
  | .func addr => { e with funcs := e.funcs.push addr }
  | .table addr => { e with tables := e.tables.push addr }
  | .mem addr => { e with memories := e.memories.push addr }
  | .global addr => { e with globals := e.globals.push addr }

namespace Instance

theorem addrOf_ok {space : IndexSpace} {addrs : Array Nat} {idx : UInt32} {addr : Nat}
    (found : addrOf space addrs idx = .ok addr) : addrs[idx.toNat]? = some addr := by
  unfold addrOf at found
  split at found <;> cases found
  assumption

theorem denotes_of_externVal {i : Instance} {desc : ExportDesc} {v : ExternVal}
    (found : i.externVal desc = .ok v) : desc.Denotes i v := by
  cases desc with
  | func idx =>
    obtain ⟨addr, there, rfl⟩ := Except.exists_of_map found
    exact .func (addrOf_ok there)
  | table idx =>
    obtain ⟨addr, there, rfl⟩ := Except.exists_of_map found
    exact .table (addrOf_ok there)
  | mem idx =>
    obtain ⟨addr, there, rfl⟩ := Except.exists_of_map found
    unfold memAddr at there
    split at there
    · cases there
    · exact .mem (addrOf_ok there)
  | global idx =>
    obtain ⟨addr, there, rfl⟩ := Except.exists_of_map found
    exact .global (addrOf_ok there)

/-- What is denoted depends on the index spaces alone. -/
theorem denotes_of_same {i i' : Instance} {desc : ExportDesc} {v : ExternVal}
    (denotes : desc.Denotes i v)
    (same : i' = { i with exports := i'.exports, ready := i'.ready }) : desc.Denotes i' v := by
  rw [same]
  cases denotes with
  | func there => exact .func there
  | table there => exact .table there
  | mem there => exact .mem there
  | global there => exact .global there

/-! ## Filling the map -/

theorem externVal_of_exports (i : Instance) (exports : Std.HashMap String ExternVal)
    (desc : ExportDesc) : externVal { i with exports } desc = i.externVal desc := by
  cases desc <;> rfl

/-- A name that no export has is found as before. -/
theorem addExports_other {i i' : Instance} {es : List Export} (run : i.addExports es = .ok i')
    {name : String} (none : ∀ ex ∈ es, ex.name ≠ name) :
    i'.exports[name]? = i.exports[name]? := by
  induction es generalizing i with
  | nil =>
    cases run
    rfl
  | cons ex es ih =>
    obtain ⟨other, rest⟩ := List.forall_mem_cons.mp none
    obtain ⟨v, -, run⟩ := Except.exists_of_bind run
    rw [ih run rest, Std.HashMap.getElem?_insert, if_neg (mt eq_of_beq other)]

/-- A name is found with the value of the last export that has it. -/
theorem addExports_last {i i' : Instance} {before after : List Export} {ex : Export}
    (run : i.addExports (before ++ ex :: after) = .ok i')
    (last : ∀ later ∈ after, later.name ≠ ex.name) :
    ∃ v, i.externVal ex.desc = .ok v ∧ i'.exports[ex.name]? = some v := by
  induction before generalizing i with
  | nil =>
    obtain ⟨v, here, run⟩ := Except.exists_of_bind run
    exact ⟨v, here, (addExports_other run last).trans Std.HashMap.getElem?_insert_self⟩
  | cons first before ih =>
    obtain ⟨w, -, run⟩ := Except.exists_of_bind run
    obtain ⟨v, here, found⟩ := ih run
    exact ⟨v, externVal_of_exports i _ ex.desc ▸ here, found⟩

end Instance

/-! ## What an instantiation leaves -/

namespace Machine

variable {m m' : Machine σ} {module : Module} {e : Externs} {name : String} {bound number : Nat}

/-- An instantiation that succeeds leaves an instance with its exports, which is ready and stays
as it is, and its name denotes it. -/
theorem instantiated (run : Machine.enter bound (.instantiate name module e) m =
    some (.ok number, m')) :
    ∃ i, (Instance.allocated m.store module m.instances.size name e).addExports module.exports =
      .ok i ∧
      m'.names[name]? = some number ∧
      ∀ m'', m'.Later m'' → m''.instances[number]? = some { i with ready := true } := by
  obtain ⟨i, made⟩ := instantiates_of_enter run
  obtain rfl := made.numbered
  -- nothing that initialises the instance changes its maps; that it is ready comes from its end
  obtain ⟨i', listed, settles⟩ :=
    made.later.stable.instances m.instances.size i Array.getElem?_push_size
  obtain ⟨inner, m₁, -, rfl⟩ := made.initialised
  have ready : i'.ready = true := by
    rw [Array.getElem?_modify, if_pos rfl] at listed
    obtain ⟨i₁, -, rfl⟩ := Option.map_eq_some_iff.mp listed
    rfl
  refine ⟨i, made.exports, Std.HashMap.getElem?_insert_self, fun m'' later => ?_⟩
  obtain ⟨i'', listed', settles'⟩ := later.stable.instances _ i' listed
  rw [listed', (settles.trans settles').same, settles'.ready ready]

/-! ## Looking exports up -/

/-- The instance `i`, which has a number and is registered under a name as long as the name
denotes that number, shows what a description denotes: as its export, by itself and by its kind;
as the function of the two names; and to imports, which get it if they ask for something of its
kind and fail otherwise. -/
structure Shows (m : Machine σ) (number : Nat) (name : String) (i : Instance) (n : String)
    (desc : ExportDesc) (v : ExternVal) : Prop where
  denotes : desc.Denotes i v
  exported : m.exported? number n = some v
  func : ∀ idx, desc = .func idx → (m.exported? number n).bind ExternVal.func? =
    i.funcs[idx.toNat]?
  table : ∀ idx, desc = .table idx → (m.exported? number n).bind ExternVal.table? =
    i.tables[idx.toNat]?
  mem : ∀ idx, desc = .mem idx → (m.exported? number n).bind ExternVal.mem? =
    i.memories[idx.toNat]?
  global : ∀ idx, desc = .global idx →
    (m.exported? number n).bind ExternVal.global? = i.globals[idx.toNat]?
  getFunc : m.names[name]? = some number → ∀ addr, v = .func addr → m.getFunc? name n = some addr
  resolved : m.names[name]? = some number → ∀ types i e, i.module = name → i.name = n →
    m.resolveImport types i e =
      if i.desc.asks v then (.ok (e.add v), m) else (.error (.link (.unresolved i)), m)

theorem exported?_of_ready {i : Instance} (listed : m.instances[number]? = some i)
    (ready : i.ready = true) (n : String) : m.exported? number n = i.exports[n]? := by
  rw [exported?, instance?, listed, Option.filter_some, ready]
  rfl

theorem namedExport?_of_named {i : Instance} (named : m.names[name]? = some number)
    (listed : m.instances[number]? = some i) (n : String) :
    m.namedExport? name n = i.exports[n]? := by
  simp only [namedExport?, named, listed, Option.bind_eq_bind, Option.bind_some]

theorem resolveImport_of_namedExport (types : Array FuncType) {i : Import} (e : Externs)
    {v : ExternVal} (found : m.namedExport? i.module i.name = some v) :
    m.resolveImport types i e =
      if i.desc.asks v then (.ok (e.add v), m) else (.error (.link (.unresolved i)), m) := by
  unfold resolveImport
  rw [found]
  cases i.desc <;> cases v <;> rfl

theorem shows_of_denotes {i : Instance} {n : String} {desc : ExportDesc} {v : ExternVal}
    (listed : m.instances[number]? = some i) (ready : i.ready = true) (denotes : desc.Denotes i v)
    (found : i.exports[n]? = some v) : m.Shows number name i n desc v := by
  have exported : m.exported? number n = some v := (exported?_of_ready listed ready n).trans found
  have named (there : m.names[name]? = some number) : m.namedExport? name n = some v :=
    (namedExport?_of_named there listed n).trans found
  refine ⟨denotes, exported, fun idx is => ?_, fun idx is => ?_, fun idx is => ?_,
    fun idx is => ?_, fun there addr is => ?_, fun there types i e module is => ?_⟩
  iterate 4
    subst is
    cases denotes with | _ at_ => rw [exported, at_]; rfl
  · rw [getFunc?, named there, is]
  · subst module is
    exact resolveImport_of_namedExport types e (named there)

end Machine

theorem Module.export?_eq_none {module : Module} {n : String} :
    module.export? n = none ↔ ∀ ex ∈ module.exports, ex.name ≠ n := by
  rw [export?, Option.map_eq_none_iff, List.find?_eq_none]
  exact forall₂_congr fun ex _ => not_congr beq_iff_eq

/-- An instantiation that succeeds gives the number of an instance that its name denotes. Whatever
becomes of the machine, the instance exports something under a name exactly if the module does; as
long as its own name denotes it, it is looked up by that as it is by its number; and if all
exports of a name are described alike, what it shows under the name is what the description of the
module denotes. -/
theorem Machine.exports_agree {m m' : Machine σ} {module : Module} {e : Externs} {name : String}
    {bound number : Nat}
    (run : Machine.enter bound (.instantiate name module e) m = some (.ok number, m')) :
    m'.names[name]? = some number ∧ ∀ m'', m'.Later m'' → ∃ i, m''.instance? number = some i ∧
      ∀ n : String, (m''.exported? number n = none ↔ module.export? n = none) ∧
        (m''.names[name]? = some number → m''.namedExport? name n = m''.exported? number n) ∧
        ∀ desc, module.export? n = some desc →
          (∀ ex ∈ module.exports, ex.name = n → ex.desc = desc) →
          ∃ v, m''.Shows number name i n desc v := by
  obtain ⟨i, exports, named, kept⟩ := instantiated run
  refine ⟨named, fun m'' later => ⟨{ i with ready := true }, ?_, fun n => ?_⟩⟩
  · rw [instance?, kept m'' later]
    rfl
  have listed := kept m'' later
  have exported := exported?_of_ready listed rfl n
  refine ⟨?_, fun there => (namedExport?_of_named there listed n).trans exported.symm,
    fun desc described alike => ?_⟩
  · rw [exported, Module.export?_eq_none]
    refine ⟨fun missing ex mem is => ?_, fun none => ?_⟩
    · have named : ∃ ex ∈ module.exports, ex.name = n := ⟨ex, mem, is⟩
      obtain ⟨before, last, after, all, rfl, later⟩ := List.exists_last named
      obtain ⟨v, -, found⟩ := Instance.addExports_last (all ▸ exports) later
      cases found.symm.trans missing
    · exact (Instance.addExports_other exports none).trans Std.HashMap.getElem?_empty
  · have named : ∃ ex ∈ module.exports, ex.name = n := by
      refine Classical.byContradiction fun none => ?_
      rw [Module.export?_eq_none.mpr fun ex mem is => none ⟨ex, mem, is⟩] at described
      cases described
    obtain ⟨before, last, after, all, rfl, later⟩ := List.exists_last named
    obtain ⟨v, value, found⟩ := Instance.addExports_last (all ▸ exports) later
    have same := alike last (all ▸ List.mem_append_right _ List.mem_cons_self) rfl
    have denotes := Instance.denotes_of_externVal (same ▸ value)
    have spaces := Instance.addExports_eq exports
    exact ⟨v, shows_of_denotes listed rfl
      (Instance.denotes_of_same denotes (by rw [spaces])) found⟩

/-- A module that exports something of each kind. -/
theorem Machine.exports_agree_of_kinds :
    let sections : Sections := {
      types := [⟨[], []⟩], funcs := [⟨0⟩], bodies := [⟨[], #[.endOf]⟩]
      tables := [⟨.funcRef, .atLeast 1⟩], memories := [⟨.atLeast 0⟩]
      globals := [⟨⟨.i32, .const⟩, #[.i32Const 7, .endOf]⟩]
      exports := [⟨"f", .func ⟨0⟩⟩, ⟨"t", .table ⟨0⟩⟩, ⟨"m", .mem ⟨0⟩⟩, ⟨"g", .global ⟨0⟩⟩] }
    ∃ module, sections.build = .ok module ∧ ∃ number m' i,
      Machine.enter 9 (.instantiate "a" module {}) (.new {} ()) = some (.ok number, m') ∧
      m'.instance? number = some i ∧ m'.exported? number "x" = none ∧
      ∀ ex ∈ module.exports, ∃ v, m'.Shows number "a" i ex.name ex.desc v := by
  intro sections
  refine ⟨_, rfl, ?_⟩
  generalize built : Module.mk _ _ _ _ _ _ _ _ _ _ _ _ = module
  have ended : (Machine.enter 9 (.instantiate "a" module {}) (Machine.new {} ())).map
      (fun p => p.1.toBool) = some true := by
    subst built
    decide +kernel
  have exports : module.exports = sections.exports := built ▸ rfl
  obtain ⟨⟨r, m'⟩, run, success⟩ := Option.map_eq_some_iff.mp ended
  cases r with
  | error h => cases success
  | ok number =>
    obtain ⟨-, agree⟩ := exports_agree run
    obtain ⟨i, made, agree⟩ := agree m' (.refl m')
    refine ⟨number, m', i, run, made, (agree "x").1.mpr ?_, fun ex mem =>
      (agree ex.name).2.2 _ ?_ ?_⟩
    · rw [Module.export?, exports]
      decide +kernel
    · rw [Module.export?, exports]
      rw [exports] at mem
      revert ex
      decide +kernel
    · rw [exports] at mem ⊢
      revert ex
      decide +kernel

/-- Two exports of one name: the module finds the first, the instance shows the second. -/
theorem Machine.exports_differ :
    let sections : Sections := {
      types := [⟨[], []⟩], funcs := [⟨0⟩, ⟨0⟩], bodies := [⟨[], #[.endOf]⟩, ⟨[], #[.endOf]⟩]
      exports := [⟨"f", .func ⟨0⟩⟩, ⟨"f", .func ⟨1⟩⟩] }
    ∃ module, sections.build = .ok module ∧ module.export? "f" = some (.func ⟨0⟩) ∧
      ∃ number m' i, Machine.enter 9 (.instantiate "a" module {}) (.new {} ()) =
        some (.ok number, m') ∧
        m'.instance? number = some i ∧ i.funcs = #[0, 1] ∧
        m'.exported? number "f" = some (.func 1) := by
  intro sections
  refine ⟨_, rfl, ?_⟩
  generalize built : Module.mk _ _ _ _ _ _ _ _ _ _ _ _ = module
  have ended : ((Machine.enter 9 (.instantiate "a" module {}) (Machine.new {} ())).bind fun p =>
      p.1.toOption.bind fun n => p.2.instances[n]?.map (·.funcs)) = some #[0, 1] := by
    subst built
    decide +kernel
  have described : module.export? "f" = some (.func ⟨0⟩) := by
    subst built
    decide +kernel
  have exports : module.exports = sections.exports := built ▸ rfl
  obtain ⟨⟨r, m'⟩, run, ended⟩ := Option.bind_eq_some_iff.mp ended
  obtain ⟨number, success, ended⟩ := Option.bind_eq_some_iff.mp ended
  obtain ⟨i, listed, funcs⟩ := Option.map_eq_some_iff.mp ended
  cases (Except.of_toOption success : r = _)
  obtain ⟨i', added, -, kept⟩ := instantiated run
  cases listed.symm.trans (kept m' (.refl m'))
  refine ⟨described, number, m', _, run, ?_, funcs, ?_⟩
  · rw [instance?, listed]
    rfl
  · have listed' : module.exports = [⟨"f", .func ⟨0⟩⟩] ++ ⟨"f", .func ⟨1⟩⟩ :: [] := exports
    obtain ⟨v, value, found⟩ := Instance.addExports_last (listed' ▸ added)
      fun later mem => absurd mem List.not_mem_nil
    have spaces := Instance.addExports_eq added
    have denotes : ExportDesc.Denotes i' (.func ⟨1⟩) v :=
      Instance.denotes_of_same (Instance.denotes_of_externVal value) (by rw [spaces])
    rw [exported?_of_ready listed rfl, found]
    cases denotes with
    | func there =>
      have there' : i'.funcs[1]? = _ := there
      have funcs' : i'.funcs = _ := funcs
      rw [funcs'] at there'
      cases there'
      rfl

end WasmMachine
