import Mathlib.Data.List.Induction
import WasmMachine.Proofs.Exporting

/-!
# Linking by name

The imports of a module are resolved one after the other, and each one either adds an address of
its kind to those that are there or ends the resolution.  All that this ever changes is that host
functions are appended to the functions of the store (`Machine.withHosts`), so that every import
is looked up as it would be on the machine in the beginning.

* `Machine.resolveImport_step`: what one import adds.
* `Machine.resolveExterns_exact`: what all imports of a module get, or how far they come.
-/

namespace WasmMachine

variable {σ : Type}

/-! ## Kinds -/

/-- The kind of thing that an import asks for. -/
def ImportDesc.space : ImportDesc → IndexSpace
  | .func _ => .func
  | .table _ => .table
  | .mem _ => .mem
  | .global _ => .global

/-- The kind of an exported thing. -/
def ExternVal.space : ExternVal → IndexSpace
  | .func _ => .func
  | .table _ => .table
  | .mem _ => .mem
  | .global _ => .global

/-- What is given of a kind, in the order in which it has been added. -/
def Externs.given (e : Externs) : IndexSpace → List ExternVal
  | .func => e.funcs.toList.map .func
  | .table => e.tables.toList.map .table
  | .mem => e.memories.toList.map .mem
  | .global => e.globals.toList.map .global
  | _ => []

theorem ImportDesc.asks_iff (d : ImportDesc) (v : ExternVal) :
    d.asks v = true ↔ v.space = d.space := by
  cases d <;> cases v <;> simp [asks, space, ExternVal.space]

theorem Externs.given_empty (s : IndexSpace) : ({} : Externs).given s = [] := by
  cases s <;> rfl

/-- What is added comes last among the things of its kind. -/
theorem Externs.given_add (e : Externs) (v : ExternVal) (s : IndexSpace) :
    (e.add v).given s = e.given s ++ if v.space = s then [v] else [] := by
  cases v <;> cases s <;> simp [add, given, ExternVal.space]

/-- As many imports ask for a kind as a module has in the list of that kind. -/
theorem Module.countP_space {δ : Type} (module : Module) {s : IndexSpace}
    {pick : ImportDesc → Option δ} (picks : ∀ d, (pick d).isSome = (d.space == s)) :
    module.imports.countP (·.desc.space == s) =
      (module.imports.filterMap (pick ·.desc)).length := by
  rw [List.length_filterMap_eq_countP]
  exact List.countP_congr fun i _ => by rw [picks]

namespace Machine

/-! ## One import -/

/-- A machine with further host functions in its store. -/
def withHosts (m : Machine σ) (fs : List (HostFunc σ)) : Machine σ :=
  { m with store := { m.store with funcs := m.store.funcs ++ fs.map StoreFunc.host } }

/-- The host function that an import takes from the registry. It takes none unless it asks for a
function and nothing is exported under its names. -/
def taken? (m : Machine σ) (i : Import) : Option (HostFunc σ) :=
  match i.desc, m.namedExport? i.module i.name with
  | .func _, none => m.hostFuncs[HostFunc.key i.module i.name]?
  | _, _ => none

/-- The host functions that imports take from the registry. -/
def taken (m : Machine σ) (is : List Import) : List (HostFunc σ) := is.filterMap m.taken?

/-- There is something for an import: an export of the kind that it asks for, or a host function
for one that asks for a function of a known type and does not find any export. -/
def Satisfies (m : Machine σ) (types : Array FuncType) (i : Import) : Prop :=
  (∃ v, m.namedExport? i.module i.name = some v ∧ v.space = i.desc.space) ∨
    m.namedExport? i.module i.name = none ∧ ∃ idx f, i.desc = .func idx ∧ idx.toNat < types.size ∧
      m.hostFuncs[HostFunc.key i.module i.name]? = some f

/-- What an import gets: the export, or else the next function of the store, which is a copy of
the one that is registered for it. -/
inductive Supplies (m m' : Machine σ) (next : Nat) (i : Import) : ExternVal → Prop
  | exported {v : ExternVal} : m.namedExport? i.module i.name = some v → v.space = i.desc.space →
    Supplies m m' next i v
  | hosted {idx : TypeIdx} {f : HostFunc σ} : i.desc = .func idx →
    m.namedExport? i.module i.name = none → m.hostFuncs[HostFunc.key i.module i.name]? = some f →
    m'.store.funcs[next]? = some (.host f) → Supplies m m' next i (.func next)

variable {m : Machine σ}

theorem withHosts_nil (m : Machine σ) : m.withHosts [] = m := by
  simp [withHosts]

theorem withHosts_append (m : Machine σ) (fs gs : List (HostFunc σ)) :
    m.withHosts (fs ++ gs) = (m.withHosts fs).withHosts gs := by
  simp [withHosts, Array.append_list]

theorem withHosts_concat (m : Machine σ) (fs : List (HostFunc σ)) (f : HostFunc σ) :
    m.withHosts (fs ++ [f]) = ((m.withHosts fs).addFunc (.host f)).2 := by
  rw [withHosts_append]
  simp [withHosts, addFunc]

theorem size_withHosts (m : Machine σ) (fs : List (HostFunc σ)) :
    (m.withHosts fs).store.funcs.size = m.store.funcs.size + fs.length := by
  simp [withHosts, Array.append_list]

theorem Supplies.space_eq {m' : Machine σ} {next : Nat} {i : Import} {v : ExternVal}
    (supplies : m.Supplies m' next i v) : v.space = i.desc.space := by
  cases supplies with
  | exported _ kind => exact kind
  | hosted desc => rw [desc]; rfl

/-- What an import gets does not depend on what others get after it. -/
theorem Supplies.mono {fs : List (HostFunc σ)} {next : Nat} {i : Import} {v : ExternVal}
    (supplies : m.Supplies (m.withHosts fs) next i v) (gs : List (HostFunc σ)) :
    m.Supplies (m.withHosts (fs ++ gs)) next i v := by
  cases supplies with
  | exported found kind => exact .exported found kind
  | hosted desc missing registered stored =>
    refine .hosted desc missing registered ?_
    have there := (Array.getElem?_eq_some_iff.mp stored).1
    rw [withHosts_append, withHosts, Array.append_list, Array.getElem?_append_left there]
    exact stored

/-- Without an export of its names, an import is satisfied by a registered function or not at
all. -/
theorem satisfies_iff_of_missing (types : Array FuncType) {i : Import}
    (missing : m.namedExport? i.module i.name = none) : m.Satisfies types i ↔
      ∃ idx f, i.desc = .func idx ∧ idx.toNat < types.size ∧
        m.hostFuncs[HostFunc.key i.module i.name]? = some f := by
  refine ⟨fun satisfies => ?_, fun there => .inr ⟨missing, there⟩⟩
  rcases satisfies with ⟨v, found, -⟩ | ⟨-, there⟩
  · cases missing.symm.trans found
  · exact there

theorem resolveImport_of_missing (types : Array FuncType) {i : Import} (e : Externs)
    (missing : m.namedExport? i.module i.name = none) : m.resolveImport types i e =
      match i.desc with
      | .func idx => match types[idx.toNat]?, m.hostFuncs[HostFunc.key i.module i.name]? with
        | none, _ => (.error (.index .type idx.toNat), m)
        | some type, none => (.error (.noHostFunc (HostFunc.key i.module i.name) type), m)
        | some _, some f => (.ok (e.add (.func m.store.funcs.size)), (m.addFunc (.host f)).2)
      | _ => (.error (.link (.unresolved i)), m) := by
  unfold resolveImport
  rw [missing]
  cases i.desc with
  | func idx =>
    dsimp only
    cases types[idx.toNat]? with
    | none => rfl
    | some type =>
      dsimp only [resolveHostFunc]
      cases m.hostFuncs[HostFunc.key i.module i.name]? <;> rfl
  | _ => rfl

/-- What may come of resolving an import after others, which have taken host functions from the
registry: it adds what it gets, and what it takes itself, or it fails and changes nothing. -/
inductive Resolution (m : Machine σ) (types : Array FuncType) (fs : List (HostFunc σ))
    (i : Import) (e : Externs) : Except Trap Externs × Machine σ → Prop
  | gets {v : ExternVal} {gs : List (HostFunc σ)} : m.Satisfies types i →
      (m.taken? i).toList = gs →
    m.Supplies (m.withHosts (fs ++ gs)) (m.store.funcs.size + fs.length) i v →
    Resolution m types fs i e (.ok (e.add v), m.withHosts (fs ++ gs))
  | fails {t : Trap} : ¬ m.Satisfies types i →
      Resolution m types fs i e (.error t, m.withHosts fs)

variable (types : Array FuncType) (fs : List (HostFunc σ)) {i : Import} (e : Externs)

theorem resolution_of_found {v : ExternVal} (found : m.namedExport? i.module i.name = some v) :
    m.Resolution types fs i e ((m.withHosts fs).resolveImport types i e) := by
  have found' : (m.withHosts fs).namedExport? i.module i.name = some v := found
  have takes : (m.taken? i).toList = [] := by
    unfold taken?
    rw [found]
    cases i.desc <;> rfl
  rw [resolveImport_of_namedExport types e found']
  by_cases kind : v.space = i.desc.space
  · have gets : m.Resolution types fs i e _ :=
      .gets (.inl ⟨v, found, kind⟩) takes (.exported found kind)
    rw [List.append_nil] at gets
    rw [if_pos ((i.desc.asks_iff v).mpr kind)]
    exact gets
  · rw [if_neg (mt (i.desc.asks_iff v).mp kind)]
    refine .fails ?_
    rintro (⟨w, found', kind'⟩ | ⟨missing, -⟩)
    · cases found.symm.trans found'
      exact kind kind'
    · cases found.symm.trans missing

theorem resolution_of_missing (missing : m.namedExport? i.module i.name = none) :
    m.Resolution types fs i e ((m.withHosts fs).resolveImport types i e) := by
  have missing' : (m.withHosts fs).namedExport? i.module i.name = none := missing
  have kept : (m.withHosts fs).hostFuncs = m.hostFuncs := rfl
  have satisfied := satisfies_iff_of_missing types missing
  rw [resolveImport_of_missing types e missing', kept]
  cases desc : i.desc with
  | func idx =>
    rw [desc] at satisfied
    dsimp only
    cases known : types[idx.toNat]? with
    | none =>
      refine .fails fun satisfies => ?_
      obtain ⟨_, f, ⟨⟩, lt, -⟩ := satisfied.mp satisfies
      exact absurd (Array.getElem?_eq_none_iff.mp known) (Nat.not_le.mpr lt)
    | some type =>
      have lt := (Array.getElem?_eq_some_iff.mp known).1
      cases registered : m.hostFuncs[HostFunc.key i.module i.name]? with
      | none =>
        refine .fails fun satisfies => ?_
        obtain ⟨_, f, -, -, there⟩ := satisfied.mp satisfies
        cases registered.symm.trans there
      | some f =>
        have takes : (m.taken? i).toList = [f] := by
          rw [taken?, desc, missing]
          exact congrArg Option.toList registered
        have stored : (m.withHosts (fs ++ [f])).store.funcs[m.store.funcs.size + fs.length]?
            = some (.host f) := by
          rw [withHosts_concat, ← size_withHosts]
          exact Array.getElem?_push_size
        have gets : m.Resolution types fs i e _ :=
          .gets (satisfied.mpr ⟨idx, f, rfl, lt, registered⟩) takes
            (.hosted desc missing registered stored)
        rw [withHosts_concat, ← size_withHosts] at gets
        exact gets
  | _ =>
    refine .fails fun satisfies => ?_
    obtain ⟨_, _, kind, -⟩ := satisfied.mp satisfies
    cases desc.symm.trans kind

/-- An import adds what it gets, or fails and changes nothing. -/
theorem resolveImport_step (m : Machine σ) (i : Import) :
    m.Resolution types fs i e ((m.withHosts fs).resolveImport types i e) := by
  cases found : m.namedExport? i.module i.name with
  | some v => exact resolution_of_found types fs e found
  | none => exact resolution_of_missing types fs e found

/-! ## All imports -/

/-- The addresses that are given line up with imports: there are as many of each kind as there are
imports of it, and each import has got what is given at its own place among those of its kind. -/
structure Resolved (m m' : Machine σ) (is : List Import) (e : Externs) : Prop where
  count : ∀ s, (e.given s).length = is.countP (·.desc.space == s)
  each : ∀ {k : Nat} {i : Import}, is[k]? = some i → ∃ v,
    (e.given i.desc.space)[(is.take k).countP (·.desc.space == i.desc.space)]? = some v ∧
      m.Supplies m' (m.store.funcs.size + (m.taken (is.take k)).length) i v

theorem taken_concat (m : Machine σ) (is : List Import) (i : Import) :
    m.taken (is ++ [i]) = m.taken is ++ (m.taken? i).toList := by
  rw [taken, List.filterMap_append, taken]
  cases takes : m.taken? i <;> simp [takes]

theorem resolved_nil (m m' : Machine σ) : m.Resolved m' [] {} where
  count s := by rw [Externs.given_empty]; rfl
  each there := by cases there

variable {types fs e}

/-- One more import is given its address behind those that are there. -/
theorem Resolved.concat {is : List Import} {gs : List (HostFunc σ)} {v : ExternVal}
    (resolved : m.Resolved (m.withHosts (m.taken is)) is e)
    (supplies : m.Supplies (m.withHosts (m.taken is ++ gs))
      (m.store.funcs.size + (m.taken is).length) i v) :
    m.Resolved (m.withHosts (m.taken is ++ gs)) (is ++ [i]) (e.add v) := by
  have kind := supplies.space_eq
  constructor
  · intro s
    rw [Externs.given_add, List.length_append, resolved.count, List.countP_append,
      List.countP_singleton, kind]
    by_cases same : i.desc.space = s
    · rw [if_pos same, if_pos (beq_iff_eq.mpr same)]
      rfl
    · rw [if_neg same, if_neg (mt beq_iff_eq.mp same)]
      rfl
  · intro k j there
    by_cases before : k < is.length
    · rw [List.getElem?_append_left before] at there
      obtain ⟨w, given, supplies'⟩ := resolved.each there
      rw [List.take_append_of_le_length (Nat.le_of_lt before), Externs.given_add]
      refine ⟨w, ?_, supplies'.mono gs⟩
      rw [List.getElem?_append_left (List.getElem?_eq_some_iff.mp given).1]
      exact given
    · -- the new import is the last one
      obtain ⟨rfl, rfl⟩ : is.length = k ∧ i = j := by
        have last := (List.getElem?_eq_some_iff.mp there).1
        rw [List.length_append, List.length_singleton] at last
        have same : is.length = k := by omega
        rw [← same, List.getElem?_append_right (Nat.le_refl _), Nat.sub_self] at there
        exact ⟨same, Option.some.inj there⟩
      rw [List.take_left' rfl, Externs.given_add, if_pos kind, ← resolved.count]
      exact ⟨v, List.getElem?_concat_length, supplies⟩

/-- Imports are resolved one after the other. -/
theorem resolveImports_concat (types : Array FuncType) (is : List Import) (i : Import)
    (e : Externs)
    (m : Machine σ) :
    resolveImports types (is ++ [i]) e m = match resolveImports types is e m with
      | (.ok e, m) => m.resolveImport types i e
      | (.error t, m) => (.error t, m) := by
  induction is generalizing e m with
  | nil =>
    rw [List.nil_append, resolveImports, resolveImports]
    dsimp only
    cases m.resolveImport types i e with | mk r m' => cases r <;> rfl
  | cons j is ih =>
    rw [List.cons_append, resolveImports, resolveImports]
    cases m.resolveImport types j e with | mk r m' =>
    cases r with
    | ok e' => exact ih e' m'
    | error t => rfl

/-- All imports get something, or there is a first one for which there is nothing. -/
theorem resolveImports_prefix (m : Machine σ) (types : Array FuncType) (is : List Import) :
    (∃ e, resolveImports types is {} m = (.ok e, m.withHosts (m.taken is)) ∧
      m.Resolved (m.withHosts (m.taken is)) is e ∧ ∀ i ∈ is, m.Satisfies types i) ∨
    ∃ before i after t, is = before ++ i :: after ∧ (∀ j ∈ before, m.Satisfies types j) ∧
      ¬ m.Satisfies types i ∧ resolveImports types is {} m =
        (.error t, m.withHosts (m.taken before)) := by
  induction is using List.reverseRecOn with
  | nil =>
    refine .inl ⟨{}, ?_, resolved_nil m _, fun i mem => by cases mem⟩
    rw [resolveImports, taken, List.filterMap_nil, withHosts_nil]
  | append_singleton is i ih =>
    rw [resolveImports_concat]
    rcases ih with ⟨e, run, resolved, all⟩ | ⟨before, j, after, t, split, all, none, run⟩
    · rw [run]
      dsimp only
      have step := resolveImport_step types (m.taken is) e m i
      cases outcome : (m.withHosts (m.taken is)).resolveImport types i e with | mk r m'
      rw [outcome] at step
      cases step with
      | gets satisfies takes supplies =>
        rw [taken_concat, takes]
        refine .inl ⟨_, rfl, resolved.concat supplies, fun j mem => ?_⟩
        rcases List.mem_append.mp mem with there | last
        · exact all j there
        · exact List.mem_singleton.mp last ▸ satisfies
      | fails none =>
        exact .inr ⟨is, i, [], _, rfl, all, none, rfl⟩
    · rw [run]
      exact .inr ⟨before, j, after ++ [i], t, by rw [split, List.append_assoc]; rfl,
        all, none, rfl⟩

/-! ## The imports of a module -/

/-- There are as many addresses as the module has imports, for each kind. -/
theorem Resolved.sizes {m' : Machine σ} {module : Module}
    (resolved : m.Resolved m' module.imports e) :
    e.funcs.size = module.importedFuncs.length ∧ e.tables.size = module.importedTables.length ∧
      e.memories.size = module.importedMemories.length ∧
      e.globals.size = module.importedGlobals.length := by
  have length {f : Nat → ExternVal} (addrs : Array Nat) : (addrs.toList.map f).length =
      addrs.size := by
    rw [List.length_map, Array.length_toList]
  have funcs : (e.given .func).length = module.importedFuncs.length :=
    (resolved.count _).trans (module.countP_space (by rintro ⟨⟩ <;> rfl))
  have tables : (e.given .table).length = module.importedTables.length :=
    (resolved.count _).trans (module.countP_space (by rintro ⟨⟩ <;> rfl))
  have memories : (e.given .mem).length = module.importedMemories.length :=
    (resolved.count _).trans (module.countP_space (by rintro ⟨⟩ <;> rfl))
  have globals : (e.given .global).length = module.importedGlobals.length :=
    (resolved.count _).trans (module.countP_space (by rintro ⟨⟩ <;> rfl))
  simp only [Externs.given, length] at funcs tables memories globals
  exact ⟨funcs, tables, memories, globals⟩

end Machine

/-- Whether a trap says that the numbers of addresses and of imports differ. -/
def Trap.isCount : Trap → Bool
  | .link (.count ..) => true
  | _ => false

theorem Except.error_of_bind {α β : Type} {x : Except Trap α} {k : α → Except Trap β} {t : Trap}
    (failed : x >>= k = .error t) : x = .error t ∨ ∃ a, k a = .error t := by
  cases x with
  | ok a => exact .inr ⟨a, failed⟩
  | error t' =>
    cases failed
    exact .inl rfl

namespace Machine

variable {m : Machine σ} {types : Array FuncType} {i : Import} {t : Trap}

theorem checkFunc_uncounted {idx : TypeIdx} {addr : Nat}
    (failed : m.checkFunc types i idx addr = .error t) :
    t.isCount = false := by
  unfold checkFunc at failed
  split at failed
  · cases failed
    rfl
  · split at failed
    · cases failed
      rfl
    · split at failed <;> cases failed
      rfl

theorem checkTable_uncounted {type : TableType} {addr : Nat}
    (failed : m.checkTable i type addr = .error t) :
    t.isCount = false := by
  unfold checkTable at failed
  split at failed
  · cases failed
    rfl
  · split at failed <;> cases failed
    rfl

theorem checkMemory_uncounted {type : MemType} {addr : Nat}
    (failed : m.checkMemory i type addr = .error t) :
    t.isCount = false := by
  unfold checkMemory at failed
  split at failed
  · cases failed
    rfl
  · split at failed <;> cases failed
    rfl

/-- Whatever is wrong with an address, it is not a matter of numbers. -/
theorem checkEach_uncounted {is : List Import} {funcs tables memories : List Nat}
    (failed : m.checkEach types is funcs tables memories = .error t) : t.isCount = false := by
  induction is generalizing funcs tables memories with
  | nil => cases failed
  | cons i is ih =>
    unfold checkEach at failed
    cases desc : i.desc with
    | func idx =>
      rw [desc] at failed
      rcases Except.error_of_bind failed with first | ⟨_, rest⟩
      · exact checkFunc_uncounted first
      · exact ih rest
    | table type =>
      rw [desc] at failed
      rcases Except.error_of_bind failed with first | ⟨_, rest⟩
      · exact checkTable_uncounted first
      · exact ih rest
    | mem type =>
      rw [desc] at failed
      rcases Except.error_of_bind failed with first | ⟨_, rest⟩
      · exact checkMemory_uncounted first
      · exact ih rest
    | global type =>
      rw [desc] at failed
      exact ih failed

/-- What resolving gives for the imports of a module may be refused, but never for its numbers. -/
theorem Resolved.checkImports_uncounted {m' m'' : Machine σ} {module : Module} {e : Externs}
    (resolved : m.Resolved m' module.imports e) (failed : m''.checkImports module e = .error t) :
    t.isCount = false := by
  have counted : ¬ (e.funcs.size ≠ module.importedFuncs.length ∨
      e.tables.size ≠ module.importedTables.length ∨
      e.memories.size ≠ module.importedMemories.length ∨
      e.globals.size ≠ module.importedGlobals.length) := by
    obtain ⟨funcs, tables, memories, globals⟩ := resolved.sizes
    rintro (wrong | wrong | wrong | wrong)
    · exact wrong funcs
    · exact wrong tables
    · exact wrong memories
    · exact wrong globals
  rw [checkImports, if_neg counted] at failed
  exact checkEach_uncounted failed

/-- Resolving the imports of a module either gives addresses that line up with them, so that no
machine refuses them for their numbers, or it ends at the first import for which there is nothing.
In both cases it changes nothing but that it appends, to the functions of the store, the host
functions which the imports before that end take from the registry. It ends at the latest at
an import for whose names something of another kind is exported, or which asks for anything but
a function and finds no export. -/
theorem resolveExterns_exact (m : Machine σ) (module : Module) :
    ((∃ e, m.resolveExterns module = (.ok e, m.withHosts (m.taken module.imports)) ∧
        m.Resolved (m.withHosts (m.taken module.imports)) module.imports e ∧
        (e.funcs.size = module.importedFuncs.length ∧
          e.tables.size = module.importedTables.length ∧
          e.memories.size = module.importedMemories.length ∧
          e.globals.size = module.importedGlobals.length) ∧
        ∀ (m' : Machine σ) (t : Trap), m'.checkImports module e = .error t → t.isCount = false) ∨
      ∃ before i after t, module.imports = before ++ i :: after ∧
        (∀ j ∈ before, m.Satisfies module.types j) ∧ ¬ m.Satisfies module.types i ∧
        m.resolveExterns module = (.error t, m.withHosts (m.taken before))) ∧
    ∀ i ∈ module.imports,
      (∃ v, m.namedExport? i.module i.name = some v ∧ v.space ≠ i.desc.space) ∨
        m.namedExport? i.module i.name = none ∧ i.desc.space ≠ .func →
      ∃ t m', m.resolveExterns module = (.error t, m') := by
  have cases := resolveImports_prefix m module.types module.imports
  refine ⟨?_, fun i mem misses => ?_⟩
  · rcases cases with ⟨e, run, resolved, -⟩ | failed
    · exact .inl ⟨e, run, resolved, resolved.sizes, fun m' t => resolved.checkImports_uncounted⟩
    · exact .inr failed
  · rcases cases with ⟨e, run, resolved, all⟩ | ⟨before, j, after, t, -, -, -, run⟩
    · rcases all i mem with ⟨v, found, kind⟩ | ⟨missing, idx, f, desc, -⟩
      · rcases misses with ⟨w, found', other⟩ | ⟨missing, -⟩
        · cases found.symm.trans found'
          exact absurd kind other
        · cases found.symm.trans missing
      · rcases misses with ⟨w, found, -⟩ | ⟨-, other⟩
        · cases missing.symm.trans found
        · exact absurd (congrArg ImportDesc.space desc) other
    · exact ⟨t, _, run⟩

end Machine

end WasmMachine
