import WasmMachine.Proofs.Stability

/-!
# The registry of host functions

A host function is registered under two names, and is found under the key that joins them with a
dot. `Registrations` lists what is registered between two machines, whatever else becomes of the
machine; everything that runs has such a list (`Machine.Evolves.registrations`).  The list decides
what is found: the last entry with the key that is asked for (`Registrations.found`).

Different pairs of names can have one key.  If no other pair of the key is registered, the
registry is a map from pairs of names to functions, and agrees with `Machine.getFunc?`, which
compares the two names one by one (`Registrations.resolve_exact`).  That is so if no name of a
module has a dot in it (`HostFunc.key_inj`).  In general it is not (`Machine.resolve_joined`).
-/

namespace WasmMachine

variable {σ : Type}

/-! ## Names and keys -/

namespace HostFunc

/-- Whether these are the two names of a host function. -/
def Named (f : HostFunc σ) (module name : String) : Prop := f.module = module ∧ f.name = name

/-- The key that a host function is registered under. -/
def joined (f : HostFunc σ) : String := key f.module f.name

theorem joined_of_named {f : HostFunc σ} {module name : String} (named : f.Named module name) :
    f.joined = key module name := by
  rw [joined, named.1, named.2]

/-- A list is told from its first dot on. -/
theorem append_dot_inj {xs xs' ys ys' : List Char} (free : '.' ∉ xs) (free' : '.' ∉ xs')
    (same : xs ++ '.' :: ys = xs' ++ '.' :: ys') : xs = xs' ∧ ys = ys' := by
  induction xs generalizing xs' with
  | nil =>
    cases xs' with
    | nil => exact ⟨rfl, (List.cons.inj same).2⟩
    | cons x' xs' => exact absurd ((List.cons.inj same).1 ▸ List.mem_cons_self) free'
  | cons x xs ih =>
    cases xs' with
    | nil => exact absurd ((List.cons.inj same).1 ▸ List.mem_cons_self) free
    | cons x' xs' =>
      obtain ⟨rfl, rest⟩ := List.cons.inj same
      obtain ⟨rfl, rfl⟩ :=
        ih (fun mem => free (.tail _ mem)) (fun mem => free' (.tail _ mem)) rest
      exact ⟨rfl, rfl⟩

/-- Keys tell pairs of names apart if the names of the modules have no dot in them. -/
theorem key_inj {module name module' name' : String} (free : '.' ∉ module.toList)
    (free' : '.' ∉ module'.toList) (same : key module name = key module' name') :
    module = module' ∧ name = name' := by
  have chars (module name : String) :
      (key module name).toList = module.toList ++ '.' :: name.toList := by
    rw [key, String.toList_append, String.toList_append, List.append_assoc]
    rfl
  have same' := congrArg String.toList same
  rw [chars, chars] at same'
  obtain ⟨modules, names⟩ := append_dot_inj free free' same'
  exact ⟨String.toList_inj.mp modules, String.toList_inj.mp names⟩

end HostFunc

/-! ## Histories of the registry -/

/-- The host functions that are registered between two machines, the earliest first. Whatever
leaves the registry as it is may happen besides. -/
inductive Registrations : List (HostFunc σ) → Machine σ → Machine σ → Prop
  | quiet {m m' : Machine σ} : m'.hostFuncs = m.hostFuncs → Registrations [] m m'
  | register (f : HostFunc σ) (m : Machine σ) : Registrations [f] m (m.register f)
  | trans {fs gs : List (HostFunc σ)} {m₁ m₂ m₃ : Machine σ} :
    Registrations fs m₁ m₂ → Registrations gs m₂ m₃ → Registrations (fs ++ gs) m₁ m₃

/-- Whatever becomes of a machine, there is a history of its registry. -/
theorem Machine.Evolves.registrations {Q : Module → Prop} {G : HostProg σ → Prop} {F : Nat → Prop}
    {m m' : Machine σ} (evolves : m.Evolves Q G F m') : ∃ fs, Registrations fs m m' := by
  induction evolves with
  | @register f _ m => exact ⟨[f], .register f m⟩
  | trans _ _ first second =>
    obtain ⟨fs, before⟩ := first
    obtain ⟨gs, after⟩ := second
    exact ⟨fs ++ gs, before.trans after⟩
  | _ => exact ⟨[], .quiet rfl⟩

/-- Everything that is reached from the beginning has a history, and so has everything that a
program does later. -/
theorem Machine.registered (config : Config) (world : σ) :
    (∀ program task m, Reached config world program task m →
      ∃ fs, Registrations fs (.new config world) m) ∧
    ∀ bound program (m : Machine σ) r m', Run.host (Machine.enter bound) program m =
      some (r, m') →
      ∃ fs, Registrations fs m m' :=
  ⟨fun _ _ _ reached => reached.later.registrations,
    fun _ _ _ _ _ run => (later_of_host run).registrations⟩

/-- A function takes the place of the one that had its key. -/
theorem Machine.hostFuncs_register (f : HostFunc σ) (m : Machine σ) (key : String) :
    (m.register f).hostFuncs[key]? = if f.joined == key then some f else m.hostFuncs[key]? := by
  rw [register, Std.HashMap.getElem?_insert]
  rfl

namespace Registrations

variable {fs : List (HostFunc σ)} {m m' : Machine σ}

/-- A key finds the last registration that has it, or else what it found before. -/
theorem found (history : Registrations fs m m') (key : String) :
    m'.hostFuncs[key]? = (fs.reverse.find? (·.joined == key)).or m.hostFuncs[key]? := by
  induction history with
  | quiet same =>
    rw [same]
    rfl
  | register f m =>
    rw [Machine.hostFuncs_register, List.reverse_singleton, List.find?_singleton]
    split <;> rfl
  | trans _ _ first second =>
    rw [second, first, List.reverse_append, List.find?_append, Option.or_assoc]

variable {config : Config} {world : σ} (history : Registrations fs (.new config world) m)
include history

theorem found_from_new (key : String) :
    m.hostFuncs[key]? = fs.reverse.find? (·.joined == key) := by
  have nothing : (Machine.new config world : Machine σ).hostFuncs[key]? = none :=
    Std.HashMap.getElem?_empty
  rw [history.found key, nothing, Option.or_none]

/-! ## Resolving -/

variable {module name : String}

/-- A key that no registration has. -/
theorem resolve_none (none : ∀ f ∈ fs, f.joined ≠ HostFunc.key module name)
    (expected : FuncType) :
    m.resolveHostFunc module name expected
      = (.error (.noHostFunc (HostFunc.key module name) expected), m) := by
  have missing : m.hostFuncs[HostFunc.key module name]? = .none := by
    rw [history.found_from_new, List.find?_eq_none]
    intro f mem same
    exact none f (List.mem_reverse.mp mem) (eq_of_beq same)
  simp only [Machine.resolveHostFunc, missing]

/-- A key that is found: the last registration that has it is appended to the functions. -/
theorem resolve_last {before after : List (HostFunc σ)} {f : HostFunc σ}
    (listed : fs = before ++ f :: after) (here : f.joined = HostFunc.key module name)
    (last : ∀ g ∈ after, g.joined ≠ HostFunc.key module name) (expected : FuncType) :
    m.resolveHostFunc module name expected = (.ok m.store.funcs.size, { m with
      store := { m.store with funcs := m.store.funcs.push (.host f) } }) := by
  have there : m.hostFuncs[HostFunc.key module name]? = some f := by
    rw [history.found_from_new, List.find?_eq_some_iff_append]
    refine ⟨beq_iff_eq.mpr here, after.reverse, before.reverse, ?_, fun g mem => ?_⟩
    · rw [listed, List.reverse_append, List.reverse_cons, List.append_assoc]
      rfl
    · rw [Bool.not_eq_true', beq_eq_false_iff_ne]
      exact last g (List.mem_reverse.mp mem)
  simp only [Machine.resolveHostFunc, there, Machine.addFunc]

end Registrations

/-! ## Finding what has been resolved -/

/-- A machine that finds a function under two names, and a host function of these names unless the
instance registered under the first of them exports a function under the second. -/
structure Machine.Finds (m : Machine σ) (module name : String) : Prop where
  found : ∃ addr, m.getFunc? module name = some addr
  host : (∀ addr, m.namedExport? module name ≠ some (.func addr)) → ∃ addr f,
    m.getFunc? module name = some addr ∧ m.store.funcs[addr]? = some (.host f) ∧
    f.Named module name

namespace Machine

variable {m : Machine σ} {module name : String}

/-- Without an exported function the store is scanned for a host function of the two names. -/
theorem getFunc?_of_unexported
    (unexported : ∀ addr, m.namedExport? module name ≠ some (.func addr)) :
    m.getFunc? module name = m.store.funcs.findIdx? (·.isHost module name) := by
  unfold getFunc?
  split
  · next exported => exact absurd exported (unexported _)
  · rfl

theorem finds_of_host {addr : Nat} {f : HostFunc σ}
    (stored : m.store.funcs[addr]? = some (.host f))
    (named : f.Named module name) : m.Finds module name := by
  have picked {g : StoreFunc σ} : g.isHost module name = true →
      ∃ f, g = .host f ∧ f.Named module name := by
    intro same
    cases g with
    | module g => cases same
    | host g =>
      rw [StoreFunc.isHost, Bool.and_eq_true, beq_iff_eq, beq_iff_eq] at same
      exact ⟨g, rfl, same⟩
  have scanned : ∃ a g, m.store.funcs.findIdx? (·.isHost module name) = some a ∧
      m.store.funcs[a]? = some (.host g) ∧ g.Named module name := by
    have any : (m.store.funcs.findIdx? (·.isHost module name)).isSome = true := by
      rw [Array.findIdx?_isSome, Array.any_eq_true']
      refine ⟨.host f, Array.mem_of_getElem? stored, ?_⟩
      rw [StoreFunc.isHost, named.1, named.2, beq_self_eq_true, beq_self_eq_true]
      rfl
    obtain ⟨a, first⟩ := Option.isSome_iff_exists.mp any
    obtain ⟨there, same, -⟩ := Array.findIdx?_eq_some_iff_getElem.mp first
    obtain ⟨g, is, named⟩ := picked same
    exact ⟨a, g, first, is ▸ Array.getElem?_eq_getElem there, named⟩
  obtain ⟨a, g, first, there, named'⟩ := scanned
  constructor
  · unfold getFunc?
    split
    · exact ⟨_, rfl⟩
    · exact ⟨a, first⟩
  · exact fun unexported => ⟨a, g, (getFunc?_of_unexported unexported).trans first, there, named'⟩

end Machine

/-! ## The registry as a map -/

/-- If no other pair of names with the same key has been registered, names resolve exactly if a
function has been registered under them: then a copy of the last one is appended to the functions,
whose address is given, and nothing else changes. Otherwise nothing changes at all. What has been
resolved is found under its names from then on. -/
theorem Registrations.resolve_exact {fs : List (HostFunc σ)} {config : Config} {world : σ}
    {m : Machine σ} (history : Registrations fs (.new config world) m) {module name : String}
    (alone : ∀ f ∈ fs, f.joined = HostFunc.key module name → f.Named module name)
    (expected : FuncType) :
    ((∃ addr m', m.resolveHostFunc module name expected = (.ok addr, m')) ↔
      ∃ f ∈ fs, f.Named module name) ∧
    (∀ before f after, fs = before ++ f :: after → f.Named module name →
      (∀ g ∈ after, ¬ g.Named module name) →
      m.resolveHostFunc module name expected = (.ok m.store.funcs.size, { m with
        store := { m.store with funcs := m.store.funcs.push (.host f) } })) ∧
    ((∀ f ∈ fs, ¬ f.Named module name) → m.resolveHostFunc module name expected
      = (.error (.noHostFunc (HostFunc.key module name) expected), m)) ∧
    ∀ addr m', m.resolveHostFunc module name expected = (.ok addr, m') →
      ∀ m'', m'.Later m'' → m''.Finds module name := by
  -- to have the key is to have the names, for whatever has been registered
  have last (before : List (HostFunc σ)) (f : HostFunc σ) (after : List (HostFunc σ))
      (listed : fs = before ++ f :: after) (named : f.Named module name)
      (later : ∀ g ∈ after, ¬ g.Named module name) :=
    history.resolve_last listed (HostFunc.joined_of_named named) (fun g mem same => later g mem
      (alone g (listed ▸ List.mem_append_right _ (.tail _ mem)) same)) expected
  have never (none : ∀ f ∈ fs, ¬ f.Named module name) :=
    history.resolve_none (fun f mem same => none f mem (alone f mem same)) expected
  have registered (addr : Nat) (m' : Machine σ)
      (resolved : m.resolveHostFunc module name expected = (.ok addr, m')) :
      ∃ f ∈ fs, f.Named module name := by
    by_cases once : ∃ f ∈ fs, f.Named module name
    · exact once
    · rw [never fun f mem named => once ⟨f, mem, named⟩] at resolved
      cases resolved
  refine ⟨⟨fun ⟨addr, m', resolved⟩ => registered addr m' resolved, fun once => ?_⟩, last, never,
    fun addr m' resolved m'' later => ?_⟩
  · obtain ⟨before, f, after, listed, named, rest⟩ := List.exists_last once
    exact ⟨_, _, last before f after listed named rest⟩
  · obtain ⟨before, f, after, listed, named, rest⟩ :=
      List.exists_last (registered addr m' resolved)
    rw [last before f after listed named rest] at resolved
    cases resolved
    obtain ⟨_, stored, rfl⟩ := later.stable.store.funcs m.store.funcs.size (.host f)
      Array.getElem?_push_size
    exact Machine.finds_of_host stored named

/-- A function that has been replaced, with another one registered in between whose own name
begins with that of the module. -/
theorem Registrations.resolve_exact_of_replaced :
    let func (module name : String) (arity : Nat) : HostFunc Unit :=
      ⟨module, name, ⟨[], []⟩, 0, arity, .done⟩
    let fs := [func "env" "log" 0, func "io" "env.log" 1, func "env" "log" 2]
    let m := fs.foldl Machine.register (Machine.new {} ())
    ∃ m', m.resolveHostFunc "env" "log" ⟨[], []⟩ = (.ok 0, m') ∧
      m'.store.funcs = #[.host (func "env" "log" 2)] ∧ m'.Finds "env" "log" := by
  intro func fs m
  have history : Registrations fs (.new {} ()) m :=
    (Registrations.register (func "env" "log" 0) _).trans
      ((Registrations.register (func "io" "env.log" 1) _).trans
        (.register (func "env" "log" 2) _))
  have dotless : ∀ f ∈ fs, '.' ∉ f.module.toList := by
    rw [List.forall_mem_cons, List.forall_mem_cons, List.forall_mem_singleton]
    decide +kernel
  have alone : ∀ f ∈ fs, f.joined = HostFunc.key "env" "log" → f.Named "env" "log" :=
    fun f mem same => HostFunc.key_inj (dotless f mem) (by decide) same
  obtain ⟨-, last, -, finds⟩ := resolve_exact history alone ⟨[], []⟩
  have resolved := last [func "env" "log" 0, func "io" "env.log" 1] _ [] rfl ⟨rfl, rfl⟩
    fun g mem => absurd mem List.not_mem_nil
  exact ⟨_, resolved, rfl, finds _ _ resolved _ (.refl _)⟩

/-- What is registered under `c` for the module `a.b` resolves under `b.c` for the module `a`, for
which nothing has been registered, and is not found under these names afterwards. -/
theorem Machine.resolve_joined :
    ∃ (f : HostFunc Unit) (m m' : Machine Unit), Registrations [f] (.new {} ()) m ∧
      f.Named "a.b" "c" ∧ ¬ f.Named "a" "b.c" ∧
      m.resolveHostFunc "a" "b.c" ⟨[], []⟩ = (.ok 0, m') ∧ m'.getFunc? "a" "b.c" = none := by
  let f : HostFunc Unit := ⟨"a.b", "c", ⟨[], []⟩, 0, 0, .done⟩
  have history : Registrations [f] (.new {} ()) ((Machine.new {} ()).register f) := .register f _
  have listed : [f] = [] ++ f :: [] := rfl
  have same : f.joined = HostFunc.key "a" "b.c" := by decide +kernel
  refine ⟨f, _, _, history, ⟨rfl, rfl⟩, fun named => absurd named.1 (by decide +kernel),
    history.resolve_last listed same (fun g mem => absurd mem List.not_mem_nil) _, ?_⟩
  rw [getFunc?_of_unexported]
  · decide +kernel
  · intro addr exported
    obtain ⟨number, registered, -⟩ := Option.bind_eq_some_iff.mp exported
    cases Std.HashMap.getElem?_empty.symm.trans registered

end WasmMachine
