import WasmMachine.Proofs.Plain
import WasmMachine.Proofs.Runs

/-!
# Accesses

An access looks something up in a machine, or changes one thing in it.  `Machine.Alters` lists
what can change: the store by one of its operations, the fuel, and the functions, to which a
registered host function is appended when it is linked.  `Access.perform_alters` says that there
is nothing else, so that an invariant of machines is checked against these ways and not against
every access. An access that has nothing to do with fuel neither sees nor changes it
(`Access.perform_refuel`).
-/

namespace WasmMachine

variable {σ α : Type}

/-- Accesses that neither look at the fuel nor set it. -/
def Access.Unmetered : Access → Prop
  | .fuel | .setFuel _ => False
  | _ => True

namespace Machine

theorem onStore_eq (x : StoreM σ α) (m : Machine σ) : m.onStore x = match x m.store with
    | .ok a s => (.ok a, { m with store := s })
    | .error t s => (.error t, { m with store := s }) := by
  obtain ⟨store, instances, names, frames, hostFuncs, fuel, config, world⟩ := m
  cases result : x store <;> simp only [onStore, result]

/-- What accesses can do to a machine. -/
inductive Alters : Machine σ → Machine σ → Prop
  | refl (m : Machine σ) : Alters m m
  | trans {m₁ m₂ m₃ : Machine σ} : Alters m₁ m₂ → Alters m₂ m₃ → Alters m₁ m₃
  | store {α : Type} {x : StoreM σ α} : StoreM.Op x → ∀ m, Alters m (m.onStore x).2
  | fuel (n : Option UInt64) (m : Machine σ) : Alters m (m.refuel n)
  | link {m : Machine σ} {key : String} {f : HostFunc σ} : m.hostFuncs[key]? = some f →
    Alters m (m.addFunc (.host f)).2

theorem alters_resolveHostFunc (module name : String) (expected : FuncType) (m : Machine σ) :
    m.Alters (m.resolveHostFunc module name expected).2 := by
  unfold resolveHostFunc
  dsimp only
  cases found : m.hostFuncs[HostFunc.key module name]? with
  | none => exact .refl m
  | some f => exact .link found

/-- Resolving an import changes nothing unless a host function is appended. -/
theorem alters_resolveImport (types : Array FuncType) (i : Import) (e : Externs) (m : Machine σ) :
    m.Alters (m.resolveImport types i e).2 := by
  unfold resolveImport
  split
  · exact .refl m
  · split
    · exact .refl m
    · next expected _ =>
      have alters := alters_resolveHostFunc i.module i.name expected m
      split <;> next same => rwa [same] at alters
  all_goals exact .refl m

theorem alters_resolveImports (types : Array FuncType) (is : List Import) (e : Externs)
    (m : Machine σ) : m.Alters (resolveImports types is e m).2 := by
  induction is generalizing e m with
  | nil => exact .refl m
  | cons i is ih =>
    have first := alters_resolveImport types i e m
    unfold resolveImports
    split
    · next e m₁ same =>
      rw [same] at first
      exact first.trans (ih e m₁)
    · next same => rwa [same] at first

/-- An operation on the first memory is one of the store, or there is no memory and nothing
changes. -/
theorem alters_onFirstMemory {x : EStateM Trap Memory α} (op : Memory.Op x) (m : Machine σ) :
    m.Alters (m.onFirstMemory x).2 := by
  unfold onFirstMemory
  split
  · exact .refl m
  · exact .store (.onMemory 0 op) m

theorem alters_onMemory? (addr : Nat) {x : EStateM Trap Memory α} (op : Memory.Op x)
    (m : Machine σ) : m.Alters (m.onMemory? addr x).2 := by
  unfold onMemory?
  split
  · exact .store (.onMemory addr op) m
  · exact .refl m

theorem alters_onTable? (addr : Nat) {x : EStateM Trap Table α} (op : Table.Op x)
    (m : Machine σ) : m.Alters (m.onTable? addr x).2 := by
  unfold onTable?
  split
  · exact .store (.onTable addr op) m
  · exact .refl m

end Machine

/-- An access changes the machine in one of the ways that are listed, or leaves it as it is. -/
theorem Access.perform_alters (op : Access) (m : Machine σ) : m.Alters (op.perform m).2 := by
  cases op with
  | setFuel n => exact .fuel n m
  | resolveHostFunc module name expected => exact Machine.alters_resolveHostFunc _ _ _ m
  | resolveExterns module => exact Machine.alters_resolveImports _ _ _ m
  | setGlobal addr v => exact .store (.setGlobal _ _) m
  | readBytes pos count => exact Machine.alters_onFirstMemory (.read _ _) m
  | writeBytes pos bytes => exact Machine.alters_onFirstMemory (.write _ _) m
  | memoryGrow addr delta => exact Machine.alters_onMemory? _ (.grow _) m
  | memoryRead addr pos count => exact Machine.alters_onMemory? _ (.read _ _) m
  | memoryWrite addr pos bytes => exact Machine.alters_onMemory? _ (.write _ _) m
  | memoryFill addr v pos count => exact Machine.alters_onMemory? _ (.fill _ _ _) m
  | memoryCopy addr dst src count => exact Machine.alters_onMemory? _ (.copy _ _ _) m
  | tableSet addr idx v => exact Machine.alters_onTable? _ (.set _ _) m
  | tableGrow addr delta v => exact Machine.alters_onTable? _ (.grow _ _) m
  | tableFill addr pos v count => exact Machine.alters_onTable? _ (.fill _ _ _) m
  | _ => exact .refl m

/-! ## Changes that accesses do not see -/

/-- A change of machines that leaves what accesses look things up in, and that does not mind a
change of the store. -/
structure Machine.Aside (g : Machine σ → Machine σ) : Prop where
  store : ∀ m, (g m).store = m.store
  instances : ∀ m, (g m).instances = m.instances
  names : ∀ m, (g m).names = m.names
  hostFuncs : ∀ m, (g m).hostFuncs = m.hostFuncs
  update : ∀ m s, g { m with store := s } = { g m with store := s }

namespace Machine

variable {g : Machine σ → Machine σ} (aside : Aside g) (m : Machine σ)
include aside

theorem onStore_aside (x : StoreM σ α) :
    (g m).onStore x = ((m.onStore x).1, g (m.onStore x).2) := by
  rw [onStore_eq, onStore_eq, aside.store]
  cases x m.store with
  | ok a s => exact congrArg (Prod.mk (Except.ok a)) (aside.update m s).symm
  | error t s => exact congrArg (Prod.mk (Except.error t)) (aside.update m s).symm

theorem resolveHostFunc_aside (module name : String) (expected : FuncType) :
    (g m).resolveHostFunc module name expected =
      ((m.resolveHostFunc module name expected).1,
        g (m.resolveHostFunc module name expected).2) := by
  unfold resolveHostFunc
  dsimp only
  rw [aside.hostFuncs]
  cases m.hostFuncs[HostFunc.key module name]? with
  | none => rfl
  | some f =>
    simp only [addFunc, aside.store]
    exact congrArg (Prod.mk _) (aside.update m _).symm

/-- Resolving an import sees nothing that is changed aside. -/
theorem resolveImport_aside (types : Array FuncType) (i : Import) (e : Externs) :
    (g m).resolveImport types i e =
      ((m.resolveImport types i e).1, g (m.resolveImport types i e).2) := by
  unfold resolveImport
  have same : (g m).namedExport? i.module i.name = m.namedExport? i.module i.name := by
    rw [namedExport?, namedExport?, aside.names, aside.instances]
  rw [same]
  split
  · rfl
  · split
    · rfl
    · next expected _ =>
      rw [resolveHostFunc_aside aside]
      cases m.resolveHostFunc i.module i.name expected with
      | mk r m' => cases r <;> rfl
  all_goals rfl

theorem resolveImports_aside (types : Array FuncType) (is : List Import) (e : Externs) :
    resolveImports types is e (g m) =
      ((resolveImports types is e m).1, g (resolveImports types is e m).2) := by
  induction is generalizing e m with
  | nil => rfl
  | cons i is ih =>
    unfold resolveImports
    rw [resolveImport_aside aside]
    cases m.resolveImport types i e with
    | mk r m' =>
      cases r with
      | ok e => exact ih m' e
      | error t => rfl

theorem onFirstMemory_aside (x : EStateM Trap Memory α) :
    (g m).onFirstMemory x = ((m.onFirstMemory x).1, g (m.onFirstMemory x).2) := by
  unfold onFirstMemory
  rw [aside.store]
  split
  · rfl
  · exact onStore_aside aside m _

theorem onMemory?_aside (addr : Nat) (x : EStateM Trap Memory α) :
    (g m).onMemory? addr x = ((m.onMemory? addr x).1, g (m.onMemory? addr x).2) := by
  unfold onMemory?
  rw [aside.store, onStore_aside aside]
  split <;> rfl

theorem onTable?_aside (addr : Nat) (x : EStateM Trap Table α) :
    (g m).onTable? addr x = ((m.onTable? addr x).1, g (m.onTable? addr x).2) := by
  unfold onTable?
  rw [aside.store, onStore_aside aside]
  split <;> rfl

end Machine

/-- An access does the same if something is changed that it does not look at, and leaves that. -/
theorem Access.perform_aside {g : Machine σ → Machine σ} (aside : Machine.Aside g) {op : Access}
    (blind : op ≠ .frames) (free : op.Unmetered) (m : Machine σ) :
    op.perform (g m) = ((op.perform m).1, g (op.perform m).2) := by
  cases op with
  | frames => exact absurd rfl blind
  | fuel | setFuel => cases free
  | funcAt addr => simp only [perform, Machine.func?, aside.store]
  | funcType addr => simp only [perform, Machine.funcType?, Machine.func?, aside.store]
  | getFunc module name =>
    simp only [perform, Machine.getFunc?, Machine.namedExport?, aside.store, aside.names,
      aside.instances]
  | instanceByName name => simp only [perform, Machine.instanceByName?, aside.names]
  | instanceAt idx => simp only [perform, Machine.instance?, aside.instances]
  | exported inst name =>
    simp only [perform, Machine.exported?, Machine.instance?, aside.instances]
  | resolveHostFunc module name expected => exact Machine.resolveHostFunc_aside aside _ _ _ _
  | resolveExterns module => exact Machine.resolveImports_aside aside _ _ _ _
  | setGlobal addr v => exact Machine.onStore_aside aside _ _
  | readBytes pos count => exact Machine.onFirstMemory_aside aside _ _
  | writeBytes pos bytes => exact Machine.onFirstMemory_aside aside _ _
  | memoryGrow addr delta => simp only [perform, Machine.onMemory?_aside aside]
  | memoryRead addr pos count => exact Machine.onMemory?_aside aside _ _ _
  | memoryWrite addr pos bytes => exact Machine.onMemory?_aside aside _ _ _
  | memoryFill addr v pos count => exact Machine.onMemory?_aside aside _ _ _
  | memoryCopy addr dst src count => exact Machine.onMemory?_aside aside _ _ _
  | tableSet addr idx v => exact Machine.onTable?_aside aside _ _ _
  | tableGrow addr delta v => simp only [perform, Machine.onTable?_aside aside]
  | tableFill addr pos v count => exact Machine.onTable?_aside aside _ _ _
  | _ => simp only [perform, aside.store]

/-! ## Fuel -/

/-- Setting the fuel is a change aside. -/
theorem Machine.aside_refuel (fuel : Option UInt64) : Aside fun m : Machine σ => m.refuel fuel :=
  ⟨fun _ => rfl, fun _ => rfl, fun _ => rfl, fun _ => rfl, fun _ _ => rfl⟩

/-- An access that has nothing to do with fuel does the same with any fuel, and leaves it. -/
theorem Access.perform_refuel {op : Access} (free : op.Unmetered) (fuel : Option UInt64)
    (m : Machine σ) :
    op.perform (m.refuel fuel) = ((op.perform m).1, (op.perform m).2.refuel fuel) := by
  by_cases frames : op = .frames
  · cases frames
    rfl
  · exact op.perform_aside (Machine.aside_refuel fuel) frames free m

/-- An access that has nothing to do with fuel uses none. -/
theorem Access.perform_fuel {op : Access} (free : op.Unmetered) (m : Machine σ) :
    (op.perform m).2.fuel = m.fuel :=
  congrArg (fun p => p.2.fuel) (op.perform_refuel free m.fuel m)

end WasmMachine
