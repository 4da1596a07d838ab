import WasmMachine.Exec

/-!
# The machine

A machine is a store, the instances that share it, the frames that are live, and what the host
has registered.  This module holds the state, the lookups that an embedder can make in it
(`Machine.instance?`, `Machine.getFunc?`, `Machine.exported?`), linking by name
(`Machine.resolveExterns`), and the operations that do not run code (`Access.perform`).
-/

namespace WasmMachine

/-- The settings of a machine. Without fuel, runs are not metered; `debug` and `trace` ask for
messages about a run and have no effect on it. -/
structure Config where
  fuel : Option UInt64 := none
  maxCallDepth : Nat := 10000
  debug : Bool := false
  trace : Bool := false
  deriving DecidableEq, Repr, Inhabited

instance : Dump Config :=
  ⟨fun c => Dump.fields "MachineConfig" [("fuel", dump c.fuel),
    ("max_call_depth", dump c.maxCallDepth), ("debug", dump c.debug), ("trace", dump c.trace)]⟩

/-- A machine, with the state `world` of its embedder. Frames are listed from the outermost
inwards. `hostFuncs` is keyed by `HostFunc.key`. -/
structure Machine (σ : Type) where
  store : Store σ
  instances : Array Instance
  names : Std.HashMap String Nat
  frames : Array Frame
  hostFuncs : Std.HashMap String (HostFunc σ)
  fuel : Option UInt64
  config : Config
  world : σ

namespace Machine

variable {σ : Type}

/-- A machine in which nothing has happened yet. -/
def new (config : Config) (world : σ) : Machine σ where
  store := {}
  instances := #[]
  names := ∅
  frames := #[]
  hostFuncs := ∅
  fuel := config.fuel
  config := config
  world := world

/-! ## Looking things up -/

/-- An instance whose initialisation has succeeded. -/
def instance? (m : Machine σ) (idx : Nat) : Option Instance :=
  m.instances[idx]?.filter (·.ready)

/-- The instance that was last registered under a name. -/
def instanceByName? (m : Machine σ) (name : String) : Option Nat := m.names[name]?

/-- What an instance exports under a name. -/
def exported? (m : Machine σ) (inst : Nat) (name : String) : Option ExternVal := do
  (← m.instance? inst).exports[name]?

/-- What the instance registered under a module's name exports. -/
def namedExport? (m : Machine σ) (module name : String) : Option ExternVal := do
  (← m.instances[← m.names[module]?]?).exports[name]?

/-- The function at an address. -/
def func? (m : Machine σ) (addr : Nat) : Option (StoreFunc σ) := m.store.funcs[addr]?

/-- The signature of the function at an address. -/
def funcType? (m : Machine σ) (addr : Nat) : Option FuncType := (m.func? addr).map (·.type)

/-- A function by its two names: an export of a named instance if there is one, and else the first
host function of the names in the store. -/
def getFunc? (m : Machine σ) (module name : String) : Option Nat :=
  match m.namedExport? module name with
  | some (.func addr) => some addr
  | _ => m.store.funcs.findIdx? (·.isHost module name)

/-! ## Host functions -/

/-- Register a host function under its two names. -/
def register (m : Machine σ) (f : HostFunc σ) : Machine σ :=
  { m with hostFuncs := m.hostFuncs.insert (HostFunc.key f.module f.name) f }

/-- Run an operation on the store. -/
def onStore {α : Type} (act : StoreM σ α) (m : Machine σ) : Except Trap α × Machine σ :=
  let ⟨store, instances, names, frames, hostFuncs, fuel, config, world⟩ := m
  match act store with
  | .ok a store => (.ok a, ⟨store, instances, names, frames, hostFuncs, fuel, config, world⟩)
  | .error t store =>
    (.error t, ⟨store, instances, names, frames, hostFuncs, fuel, config, world⟩)

/-- Append a function to the store and give its address. -/
def addFunc (f : StoreFunc σ) (m : Machine σ) : Nat × Machine σ :=
  (m.store.funcs.size, { m with store := { m.store with funcs := m.store.funcs.push f } })

/-- Append a copy of a registered host function to the store. The expected type is only part of
the error. -/
def resolveHostFunc (module name : String) (expected : FuncType) (m : Machine σ) :
    Except Trap Nat × Machine σ :=
  let key := HostFunc.key module name
  match m.hostFuncs[key]? with
  | none => (.error (.noHostFunc key expected), m)
  | some f =>
    let (addr, m) := m.addFunc (.host f)
    (.ok addr, m)

/-! ## Linking by name -/

/-- Find what satisfies an import, and add its address to those before it: an export of the kind
asked for of the instance with the module's name, or for a function that is not exported at
all a host function. -/
def resolveImport (types : Array FuncType) (i : Import) (e : Externs) (m : Machine σ) :
    Except Trap Externs × Machine σ :=
  match i.desc, m.namedExport? i.module i.name with
  | .func _, some (.func addr) => (.ok { e with funcs := e.funcs.push addr }, m)
  | .func idx, none =>
    match types[idx.toNat]? with
    | none => (.error (.index .type idx.toNat), m)
    | some expected =>
      match m.resolveHostFunc i.module i.name expected with
      | (.ok addr, m) => (.ok { e with funcs := e.funcs.push addr }, m)
      | (.error t, m) => (.error t, m)
  | .table _, some (.table addr) => (.ok { e with tables := e.tables.push addr }, m)
  | .mem _, some (.mem addr) => (.ok { e with memories := e.memories.push addr }, m)
  | .global _, some (.global addr) => (.ok { e with globals := e.globals.push addr }, m)
  | _, _ => (.error (.link (.unresolved i)), m)

/-- Find what satisfies some imports, one after the other. -/
def resolveImports (types : Array FuncType) :
    List Import → Externs → Machine σ → Except Trap Externs × Machine σ
  | [], e, m => (.ok e, m)
  | i :: is, e, m =>
    match m.resolveImport types i e with
    | (.ok e, m) => resolveImports types is e m
    | (.error t, m) => (.error t, m)

/-- Find what satisfies the imports of a module among the exports of named instances and the
registered host functions. -/
def resolveExterns (module : Module) (m : Machine σ) : Except Trap Externs × Machine σ :=
  m.resolveImports module.types module.imports {}

/-! ## Accesses -/

/-- Run an operation on the first memory of the store. -/
def onFirstMemory {α : Type} (act : EStateM Trap Memory α) (m : Machine σ) :
    Except Trap α × Machine σ :=
  if m.store.memories.isEmpty then (.error .noMemory, m)
  else m.onStore (StoreM.onMemory 0 act)

/-- Run an operation on the memory at an address; none if there is no memory there. -/
def onMemory? {α : Type} (addr : Nat) (act : EStateM Trap Memory α) (m : Machine σ) :
    Option (Except Trap α) × Machine σ :=
  if addr < m.store.memories.size then
    let (r, m) := m.onStore (StoreM.onMemory addr act)
    (some r, m)
  else (none, m)

/-- Run an operation on the table at an address; none if there is no table there. -/
def onTable? {α : Type} (addr : Nat) (act : EStateM Trap Table α) (m : Machine σ) :
    Option (Except Trap α) × Machine σ :=
  if addr < m.store.tables.size then
    let (r, m) := m.onStore (StoreM.onTable addr act)
    (some r, m)
  else (none, m)

end Machine

/-- The values among results; an error counts as none. -/
def succeeded {α : Type} : Option (Except Trap α) → Option α
  | some (.ok a) => some a
  | _ => none

/-- Carry out an access. -/
def Access.perform {σ : Type} (op : Access) (m : Machine σ) : op.Reply × Machine σ :=
  match op with
  | .frames => (m.frames, m)
  | .fuel => (m.fuel, m)
  | .setFuel n => ((), { m with fuel := n })
  | .funcAt addr => ((m.func? addr).map (·.view), m)
  | .funcType addr => (m.funcType? addr, m)
  | .getFunc module name => (m.getFunc? module name, m)
  | .instanceByName name => (m.instanceByName? name, m)
  | .instanceAt idx => (m.instance? idx, m)
  | .exported inst name => (m.exported? inst name, m)
  | .resolveHostFunc module name expected => m.resolveHostFunc module name expected
  | .resolveExterns module => m.resolveExterns module
  | .global addr => (m.store.globals[addr]?, m)
  | .setGlobal addr v => m.onStore (StoreM.setGlobal addr v)
  | .readBytes pos count => m.onFirstMemory (Memory.read pos count)
  | .writeBytes pos bytes => m.onFirstMemory (Memory.write pos bytes)
  | .memoryAt addr => (m.store.memories[addr]?, m)
  | .memoryPages addr => (m.store.memories[addr]?.map (·.pages), m)
  | .memoryGrow addr delta =>
    let (r, m) := m.onMemory? addr (Memory.grow delta)
    (succeeded r, m)
  | .memoryRead addr pos count => m.onMemory? addr (Memory.read pos count)
  | .memoryWrite addr pos bytes => m.onMemory? addr (Memory.write pos bytes)
  | .memoryFill addr v pos count => m.onMemory? addr (Memory.fill v pos count)
  | .memoryCopy addr dst src count => m.onMemory? addr (Memory.copy dst src count)
  | .tableAt addr => (m.store.tables[addr]?, m)
  | .tableSize addr => (m.store.tables[addr]?.map (·.size), m)
  | .tableGet addr idx => (m.store.tables[addr]?.map (·.get? idx), m)
  | .tableSet addr idx v => m.onTable? addr (Table.set idx v)
  | .tableGrow addr delta v =>
    let (r, m) := m.onTable? addr (Table.grow delta.toNat v)
    (succeeded r, m)
  | .tableFill addr pos v count => m.onTable? addr (Table.fill pos v count)

end WasmMachine
