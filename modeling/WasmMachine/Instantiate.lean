import WasmMachine.Run

/-!
# Instantiating modules

A module becomes an instance in stages: the addresses given for its imports are checked, which
changes nothing; everything that it defines is allocated, and its exports are collected; then
the globals, the active element and data segments and the start function run, in that order.
Only an instance that has come through all of it gets its name.  What a failed instantiation has
allocated stays in the store.
-/

namespace WasmMachine

/-! ## Checking imports -/

namespace Machine

variable {σ : Type}

/-- Check the function at an address against an import. -/
def checkFunc (m : Machine σ) (types : Array FuncType) (i : Import) (idx : TypeIdx) (addr : Nat) :
    Except Trap Unit :=
  match types[idx.toNat]? with
  | none => .error (.index .type idx.toNat)
  | some expected =>
    match m.funcType? addr with
    | none => .error (.link (.absent i .func addr))
    | some got => if got = expected then .ok () else .error (.link (.funcType i expected got))

/-- Check the table at an address against an import. -/
def checkTable (m : Machine σ) (i : Import) (expected : TableType) (addr : Nat) :
    Except Trap Unit :=
  match m.store.tables[addr]? with
  | none => .error (.link (.absent i .table addr))
  | some t =>
    if t.type = expected then .ok () else .error (.link (.tableType i expected t.type))

/-- Check the memory at an address against an import. -/
def checkMemory (m : Machine σ) (i : Import) (expected : MemType) (addr : Nat) :
    Except Trap Unit :=
  match m.store.memories[addr]? with
  | none => .error (.link (.absent i .mem addr))
  | some mem =>
    if mem.limits = expected.limits then .ok ()
    else .error (.link (.memLimits i expected.limits mem.limits))

/-- Check imports in order, each against the next address of its kind. A global's address is not
looked at. -/
def checkEach (m : Machine σ) (types : Array FuncType) :
    List Import → List Nat → List Nat → List Nat → Except Trap Unit
  | [], _, _, _ => .ok ()
  | i :: is, funcs, tables, memories => do
    match i.desc with
    | .func idx =>
      m.checkFunc types i idx (funcs.headD 0)
      m.checkEach types is funcs.tail tables memories
    | .table type =>
      m.checkTable i type (tables.headD 0)
      m.checkEach types is funcs tables.tail memories
    | .mem type =>
      m.checkMemory i type (memories.headD 0)
      m.checkEach types is funcs tables memories.tail
    | .global _ => m.checkEach types is funcs tables memories

/-- Check the addresses given for a module's imports: first their numbers, then each. -/
def checkImports (m : Machine σ) (module : Module) (e : Externs) : Except Trap Unit :=
  if e.funcs.size ≠ module.importedFuncs.length ∨ e.tables.size ≠ module.importedTables.length ∨
      e.memories.size ≠ module.importedMemories.length ∨
      e.globals.size ≠ module.importedGlobals.length then
    .error <| .link <|
      .count e.funcs.size e.tables.size e.memories.size e.globals.size module.imports
  else
    m.checkEach module.types module.imports e.funcs.toList e.tables.toList e.memories.toList

end Machine

/-! ## Allocation -/

/-- The addresses that a list gets when it is appended to `n` entries. -/
def freshAddrs (n count : Nat) : Array Nat := Array.ofFn fun i : Fin count => n + i

/-- The functions that a module defines, for an instance of a given number and name. -/
def Module.definedFuncs (module : Module) (inst : Nat) (name : String) : List ModuleFunc :=
  module.funcs.filterMap fun d => d.body.map fun b => ⟨d.type, b.locals, b.code, inst, name⟩

/-- The tables that a module defines. -/
def Module.definedTables (module : Module) : List TableType :=
  module.tables.drop module.importedTables.length

/-- The memories that a module defines. -/
def Module.definedMemories (module : Module) : List MemType :=
  module.memories.drop module.importedMemories.length

/-- The initialisers of the globals that a module defines. -/
def Module.globalInits (module : Module) : List Code := module.globals.filterMap (·.init)

/-- Append everything that a module defines to the store. Globals are zero at first and the items
of element segments are null. -/
def Store.allocate {σ : Type} (s : Store σ) (module : Module) (inst : Nat) (name : String) :
    Store σ where
  funcs := s.funcs ++ (module.definedFuncs inst name).map fun f => @StoreFunc.module σ f
  tables := s.tables ++ module.definedTables.map Table.new
  memories := s.memories ++ module.definedMemories.map (Memory.new ·.limits)
  globals := s.globals ++ module.globalInits.map fun _ => Value.null
  elems := s.elems ++
    module.elems.map fun e => some (ElemInstance.mk e.type (List.replicate e.items.length .null))
  datas := s.datas ++ module.datas.map fun d => some d.bytes

/-- The instance of a module whose definitions are about to be appended to a store; it has no
exports yet. -/
def Instance.allocated {σ : Type} (s : Store σ) (module : Module) (inst : Nat) (name : String)
    (e : Externs) : Instance where
  name := name
  types := module.types
  funcs := e.funcs ++ freshAddrs s.funcs.size (module.definedFuncs inst name).length
  tables := e.tables ++ freshAddrs s.tables.size module.definedTables.length
  memories := e.memories ++ freshAddrs s.memories.size module.definedMemories.length
  globals := e.globals ++ freshAddrs s.globals.size module.globalInits.length
  elems := freshAddrs s.elems.size module.elems.length
  datas := freshAddrs s.datas.size module.datas.length
  exports := ∅
  ready := false

/-- Add exports to an instance; of two with one name the later counts. -/
def Instance.addExports (i : Instance) : List Export → Except Trap Instance
  | [] => .ok i
  | e :: es => do
    let v ← i.externVal e.desc
    { i with exports := i.exports.insert e.name v }.addExports es

/-! ## Initialisation -/

namespace Run

variable {σ : Type}

/-- The instance with a number. -/
def instanceAt (idx : Nat) : Run σ Instance := do
  match (← get).instances[idx]? with
  | some i => return i
  | none => trap (.noInstance idx)

/-- Set the globals from an address on to the values of their initialisers, in order. -/
def initGlobals (enter : Enter σ) (bound inst : Nat) : Nat → List Code → Run σ Unit
  | _, [] => pure ()
  | addr, code :: codes => do
    let v ← constant enter bound inst code
    store (StoreM.setGlobal addr v)
    initGlobals enter bound inst (addr + 1) codes

/-- Evaluate constant expressions in order. -/
def constants (enter : Enter σ) (bound inst : Nat) : List Code → Run σ (List Value)
  | [] => return []
  | code :: codes => do
    let v ← constant enter bound inst code
    return v :: (← constants enter bound inst codes)

/-- References to the functions of an instance. -/
def funcRefs (inst : Nat) (idxs : List FuncIdx) : Run σ (List Value) := do
  let i ← instanceAt inst
  ofExcept (idxs.mapM fun idx => Value.funcRef <$> i.funcAddr idx)

/-- The references that an element segment holds. -/
def elemValues (enter : Enter σ) (bound inst : Nat) : ElemItems → Run σ (List Value)
  | .funcs idxs => funcRefs inst idxs
  | .exprs exprs => constants enter bound inst exprs

/-- The offset of an active segment. -/
def offset (enter : Enter σ) (bound inst : Nat) (code : Code) : Run σ Nat := do
  return (← constant enter bound inst code).u32.toNat

/-- Give a passive segment its values; an active one is written to its table and dropped, and a
declarative one is dropped. -/
def initElem (enter : Enter σ) (bound inst addr : Nat) (e : ElemSegment) : Run σ Unit := do
  let values ← elemValues enter bound inst e.items
  match e.mode with
  | .active table code =>
    let pos ← offset enter bound inst code
    let tableAddr ← ofExcept ((← instanceAt inst).tableAddr table)
    store (StoreM.onTable tableAddr (Table.write pos values))
    store (StoreM.dropElem addr)
  | .declarative => store (StoreM.dropElem addr)
  | .passive => store (StoreM.fillElem addr values)

/-- Initialise element segments in order, the first of them at a given address. -/
def initElems (enter : Enter σ) (bound inst : Nat) : Nat → List ElemSegment → Run σ Unit
  | _, [] => pure ()
  | addr, e :: es => do
    initElem enter bound inst addr e
    initElems enter bound inst (addr + 1) es

/-- Write an active data segment to its memory and drop it; leave a passive one. -/
def initData (enter : Enter σ) (bound inst addr : Nat) (d : DataSegment) : Run σ Unit := do
  match d.mode with
  | .passive => pure ()
  | .active mem code =>
    let pos ← offset enter bound inst code
    let memAddr ← ofExcept ((← instanceAt inst).memAddr mem)
    store (StoreM.onMemory memAddr (Memory.write pos d.bytes))
    store (StoreM.dropData addr)

/-- Initialise data segments in order, the first of them at a given address. -/
def initDatas (enter : Enter σ) (bound inst : Nat) : Nat → List DataSegment → Run σ Unit
  | _, [] => pure ()
  | addr, d :: ds => do
    initData enter bound inst addr d
    initDatas enter bound inst (addr + 1) ds

/-- Run the start function, if there is one. -/
def start (enter : Enter σ) (bound inst : Nat) : Option FuncIdx → Run σ Unit
  | none => pure ()
  | some idx => do
    let addr ← ofExcept ((← instanceAt inst).funcAddr idx)
    let _ ← invoke enter bound addr #[]

/-- Make an instance available under its name. -/
def publish (inst : Nat) (name : String) : Run σ Unit :=
  modify fun m => { m with
    instances := m.instances.modify inst fun i => { i with ready := true }
    names := m.names.insert name inst }

/-- Instantiate a module under a name, with the given addresses for its imports. -/
def instantiate (enter : Enter σ) (bound : Nat) (name : String) (module : Module) (e : Externs) :
    Run σ Nat := do
  ofExcept ((← get).checkImports module e)
  let inst := (← get).instances.size
  let allocated := Instance.allocated (← get).store module inst name e
  let firstGlobal := (← get).store.globals.size
  let firstElem := (← get).store.elems.size
  let firstData := (← get).store.datas.size
  modify fun m => { m with store := m.store.allocate module inst name }
  let exporting ← ofExcept (allocated.addExports module.exports)
  modify fun m => { m with instances := m.instances.push exporting }
  initGlobals enter bound inst firstGlobal module.globalInits
  initElems enter bound inst firstElem module.elems
  initDatas enter bound inst firstData module.datas
  start enter bound inst module.start
  publish inst name
  return inst

end Run

/-! ## Entries -/

/-- Carry out an entry. -/
def Entry.perform {σ : Type} (op : Entry) (enter : Enter σ) (bound : Nat) : Run σ op.Reply :=
  match op with
  | .invoke addr args => Run.invoke enter bound addr args
  | .trampoline addr args => Run.trampoline enter bound addr args
  | .callExport inst name args => Run.callExport enter bound inst name args
  | .instantiate name module externs => Run.instantiate enter bound name module externs
  | .step => Run.step enter
  | .execute depth => Run.execute enter bound depth

/-- Carry out entries within a bound: on the depth of entries within entries, and on the steps of
each. -/
def Machine.enter {σ : Type} : Nat → (op : Entry) → Run σ op.Reply
  | 0, _ => Run.outOfBound
  | bound + 1, op => op.perform (fun op => Machine.enter bound op) bound

end WasmMachine
