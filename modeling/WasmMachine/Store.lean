import WasmMachine.Host

/-!
# The store

Everything that instances share: functions, tables, memories, globals and segments, each in a
list of its own.  An address is a position in one of the lists; nothing is ever removed, and a
segment that has been dropped leaves an empty slot.
-/

namespace WasmMachine

/-- A function that a module defines, in the instance that it belongs to. -/
structure ModuleFunc where
  type : FuncType
  locals : List ValType
  code : Code
  inst : Nat
  module : String
  deriving DecidableEq, Repr, Inhabited

/-- A function of the store. -/
inductive StoreFunc (σ : Type) where
  | module (func : ModuleFunc)
  | host (func : HostFunc σ)

namespace StoreFunc

variable {σ : Type}

/-- The signature of a function. -/
def type : StoreFunc σ → FuncType
  | .module f => f.type
  | .host f => f.type

/-- The instance of a function; a host function has none. -/
def inst? : StoreFunc σ → Option Nat
  | .module f => some f.inst
  | .host _ => none

/-- What can be seen of a function. -/
def view (f : StoreFunc σ) : FuncView where
  type := f.type
  inst? := f.inst?
  names? := match f with
    | .module _ => none
    | .host f => some (f.module, f.name)

/-- Whether this is the host function of the two names. -/
def isHost (module name : String) : StoreFunc σ → Bool
  | .module _ => false
  | .host f => f.module == module && f.name == name

end StoreFunc

/-- An element segment whose items have been evaluated. -/
structure ElemInstance where
  type : RefType
  values : List Value
  deriving DecidableEq, Repr, Inhabited

/-- The store. -/
structure Store (σ : Type) where
  funcs : Array (StoreFunc σ) := #[]
  tables : Array Table := #[]
  memories : Array Memory := #[]
  globals : Array Value := #[]
  elems : Array (Option ElemInstance) := #[]
  datas : Array (Option (List UInt8)) := #[]

/-- The part of a list from a position on; none if it is shorter. -/
def sublist? {α : Type} (xs : List α) (pos count : Nat) : Option (List α) :=
  if pos + count ≤ xs.length then some ((xs.drop pos).take count) else none

/-- Operations on the store. -/
abbrev StoreM (σ : Type) := EStateM Trap (Store σ)

namespace StoreM

variable {σ α : Type}

/-- Run an operation on the memory at an address. The memory is taken out of the list meanwhile,
so that it is changed in place. -/
def onMemory (addr : Nat) (act : EStateM Trap Memory α) : StoreM σ α :=
  fun ⟨funcs, tables, memories, globals, elems, datas⟩ =>
    if h : addr < memories.size then
      match memories.swapAt addr default h with
      | (memory, memories) =>
        match act memory with
        | .ok a memory =>
          .ok a ⟨funcs, tables, memories.setIfInBounds addr memory, globals, elems, datas⟩
        | .error t memory =>
          .error t ⟨funcs, tables, memories.setIfInBounds addr memory, globals, elems, datas⟩
    else
      .error (.address .mem addr) ⟨funcs, tables, memories, globals, elems, datas⟩

/-- Run an operation on the table at an address. -/
def onTable (addr : Nat) (act : EStateM Trap Table α) : StoreM σ α :=
  fun ⟨funcs, tables, memories, globals, elems, datas⟩ =>
    if h : addr < tables.size then
      match tables.swapAt addr default h with
      | (table, tables) =>
        match act table with
        | .ok a table =>
          .ok a ⟨funcs, tables.setIfInBounds addr table, memories, globals, elems, datas⟩
        | .error t table =>
          .error t ⟨funcs, tables.setIfInBounds addr table, memories, globals, elems, datas⟩
    else
      .error (.address .table addr) ⟨funcs, tables, memories, globals, elems, datas⟩

/-- An operation on a memory that is there changes that memory and nothing else. -/
theorem onMemory_of_lt {addr : Nat} {act : EStateM Trap Memory α} {s : Store σ}
    (h : addr < s.memories.size) :
    onMemory addr act s = match act s.memories[addr] with
      | .ok a m => .ok a { s with memories := s.memories.set addr m }
      | .error t m => .error t { s with memories := s.memories.set addr m } := by
  simp only [onMemory, h, dite_true, Array.swapAt_def, Array.setIfInBounds_def, Array.size_set,
    Array.set_set]

/-- An operation on a memory that is not there does nothing. -/
theorem onMemory_of_le {addr : Nat} {act : EStateM Trap Memory α} {s : Store σ}
    (h : s.memories.size ≤ addr) : onMemory addr act s = .error (.address .mem addr) s := by
  simp only [onMemory, Nat.not_lt.mpr h, dite_false]

/-- An operation on a table that is there changes that table and nothing else. -/
theorem onTable_of_lt {addr : Nat} {act : EStateM Trap Table α} {s : Store σ}
    (h : addr < s.tables.size) :
    onTable addr act s = match act s.tables[addr] with
      | .ok a t => .ok a { s with tables := s.tables.set addr t }
      | .error e t => .error e { s with tables := s.tables.set addr t } := by
  simp only [onTable, h, dite_true, Array.swapAt_def, Array.setIfInBounds_def, Array.size_set,
    Array.set_set]

/-- An operation on a table that is not there does nothing. -/
theorem onTable_of_le {addr : Nat} {act : EStateM Trap Table α} {s : Store σ}
    (h : s.tables.size ≤ addr) : onTable addr act s = .error (.address .table addr) s := by
  simp only [onTable, Nat.not_lt.mpr h, dite_false]

/-- Look something up. -/
def gets (f : Store σ → Except Trap α) : StoreM σ α := fun s =>
  match f s with
  | .ok a => .ok a s
  | .error t => .error t s

/-- The value of a global. -/
def getGlobal (addr : Nat) : StoreM σ Value := gets fun s =>
  match s.globals[addr]? with
  | some v => .ok v
  | none => .error (.address .global addr)

/-- Set a global. -/
def setGlobal (addr : Nat) (v : Value) : StoreM σ Unit := fun s =>
  if addr < s.globals.size then .ok () { s with globals := s.globals.setIfInBounds addr v }
  else .error (.address .global addr) s

/-- The function at an address. -/
def getFunc (addr : Nat) : StoreM σ (StoreFunc σ) := gets fun s =>
  match s.funcs[addr]? with
  | some f => .ok f
  | none => .error (.address .func addr)

/-- Check that there is a memory at an address. -/
def checkMemory (addr : Nat) : StoreM σ Unit := gets fun s =>
  if addr < s.memories.size then .ok () else .error (.address .mem addr)

/-- Check that there is a table at an address. -/
def checkTable (addr : Nat) : StoreM σ Unit := gets fun s =>
  if addr < s.tables.size then .ok () else .error (.address .table addr)

/-- Drop an element segment. -/
def dropElem (addr : Nat) : StoreM σ Unit := fun s =>
  .ok () { s with elems := s.elems.setIfInBounds addr none }

/-- Set the values of an element segment, unless it has been dropped. -/
def fillElem (addr : Nat) (values : List Value) : StoreM σ Unit := fun s =>
  .ok () { s with elems := s.elems.modify addr (Option.map fun e => { e with values }) }

/-- Drop a data segment. -/
def dropData (addr : Nat) : StoreM σ Unit := fun s =>
  .ok () { s with datas := s.datas.setIfInBounds addr none }

end StoreM

end WasmMachine
