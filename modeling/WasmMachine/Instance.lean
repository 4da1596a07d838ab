import WasmMachine.Trap
import Std.Data.HashMap

/-!
# Module instances

An instance maps the index spaces of a module to addresses in the store.  Addresses are
positions in the store's lists and are never reused.
-/

namespace WasmMachine

/-- Something that an instance exports, by its address. -/
inductive ExternVal where
  | func (addr : Nat)
  | table (addr : Nat)
  | mem (addr : Nat)
  | global (addr : Nat)
  deriving DecidableEq, Repr, Inhabited

/-- The address of a function, if it is one. -/
def ExternVal.func? : ExternVal → Option Nat
  | .func a => some a
  | _ => none

/-- The address of a table, if it is one. -/
def ExternVal.table? : ExternVal → Option Nat
  | .table a => some a
  | _ => none

/-- The address of a memory, if it is one. -/
def ExternVal.mem? : ExternVal → Option Nat
  | .mem a => some a
  | _ => none

/-- The address of a global, if it is one. -/
def ExternVal.global? : ExternVal → Option Nat
  | .global a => some a
  | _ => none

/-- The addresses given for a module's imports, by kind, each in import order. -/
structure Externs where
  funcs : Array Nat := #[]
  tables : Array Nat := #[]
  memories : Array Nat := #[]
  globals : Array Nat := #[]
  deriving DecidableEq, Repr, Inhabited

/-- A module's index spaces as addresses. It is `ready` once its initialisers and its start
function have all succeeded. -/
structure Instance where
  name : String
  types : Array FuncType
  funcs : Array Nat
  tables : Array Nat
  memories : Array Nat
  globals : Array Nat
  elems : Array Nat
  datas : Array Nat
  exports : Std.HashMap String ExternVal
  ready : Bool
  deriving Inhabited

namespace Instance

/-- The address that an index of a space denotes. -/
def addrOf (space : IndexSpace) (addrs : Array Nat) (idx : UInt32) : Except Trap Nat :=
  match addrs[idx.toNat]? with
  | some a => .ok a
  | none => .error (.index space idx.toNat)

/-- The signature that a type index denotes. -/
def funcType (i : Instance) (idx : TypeIdx) : Except Trap FuncType :=
  match i.types[idx.toNat]? with
  | some t => .ok t
  | none => .error (.index .type idx.toNat)

/-- The address of a function. -/
def funcAddr (i : Instance) (idx : FuncIdx) : Except Trap Nat := addrOf .func i.funcs idx.val

/-- The address of a table. -/
def tableAddr (i : Instance) (idx : TableIdx) : Except Trap Nat := addrOf .table i.tables idx.val

/-- Only memory zero can be accessed. -/
def memAddr (i : Instance) (idx : MemIdx) : Except Trap Nat :=
  if idx.val ≠ 0 then .error (.nonzeroMemory idx.toNat) else addrOf .mem i.memories idx.val

/-- The address of a global. -/
def globalAddr (i : Instance) (idx : GlobalIdx) : Except Trap Nat :=
  addrOf .global i.globals idx.val

/-- The address of an element segment. -/
def elemAddr (i : Instance) (idx : ElemIdx) : Except Trap Nat := addrOf .elem i.elems idx.val

/-- The address of a data segment. -/
def dataAddr (i : Instance) (idx : DataIdx) : Except Trap Nat := addrOf .data i.datas idx.val

/-- How many operands a construct takes and leaves. -/
def blockArity (i : Instance) : BlockType → Except Trap (Nat × Nat)
  | .empty => .ok (0, 0)
  | .val _ => .ok (0, 1)
  | .typeIndex idx => do
    let t ← i.funcType idx
    return (t.params.length, t.results.length)

/-- What an export of the module hands out. -/
def externVal (i : Instance) : ExportDesc → Except Trap ExternVal
  | .func idx => .func <$> i.funcAddr idx
  | .table idx => .table <$> i.tableAddr idx
  | .mem idx => .mem <$> i.memAddr idx
  | .global idx => .global <$> i.globalAddr idx

end Instance

end WasmMachine
