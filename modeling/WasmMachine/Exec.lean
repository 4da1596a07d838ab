import WasmMachine.Numeric.Op
import WasmMachine.Store

/-!
# Single instructions

The effect of one instruction on the innermost frame and the store, within a given instance
(`Instr.exec`).  A call is not carried out here but reported (`Flow.call`); everything else is
complete.  An instruction that traps has changed nothing but the operands and labels of its
frame: all that can fail is done before the first write to the store.
-/

namespace WasmMachine

/-- What the machine has to do after an instruction. -/
inductive Flow where
  | next
  | call (addr : Nat)
  deriving DecidableEq, Repr, Inhabited

/-- What an instruction acts on. -/
structure Activation (σ : Type) where
  frame : Frame
  store : Store σ

/-- Operations on the innermost frame and the store. -/
abbrev Act (σ : Type) := EStateM Trap (Activation σ)

namespace Act

variable {σ α : Type}

/-- Act on the frame alone. -/
@[inline] def onFrame (act : FrameM α) : Act σ α := fun ⟨frame, store⟩ =>
  match act frame with
  | .ok a frame => .ok a ⟨frame, store⟩
  | .error t frame => .error t ⟨frame, store⟩

/-- Act on the store alone. -/
@[inline] def onStore (act : StoreM σ α) : Act σ α := fun ⟨frame, store⟩ =>
  match act store with
  | .ok a store => .ok a ⟨frame, store⟩
  | .error t store => .error t ⟨frame, store⟩

/-- Use a result that was computed otherwise. -/
@[inline] def ofExcept (r : Except Trap α) : Act σ α := fun s =>
  match r with
  | .ok a => .ok a s
  | .error t => .error t s

instance : MonadLift FrameM (Act σ) := ⟨onFrame⟩
instance : MonadLift (Except Trap) (Act σ) := ⟨ofExcept⟩

/-- Act on a table. -/
def onTable (addr : Nat) (act : EStateM Trap Table α) : Act σ α :=
  onStore (StoreM.onTable addr act)

/-- Act on a memory. -/
def onMemory (addr : Nat) (act : EStateM Trap Memory α) : Act σ α :=
  onStore (StoreM.onMemory addr act)

/-- The address of a table that an index denotes, where there has to be one. -/
def table (inst : Instance) (idx : TableIdx) : Act σ Nat := do
  let addr ← inst.tableAddr idx
  onStore (StoreM.checkTable addr)
  return addr

/-- The address of a memory that an index denotes, where there has to be one. -/
def memory (inst : Instance) (idx : MemIdx) : Act σ Nat := do
  let addr ← inst.memAddr idx
  onStore (StoreM.checkMemory addr)
  return addr

/-- Pop the base of a memory access and add the offset. -/
def popAddr (arg : MemArg) : Act σ Nat := do
  return (← FrameM.popNat) + arg.offset.toNat

/-- Read from memory zero. -/
def read (inst : Instance) (pos count : Nat) : Act σ (List UInt8) := do
  onMemory (← inst.memAddr ⟨0⟩) (Memory.read pos count)

/-- Write to memory zero. -/
def write (inst : Instance) (pos : Nat) (bytes : List UInt8) : Act σ Unit := do
  onMemory (← inst.memAddr ⟨0⟩) (Memory.write pos bytes)

/-- The operands of an instruction that moves a range: where to, where from, how many. -/
structure Bulk where
  dst : Nat
  src : Nat
  count : Nat
  deriving DecidableEq, Repr

/-- Pop the operands of an instruction that moves a range. -/
def popBulk : Act σ Bulk := do
  let count ← FrameM.popNat
  let src ← FrameM.popNat
  let dst ← FrameM.popNat
  return { dst, src, count }

/-! ## Groups of instructions -/

/-- A numeric instruction pops its operands, the last one first, and pushes its result. -/
def numeric (op : NumericOp) : Act σ Unit := do
  match op.func with
  | .unary f =>
    let a ← FrameM.pop
    FrameM.push (← f a)
  | .binary f =>
    let b ← FrameM.pop
    let a ← FrameM.pop
    FrameM.push (← f a b)

/-- Apply a bitwise operation to the top two operands. -/
def bitwise (f : UInt64 → UInt64 → UInt64) : Act σ Unit := do
  let b ← FrameM.pop
  let a ← FrameM.pop
  FrameM.push (Value.map₂ f a b)

/-- The vector instructions that can run: loads, stores and constants of a whole register, two
splats, and bitwise operations. -/
def vector (inst : Instance) (op : UInt32) (imm : VectorImm) : Act σ Unit := do
  match op, imm with
  | 0x00, .memArg arg =>
    let pos ← popAddr arg
    FrameM.push (.ofBytes (← read inst pos 16))
  | 0x0b, .memArg arg =>
    let v ← FrameM.pop
    let pos ← popAddr arg
    write inst pos v.toBytes
  | 0x0c, .const v => FrameM.push v
  | 0x0f, _ =>
    let v ← FrameM.pop
    FrameM.push (.ofBytes (List.replicate 16 v.lo.toUInt8))
  | 0x11, _ =>
    let v ← FrameM.pop
    let w := v.u32.toUInt64
    FrameM.push ⟨w ||| (w <<< 32), w ||| (w <<< 32)⟩
  | 0x4d, _ =>
    let v ← FrameM.pop
    FrameM.push ⟨~~~v.lo, ~~~v.hi⟩
  | 0x4e, _ => bitwise (· &&& ·)
  | 0x4f, _ => bitwise fun a b => a &&& ~~~b
  | 0x50, _ => bitwise (· ||| ·)
  | 0x51, _ => bitwise (· ^^^ ·)
  | _, _ => throw .unsupported

/-- The function that an indirect call goes to: the slot has to hold a function of the expected
type. -/
def indirect (inst : Instance) (type : TypeIdx) (table : TableIdx) : Act σ Nat := do
  let expected ← inst.funcType type
  let tableAddr ← Act.table inst table
  let slot ← FrameM.popNat
  match ← onTable tableAddr (return (← get).get? slot) with
  | none => throw .undefinedElement
  | some v =>
    match v.funcAddr? with
    | none => throw .uninitializedElement
    | some addr =>
      let func ← onStore (StoreM.getFunc addr)
      if func.type ≠ expected then
        throw .indirectCallType
      return addr

/-- Copy a range between two tables, or within one. -/
def tableCopy (inst : Instance) (dst src : TableIdx) : Act σ Unit := do
  let b ← popBulk
  let dstAddr ← inst.tableAddr dst
  let srcAddr ← inst.tableAddr src
  if dstAddr = srcAddr then
    onTable dstAddr (Table.copy b.dst b.src b.count)
  else
    let values ← onTable srcAddr (Table.read b.src b.count)
    onTable dstAddr (Table.write b.dst values)

/-- Copy a range of an element segment to a table. -/
def tableInit (inst : Instance) (segment : ElemIdx) (table : TableIdx) : Act σ Unit := do
  let b ← popBulk
  let elemAddr ← inst.elemAddr segment
  let values ← onStore <| StoreM.gets fun s =>
    match s.elems[elemAddr]? with
    | some (some e) =>
      match sublist? e.values b.src b.count with
      | some values => .ok values
      | none => .error .tableBounds
    | _ => .error (.elemDropped segment.toNat)
  onTable (← inst.tableAddr table) (Table.write b.dst values)

/-- Copy a range of a data segment to a memory. -/
def memoryInit (inst : Instance) (segment : DataIdx) (mem : MemIdx) : Act σ Unit := do
  let b ← popBulk
  let memAddr ← inst.memAddr mem
  let dataAddr ← inst.dataAddr segment
  let bytes ← onStore <| StoreM.gets fun s =>
    match s.datas[dataAddr]? with
    | some (some bytes) =>
      match sublist? bytes b.src b.count with
      | some bytes => .ok bytes
      | none => .error .memoryBounds
    | _ => .error (.dataDropped segment.toNat)
  onMemory memAddr (Memory.write b.dst bytes)

end Act

/-! ## All instructions -/

/-- The number that a size or its absence is pushed as: a size that does not exist is -1. -/
def Value.ofSize : Option Nat → Value
  | some n => .ofU32 (UInt32.ofNat n)
  | none => .ofU32 (-1)

/-- Run one instruction in the innermost frame, whose position is past it already. -/
def Instr.exec {σ : Type} (inst : Instance) : Instr → Act σ Flow
  | .unreachable => throw .unreachable
  | .nop => return .next
  | .block type target => do
    let (params, results) ← inst.blockArity type
    FrameM.pushLabel results target params
    return .next
  | .loop type target => do
    let (params, _) ← inst.blockArity type
    FrameM.pushLabel params target params
    return .next
  | .ifThen type target elseTarget => do
    let cond ← FrameM.popNat
    let (params, results) ← inst.blockArity type
    if cond ≠ 0 then
      FrameM.pushLabel results target params
    else if elseTarget = target then
      -- without an else arm the whole construct is skipped
      FrameM.jump target
    else
      FrameM.pushLabel results target params
      FrameM.jump elseTarget
    return .next
  | .elseArm target => do
    FrameM.popLabel
    FrameM.jump target
    return .next
  | .endOf => do
    FrameM.popLabel
    return .next
  | .br l => do
    FrameM.branch l.toNat
    return .next
  | .brIf l => do
    if (← FrameM.popNat) ≠ 0 then
      FrameM.branch l.toNat
    return .next
  | .brTable ls fallback => do
    let i ← FrameM.popNat
    FrameM.branch (ls[i]?.getD fallback).toNat
    return .next
  | .ret => do
    FrameM.ret
    return .next
  | .call f => return .call (← inst.funcAddr f)
  | .callIndirect type table => return .call (← Act.indirect inst type table)
  | .refNull _ => do
    FrameM.push .null
    return .next
  | .refIsNull => do
    let v ← FrameM.pop
    FrameM.push (.ofBool v.isNull)
    return .next
  | .refFunc f => do
    FrameM.push (.funcRef (← inst.funcAddr f))
    return .next
  | .drop => do
    let _ ← FrameM.pop
    return .next
  | .select | .selectTyped _ => do
    let cond ← FrameM.popNat
    let b ← FrameM.pop
    let a ← FrameM.pop
    FrameM.push (if cond ≠ 0 then a else b)
    return .next
  | .localGet i => do
    FrameM.push (← FrameM.getLocal i.toNat)
    return .next
  | .localSet i => do
    FrameM.setLocal i.toNat (← FrameM.pop)
    return .next
  | .localTee i => do
    FrameM.setLocal i.toNat (← FrameM.peek)
    return .next
  | .globalGet i => do
    let addr ← inst.globalAddr i
    FrameM.push (← Act.onStore (StoreM.getGlobal addr))
    return .next
  | .globalSet i => do
    let addr ← inst.globalAddr i
    let v ← FrameM.pop
    Act.onStore (StoreM.setGlobal addr v)
    return .next
  | .tableGet t => do
    let addr ← Act.table inst t
    let slot ← FrameM.popNat
    match ← Act.onTable addr (return (← get).get? slot) with
    | some v => FrameM.push v
    | none => throw .tableBounds
    return .next
  | .tableSet t => do
    let addr ← Act.table inst t
    let v ← FrameM.pop
    let slot ← FrameM.popNat
    Act.onTable addr (Table.set slot v)
    return .next
  | .tableInit segment t => do
    Act.tableInit inst segment t
    return .next
  | .elemDrop segment => do
    let addr ← inst.elemAddr segment
    Act.onStore (StoreM.dropElem addr)
    return .next
  | .tableCopy dst src => do
    Act.tableCopy inst dst src
    return .next
  | .tableGrow t => do
    let addr ← Act.table inst t
    let delta ← FrameM.popNat
    let v ← FrameM.pop
    FrameM.push (.ofI32 (← Act.onTable addr (Table.grow delta v)))
    return .next
  | .tableSize t => do
    let addr ← Act.table inst t
    FrameM.push (.ofSize (some (← Act.onTable addr (return (← get).size))))
    return .next
  | .tableFill t => do
    let addr ← Act.table inst t
    let count ← FrameM.popNat
    let v ← FrameM.pop
    let pos ← FrameM.popNat
    Act.onTable addr (Table.fill pos v count)
    return .next
  | .load op arg => do
    let pos ← Act.popAddr arg
    FrameM.push (op.value (← Act.read inst pos op.size))
    return .next
  | .store op arg => do
    let v ← FrameM.pop
    let pos ← Act.popAddr arg
    Act.write inst pos (leBytes op.size v.lo)
    return .next
  | .memorySize m => do
    let addr ← Act.memory inst m
    FrameM.push (.ofSize (some (← Act.onMemory addr (return (← get).pages))))
    return .next
  | .memoryGrow m => do
    let addr ← Act.memory inst m
    let delta ← FrameM.popNat
    FrameM.push (.ofSize (← Act.onMemory addr (Memory.grow delta)))
    return .next
  | .memoryInit segment m => do
    Act.memoryInit inst segment m
    return .next
  | .dataDrop segment => do
    let addr ← inst.dataAddr segment
    Act.onStore (StoreM.dropData addr)
    return .next
  | .memoryCopy dst src => do
    let _ ← inst.memAddr src
    let addr ← Act.memory inst dst
    let b ← Act.popBulk
    Act.onMemory addr (Memory.copy b.dst b.src b.count)
    return .next
  | .memoryFill m => do
    let addr ← Act.memory inst m
    let count ← FrameM.popNat
    let v ← FrameM.pop
    let pos ← FrameM.popNat
    Act.onMemory addr (Memory.fill v.lo.toUInt8 pos count)
    return .next
  | .i32Const v => do
    FrameM.push (Native.toValue v)
    return .next
  | .i64Const v => do
    FrameM.push (Native.toValue v)
    return .next
  | .f32Const v => do
    FrameM.push (Native.toValue v)
    return .next
  | .f64Const v => do
    FrameM.push (Native.toValue v)
    return .next
  | .numeric op => do
    Act.numeric op
    return .next
  | .vector op imm => do
    Act.vector inst op imm
    return .next

end WasmMachine
