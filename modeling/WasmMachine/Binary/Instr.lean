import WasmMachine.Binary.Types
import WasmMachine.Flatten

/-!
# The binary form of instructions

An instruction is an opcode byte and its immediates; two opcodes open groups in which a number
selects the instruction.  The operations that follow one another in the opcode space are listed
in tables, in that order.  An instruction sequence ends with the `endOf` that closes it, and is
flattened as it is read.
-/

namespace WasmMachine

/-! ## Tables of operations -/

/-- The integer comparisons, in opcode order. -/
def IntCompare.all : List IntCompare :=
  [.eq, .ne, .lt .signed, .lt .unsigned, .gt .signed, .gt .unsigned, .le .signed, .le .unsigned,
    .ge .signed, .ge .unsigned]

/-- The float comparisons, in opcode order. -/
def FloatCompare.all : List FloatCompare := [.eq, .ne, .lt, .gt, .le, .ge]

/-- The bit counts, in opcode order. -/
def IntUnary.all : List IntUnary := [.clz, .ctz, .popcnt]

/-- The operations on two integers, in opcode order. -/
def IntBinary.all : List IntBinary :=
  [.add, .sub, .mul, .div .signed, .div .unsigned, .rem .signed, .rem .unsigned, .and, .or, .xor,
    .shl, .shr .signed, .shr .unsigned, .rotl, .rotr]

/-- The operations on one float, in opcode order. -/
def FloatUnary.all : List FloatUnary := [.abs, .neg, .ceil, .floor, .trunc, .nearest, .sqrt]

/-- The operations on two floats, in opcode order. -/
def FloatBinary.all : List FloatBinary := [.add, .sub, .mul, .div, .min, .max, .copysign]

/-- The numeric operations with an opcode of their own, in opcode order. -/
def NumericOp.table : Array NumericOp := List.toArray <|
  .eqz .w32 :: IntCompare.all.map (.intCompare .w32) ++
  .eqz .w64 :: IntCompare.all.map (.intCompare .w64) ++
  FloatCompare.all.map (.floatCompare .w32) ++
  FloatCompare.all.map (.floatCompare .w64) ++
  IntUnary.all.map (.intUnary .w32) ++
  IntBinary.all.map (.intBinary .w32) ++
  IntUnary.all.map (.intUnary .w64) ++
  IntBinary.all.map (.intBinary .w64) ++
  FloatUnary.all.map (.floatUnary .w32) ++
  FloatBinary.all.map (.floatBinary .w32) ++
  FloatUnary.all.map (.floatUnary .w64) ++
  FloatBinary.all.map (.floatBinary .w64) ++
  ([.wrap,
    .truncate .w32 .w32 .signed, .truncate .w32 .w32 .unsigned,
    .truncate .w32 .w64 .signed, .truncate .w32 .w64 .unsigned,
    .extend .signed, .extend .unsigned,
    .truncate .w64 .w32 .signed, .truncate .w64 .w32 .unsigned,
    .truncate .w64 .w64 .signed, .truncate .w64 .w64 .unsigned,
    .convert .w32 .w32 .signed, .convert .w32 .w32 .unsigned,
    .convert .w32 .w64 .signed, .convert .w32 .w64 .unsigned,
    .demote,
    .convert .w64 .w32 .signed, .convert .w64 .w32 .unsigned,
    .convert .w64 .w64 .signed, .convert .w64 .w64 .unsigned,
    .promote,
    .bitsOfFloat .w32, .bitsOfFloat .w64, .floatOfBits .w32, .floatOfBits .w64,
    .signExtend .i32From8, .signExtend .i32From16,
    .signExtend .i64From8, .signExtend .i64From16, .signExtend .i64From32] : List NumericOp)

/-- The first opcode of the numeric operations. -/
def NumericOp.firstOpcode : Nat := 0x45

/-- The saturating truncations, in the order of their numbers in the first group. -/
def NumericOp.saturating : Array NumericOp :=
  #[.truncateSat .w32 .w32 .signed, .truncateSat .w32 .w32 .unsigned,
    .truncateSat .w32 .w64 .signed, .truncateSat .w32 .w64 .unsigned,
    .truncateSat .w64 .w32 .signed, .truncateSat .w64 .w32 .unsigned,
    .truncateSat .w64 .w64 .signed, .truncateSat .w64 .w64 .unsigned]

/-- The loads, in opcode order. -/
def LoadOp.table : Array LoadOp :=
  #[.i32, .i64, .f32, .f64, .i32From8 .signed, .i32From8 .unsigned, .i32From16 .signed,
    .i32From16 .unsigned, .i64From8 .signed, .i64From8 .unsigned, .i64From16 .signed,
    .i64From16 .unsigned, .i64From32 .signed, .i64From32 .unsigned]

/-- The first opcode of the loads. -/
def LoadOp.firstOpcode : Nat := 0x28

/-- The stores, in opcode order. -/
def StoreOp.table : Array StoreOp :=
  #[.i32, .i64, .f32, .f64, .i32To8, .i32To16, .i64To8, .i64To16, .i64To32]

/-- The first opcode of the stores. -/
def StoreOp.firstOpcode : Nat := 0x36

/-- The entry of a table whose first opcode is `first`. -/
def lookup? {α : Type} (table : Array α) (first : Nat) (opcode : UInt8) : Option α :=
  if first ≤ opcode.toNat then table[opcode.toNat - first]? else none

/-- The shapes of vector immediates. -/
inductive VectorShape where
  | none
  | memArg
  | memArgLane
  | lane
  | shuffle
  | const
  deriving DecidableEq, Repr, Inhabited

/-- The shape of the immediate of a vector instruction, by its number; none if there is no such
instruction. -/
def VectorShape.ofNumber? (n : Nat) : Option VectorShape :=
  if n ≤ 0x0b then some .memArg
  else if n = 0x0c then some .const
  else if n = 0x0d then some .shuffle
  else if n ≤ 0x14 then some .none
  else if n ≤ 0x22 then some .lane
  else if n ≤ 0x53 then some .none
  else if n ≤ 0x5b then some .memArgLane
  else if n ≤ 0x5d then some .memArg
  else if n ≤ 0xff then some .none
  else Option.none

/-! ## Instructions -/

namespace Decoder

/-- The index of a memory inside an instruction is one byte. -/
def memIdx : Decoder MemIdx := do
  return ⟨(← byte).toUInt32⟩

/-- A value of sixteen bytes. -/
def value : Decoder Value := do
  return .ofBytes (← take 16)

/-- A word of `n` bytes. -/
def word (n : Nat) : Decoder UInt64 := do
  return ofLeBytes (← take n)

/-- The immediate of a vector instruction. -/
def vectorImm : VectorShape → Decoder VectorImm
  | .none => return .none
  | .memArg => return .memArg (← memArg)
  | .memArgLane => return .memArgLane (← memArg) (← byte)
  | .lane => return .lane (← byte)
  | .shuffle => return .shuffle (← value)
  | .const => return .const (← value)

/-- An instruction of the group that the opcode 0xfc opens. -/
def bulkInstr : Decoder Instr := do
  let n ← u32
  match n with
  | 8 => return .memoryInit (← idx) (← memIdx)
  | 9 => return .dataDrop (← idx)
  | 10 => return .memoryCopy (← memIdx) (← memIdx)
  | 11 => return .memoryFill (← memIdx)
  | 12 => return .tableInit (← idx) (← idx)
  | 13 => return .elemDrop (← idx)
  | 14 => return .tableCopy (← idx) (← idx)
  | 15 => return .tableGrow (← idx)
  | 16 => return .tableSize (← idx)
  | 17 => return .tableFill (← idx)
  | _ =>
    match NumericOp.saturating[n.toNat]? with
    | some op => return .numeric op
    | none => fail (.unknownSubopcode 0xfc n)

/-- An instruction of the group that the opcode 0xfd opens. -/
def vectorInstr : Decoder Instr := do
  let n ← u32
  match VectorShape.ofNumber? n.toNat with
  | some shape => return .vector n (← vectorImm shape)
  | none => fail (.unknownSubopcode 0xfd n)

/-- An instruction whose opcode belongs to a table. -/
def tabledInstr (opcode : UInt8) : Decoder Instr := do
  if let some op := lookup? LoadOp.table LoadOp.firstOpcode opcode then
    return .load op (← memArg)
  else if let some op := lookup? StoreOp.table StoreOp.firstOpcode opcode then
    return .store op (← memArg)
  else if let some op := lookup? NumericOp.table NumericOp.firstOpcode opcode then
    return .numeric op
  else
    fail (.unknownOpcode opcode)

/-- The rest of an instruction whose opcode has been read. Structured instructions come with
targets of zero. -/
def instrBody (opcode : UInt8) : Decoder Instr := do
  match opcode with
  | 0x00 => return .unreachable
  | 0x01 => return .nop
  | 0x02 => return .block (← blockType) 0
  | 0x03 => return .loop (← blockType) 0
  | 0x04 => return .ifThen (← blockType) 0 0
  | 0x05 => return .elseArm 0
  | 0x0b => return .endOf
  | 0x0c => return .br (← idx)
  | 0x0d => return .brIf (← idx)
  | 0x0e => return .brTable (← vec idx) (← idx)
  | 0x0f => return .ret
  | 0x10 => return .call (← idx)
  | 0x11 => return .callIndirect (← idx) (← idx)
  | 0x1a => return .drop
  | 0x1b => return .select
  | 0x1c => return .selectTyped (← vec valType)
  | 0x20 => return .localGet (← idx)
  | 0x21 => return .localSet (← idx)
  | 0x22 => return .localTee (← idx)
  | 0x23 => return .globalGet (← idx)
  | 0x24 => return .globalSet (← idx)
  | 0x25 => return .tableGet (← idx)
  | 0x26 => return .tableSet (← idx)
  | 0x3f => return .memorySize (← memIdx)
  | 0x40 => return .memoryGrow (← memIdx)
  | 0x41 => return .i32Const (← i32)
  | 0x42 => return .i64Const (← i64)
  | 0x43 => return .f32Const ⟨(← word 4).toUInt32⟩
  | 0x44 => return .f64Const ⟨← word 8⟩
  | 0xd0 => return .refNull (← refType)
  | 0xd1 => return .refIsNull
  | 0xd2 => return .refFunc (← idx)
  | 0xfc => bulkInstr
  | 0xfd => vectorInstr
  | _ => tabledInstr opcode

/-- One instruction. -/
def instr : Decoder Instr := do
  instrBody (← byte)

theorem length_lt_of_instr {s t : Input} {i : Instr} (h : instr.run s = .ok (i, t)) :
    t.bytes.length < s.bytes.length := by
  rw [instr, run_bind] at h
  split at h
  · cases h
  · next b u hb =>
    exact Nat.lt_of_le_of_lt ((instrBody b).reaches h).length_le (length_lt_of_byte hb)

/-- Read instructions until the sequence is closed. -/
def sequenceFrom (f : Flattener) (s : Input) : Reading Code :=
  if f.closed then .ok (f.code, s)
  else
    match _h : instr.run s with
    | .error e => .error e
    | .ok (i, t) =>
      match f.push i with
      | .error _ => .error (.unexpectedElse s.pos)
      | .ok f => sequenceFrom f t
termination_by s.bytes.length
decreasing_by exact length_lt_of_instr _h

theorem reaches_sequenceFrom {f : Flattener} {s t : Input} {code : Code}
    (h : sequenceFrom f s = .ok (code, t)) : s.Reaches t := by
  fun_induction sequenceFrom f s with
  | case1 => cases h; exact .refl _
  | case2 => cases h
  | case3 => cases h
  | case4 _ _ _ _ _ hd _ _ ih => exact (instr.reaches hd).trans (ih h)

/-- An instruction sequence up to and including the `endOf` that closes it, in flat form. -/
def sequence : Decoder Code where
  run := sequenceFrom (.start 0)
  reaches := reaches_sequenceFrom

end Decoder

end WasmMachine
