import WasmMachine.Binary.Instr
import WasmMachine.Proofs.TypeForms

/-!
# The forms of instructions

The bytes of each instruction: an opcode, or the opcode of a group and a number in it, and then
the immediates in order.  The opcodes are written out here and not looked up in the tables that
the decoder uses.  `Instr.Encodable` says which instructions have a form: an index of a memory is
one byte, and the number of a vector instruction decides what immediate it takes.

An instruction is read back with targets of zero, for its targets are not part of its form.
-/

namespace WasmMachine

open Leb128 (ofNat ofInt)

/-! ## Opcodes -/

/-- The second of two variants is the one without a sign. -/
def Sign.code : Sign → UInt8
  | .signed => 0
  | .unsigned => 1

def IntCompare.code : IntCompare → UInt8
  | .eq => 0
  | .ne => 1
  | .lt sign => 2 + sign.code
  | .gt sign => 4 + sign.code
  | .le sign => 6 + sign.code
  | .ge sign => 8 + sign.code

def IntUnary.code : IntUnary → UInt8
  | .clz => 0
  | .ctz => 1
  | .popcnt => 2

def IntBinary.code : IntBinary → UInt8
  | .add => 0
  | .sub => 1
  | .mul => 2
  | .div sign => 3 + sign.code
  | .rem sign => 5 + sign.code
  | .and => 7
  | .or => 8
  | .xor => 9
  | .shl => 10
  | .shr sign => 11 + sign.code
  | .rotl => 13
  | .rotr => 14

def FloatCompare.code : FloatCompare → UInt8
  | .eq => 0
  | .ne => 1
  | .lt => 2
  | .gt => 3
  | .le => 4
  | .ge => 5

def FloatUnary.code : FloatUnary → UInt8
  | .abs => 0
  | .neg => 1
  | .ceil => 2
  | .floor => 3
  | .trunc => 4
  | .nearest => 5
  | .sqrt => 6

def FloatBinary.code : FloatBinary → UInt8
  | .add => 0
  | .sub => 1
  | .mul => 2
  | .div => 3
  | .min => 4
  | .max => 5
  | .copysign => 6

def SignExtension.code : SignExtension → UInt8
  | .i32From8 => 0
  | .i32From16 => 1
  | .i64From8 => 2
  | .i64From16 => 3
  | .i64From32 => 4

/-- The second of two variants is the wide one. -/
def Width.code : Width → UInt8
  | .w32 => 0
  | .w64 => 1

/-- The opcode of an operation; for a saturating truncation it is the number in the first
group. -/
def NumericOp.code : NumericOp → UInt8
  | .eqz .w32 => 0x45
  | .intCompare .w32 op => 0x46 + op.code
  | .eqz .w64 => 0x50
  | .intCompare .w64 op => 0x51 + op.code
  | .floatCompare .w32 op => 0x5b + op.code
  | .floatCompare .w64 op => 0x61 + op.code
  | .intUnary .w32 op => 0x67 + op.code
  | .intBinary .w32 op => 0x6a + op.code
  | .intUnary .w64 op => 0x79 + op.code
  | .intBinary .w64 op => 0x7c + op.code
  | .floatUnary .w32 op => 0x8b + op.code
  | .floatBinary .w32 op => 0x92 + op.code
  | .floatUnary .w64 op => 0x99 + op.code
  | .floatBinary .w64 op => 0xa0 + op.code
  | .wrap => 0xa7
  | .truncate .w32 source sign => 0xa8 + 2 * source.code + sign.code
  | .extend sign => 0xac + sign.code
  | .truncate .w64 source sign => 0xae + 2 * source.code + sign.code
  | .convert .w32 source sign => 0xb2 + 2 * source.code + sign.code
  | .demote => 0xb6
  | .convert .w64 source sign => 0xb7 + 2 * source.code + sign.code
  | .promote => 0xbb
  | .bitsOfFloat width => 0xbc + width.code
  | .floatOfBits width => 0xbe + width.code
  | .signExtend kind => 0xc0 + kind.code
  | .truncateSat dest source sign => 4 * dest.code + 2 * source.code + sign.code

def NumericOp.encode : NumericOp → List UInt8
  | .truncateSat dest source sign => [0xfc, (truncateSat dest source sign).code]
  | op => [op.code]

def LoadOp.code : LoadOp → UInt8
  | .i32 => 0x28
  | .i64 => 0x29
  | .f32 => 0x2a
  | .f64 => 0x2b
  | .i32From8 sign => 0x2c + sign.code
  | .i32From16 sign => 0x2e + sign.code
  | .i64From8 sign => 0x30 + sign.code
  | .i64From16 sign => 0x32 + sign.code
  | .i64From32 sign => 0x34 + sign.code

def StoreOp.code : StoreOp → UInt8
  | .i32 => 0x36
  | .i64 => 0x37
  | .f32 => 0x38
  | .f64 => 0x39
  | .i32To8 => 0x3a
  | .i32To16 => 0x3b
  | .i64To8 => 0x3c
  | .i64To16 => 0x3d
  | .i64To32 => 0x3e

/-! ## Immediates -/

/-- The index of a memory is one byte. -/
def memByte (mem : MemIdx) : UInt8 := mem.val.toUInt8

def VectorImm.encode : VectorImm → List UInt8
  | .none => []
  | .memArg arg => arg.encode
  | .memArgLane arg i => arg.encode ++ [i]
  | .lane i => [i]
  | .shuffle value | .const value => value.toBytes

/-- The shape of an immediate. -/
def VectorImm.shape : VectorImm → VectorShape
  | .none => .none
  | .memArg _ => .memArg
  | .memArgLane _ _ => .memArgLane
  | .lane _ => .lane
  | .shuffle _ => .shuffle
  | .const _ => .const

/-- Which vector instructions take which immediate. -/
def VectorImm.Fits (number : Nat) : VectorImm → Prop
  | .memArg _ => number ≤ 11 ∨ 92 ≤ number ∧ number ≤ 93
  | .const _ => number = 12
  | .shuffle _ => number = 13
  | .lane _ => 21 ≤ number ∧ number ≤ 34
  | .memArgLane _ _ => 84 ≤ number ∧ number ≤ 91
  | .none =>
    14 ≤ number ∧ number ≤ 20 ∨ 35 ≤ number ∧ number ≤ 83 ∨ 94 ≤ number ∧ number ≤ 255

/-! ## Instructions -/

def Instr.encode : Instr → List UInt8
  | .unreachable => [0x00]
  | .nop => [0x01]
  | .block type _ => 0x02 :: type.encode
  | .loop type _ => 0x03 :: type.encode
  | .ifThen type _ _ => 0x04 :: type.encode
  | .elseArm _ => [0x05]
  | .endOf => [0x0b]
  | .br label => 0x0c :: label.encode
  | .brIf label => 0x0d :: label.encode
  | .brTable labels fallback =>
    0x0e :: (encodeVec Idx.encode labels ++ fallback.encode)
  | .ret => [0x0f]
  | .call func => 0x10 :: func.encode
  | .callIndirect type table => 0x11 :: (type.encode ++ table.encode)
  | .drop => [0x1a]
  | .select => [0x1b]
  | .selectTyped types => 0x1c :: encodeVec ValType.encode types
  | .localGet idx => 0x20 :: idx.encode
  | .localSet idx => 0x21 :: idx.encode
  | .localTee idx => 0x22 :: idx.encode
  | .globalGet idx => 0x23 :: idx.encode
  | .globalSet idx => 0x24 :: idx.encode
  | .tableGet table => 0x25 :: table.encode
  | .tableSet table => 0x26 :: table.encode
  | .load op arg => op.code :: arg.encode
  | .store op arg => op.code :: arg.encode
  | .memorySize mem => [0x3f, memByte mem]
  | .memoryGrow mem => [0x40, memByte mem]
  | .i32Const value => 0x41 :: ofInt value.toInt
  | .i64Const value => 0x42 :: ofInt value.toInt
  | .f32Const value => 0x43 :: Native.toBytes value
  | .f64Const value => 0x44 :: Native.toBytes value
  | .numeric op => op.encode
  | .refNull type => [0xd0, type.toByte]
  | .refIsNull => [0xd1]
  | .refFunc func => 0xd2 :: func.encode
  | .memoryInit segment mem => 0xfc :: 0x08 :: (segment.encode ++ [memByte mem])
  | .dataDrop segment => 0xfc :: 0x09 :: segment.encode
  | .memoryCopy dst src => [0xfc, 0x0a, memByte dst, memByte src]
  | .memoryFill mem => [0xfc, 0x0b, memByte mem]
  | .tableInit segment table => 0xfc :: 0x0c :: (segment.encode ++ table.encode)
  | .elemDrop segment => 0xfc :: 0x0d :: segment.encode
  | .tableCopy dst src => 0xfc :: 0x0e :: (dst.encode ++ src.encode)
  | .tableGrow table => 0xfc :: 0x0f :: table.encode
  | .tableSize table => 0xfc :: 0x10 :: table.encode
  | .tableFill table => 0xfc :: 0x11 :: table.encode
  | .vector number imm => 0xfd :: (ofNat number.toNat ++ imm.encode)

/-- The instructions that have a form. -/
def Instr.Encodable : Instr → Prop
  | .memorySize mem | .memoryGrow mem | .memoryFill mem | .memoryInit _ mem => mem.toNat < 256
  | .memoryCopy dst src => dst.toNat < 256 ∧ src.toNat < 256
  | .vector number imm => imm.Fits number.toNat
  | _ => True

/-! ## The tables -/

/-- The lists from which the table of opcodes is made leave nothing out, so that everything has an
opcode. -/
theorem IntCompare.mem_all (op : IntCompare) : op ∈ IntCompare.all := by
  cases op with
  | eq | ne => decide
  | lt sign | gt sign | le sign | ge sign => cases sign <;> decide

theorem IntUnary.mem_all (op : IntUnary) : op ∈ IntUnary.all := by
  cases op <;> decide

theorem IntBinary.mem_all (op : IntBinary) : op ∈ IntBinary.all := by
  cases op with
  | div sign | rem sign | shr sign => cases sign <;> decide
  | _ => decide

theorem FloatCompare.mem_all (op : FloatCompare) : op ∈ FloatCompare.all := by
  cases op <;> decide

theorem FloatUnary.mem_all (op : FloatUnary) : op ∈ FloatUnary.all := by
  cases op <;> decide

theorem FloatBinary.mem_all (op : FloatBinary) : op ∈ FloatBinary.all := by
  cases op <;> decide

theorem LoadOp.mem_table (op : LoadOp) : op ∈ LoadOp.table.toList := by
  cases op with
  | i32 | i64 | f32 | f64 => decide
  | i32From8 sign | i32From16 sign | i64From8 sign | i64From16 sign | i64From32 sign =>
    cases sign <;> decide

theorem StoreOp.mem_table (op : StoreOp) : op ∈ StoreOp.table.toList := by
  cases op <;> decide

/-- An operation that has an opcode of its own stands in the table. -/
theorem NumericOp.mem_table {op : NumericOp} (own : op.encode = [op.code]) :
    op ∈ NumericOp.table.toList := by
  cases op with
  | truncateSat => simp [NumericOp.encode] at own
  | wrap | demote | promote => simp [table]
  | eqz width | bitsOfFloat width | floatOfBits width => cases width <;> simp [table]
  | intCompare width op => cases width <;> simp [table, op.mem_all]
  | intUnary width op => cases width <;> simp [table, op.mem_all]
  | intBinary width op => cases width <;> simp [table, op.mem_all]
  | floatCompare width op => cases width <;> simp [table, op.mem_all]
  | floatUnary width op => cases width <;> simp [table, op.mem_all]
  | floatBinary width op => cases width <;> simp [table, op.mem_all]
  | extend sign => cases sign <;> simp [table]
  | truncate dest source sign | convert dest source sign =>
    cases dest <;> cases source <;> cases sign <;> simp [table]
  | signExtend kind => cases kind <;> simp [table]

/-- A table whose entries have consecutive opcodes. -/
def Consecutive {α : Type} (table : Array α) (first : Nat) (code : α → UInt8) : Prop :=
  table.toList.map code = (List.range table.size).map fun i => UInt8.ofNat (first + i)

theorem LoadOp.consecutive : Consecutive table firstOpcode code := rfl

theorem StoreOp.consecutive : Consecutive table firstOpcode code := rfl

/-- Opcodes count on from the first one of their table, in its order. -/
theorem NumericOp.consecutive : Consecutive table firstOpcode code := by
  unfold Consecutive
  decide +kernel

section Entries

variable {α : Type} {table : Array α} {first : Nat} {code : α → UInt8}

/-- A member of such a table has a place in it, which its opcode tells. -/
theorem Consecutive.code_of_mem (consecutive : Consecutive table first code)
    (bound : first + table.size ≤ 256) {a : α} (mem : a ∈ table.toList) :
    ∃ i, i < table.size ∧ table[i]? = some a ∧ (code a).toNat = first + i := by
  obtain ⟨i, inside, rfl⟩ := List.mem_iff_getElem.mp mem
  rw [Array.length_toList] at inside
  have codes := congrArg (·[i]?) consecutive
  simp only [List.getElem?_map, List.getElem?_range inside, Option.map_some] at codes
  rw [List.getElem?_eq_getElem (by rwa [Array.length_toList]), Option.map_some,
    Option.some_inj] at codes
  refine ⟨i, inside, by rw [Array.getElem?_eq_getElem inside, Array.getElem_toList], ?_⟩
  rw [codes, UInt8.toNat_ofNat']
  omega

/-- So it is found by its opcode. -/
theorem Consecutive.found (consecutive : Consecutive table first code)
    (bound : first + table.size ≤ 256) {a : α} (mem : a ∈ table.toList) :
    lookup? table first (code a) = some a := by
  obtain ⟨i, -, found, opcode⟩ := consecutive.code_of_mem bound mem
  rw [lookup?, opcode, if_pos (Nat.le_add_right first i), Nat.add_sub_cancel_left, found]

/-- Nothing is found behind a table. -/
theorem lookup?_eq_none {opcode : UInt8} (behind : first + table.size ≤ opcode.toNat) :
    lookup? table first opcode = none := by
  rw [lookup?, if_pos (by omega), Array.getElem?_eq_none (by omega)]

end Entries

end WasmMachine
