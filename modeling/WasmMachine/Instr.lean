import WasmMachine.Value

/-!
# Instructions

The instructions of a flat code array.  Numeric instructions, loads and stores are grouped by
shape: an operation, the width it works at and, where two readings of the bits differ, the
signedness.  A structured control instruction carries positions in the code array that it
belongs to: `target` is where a branch to its label lands, and `elseTarget` is where a false
condition continues.
-/

namespace WasmMachine

/-- The two widths of integers and floats. -/
inductive Width where
  | w32
  | w64
  deriving DecidableEq, Repr, Inhabited

/-- The number of bits of a width. -/
@[simp] def Width.bits : Width → Nat
  | .w32 => 32
  | .w64 => 64

/-- How the bits of an integer are read. -/
inductive Sign where
  | signed
  | unsigned
  deriving DecidableEq, Repr, Inhabited

/-! ## Numeric operations -/

/-- Comparisons of two integers. -/
inductive IntCompare where
  | eq
  | ne
  | lt (sign : Sign)
  | gt (sign : Sign)
  | le (sign : Sign)
  | ge (sign : Sign)
  deriving DecidableEq, Repr, Inhabited

/-- Operations that count bits of one integer. -/
inductive IntUnary where
  | clz
  | ctz
  | popcnt
  deriving DecidableEq, Repr, Inhabited

/-- Operations on two integers. -/
inductive IntBinary where
  | add
  | sub
  | mul
  | div (sign : Sign)
  | rem (sign : Sign)
  | and
  | or
  | xor
  | shl
  | shr (sign : Sign)
  | rotl
  | rotr
  deriving DecidableEq, Repr, Inhabited

/-- Comparisons of two floats. -/
inductive FloatCompare where
  | eq
  | ne
  | lt
  | gt
  | le
  | ge
  deriving DecidableEq, Repr, Inhabited

/-- Operations on one float. -/
inductive FloatUnary where
  | abs
  | neg
  | ceil
  | floor
  | trunc
  | nearest
  | sqrt
  deriving DecidableEq, Repr, Inhabited

/-- Operations on two floats. -/
inductive FloatBinary where
  | add
  | sub
  | mul
  | div
  | min
  | max
  | copysign
  deriving DecidableEq, Repr, Inhabited

/-- In-place sign extensions: the width of the integer and that of its low part. -/
inductive SignExtension where
  | i32From8
  | i32From16
  | i64From8
  | i64From16
  | i64From32
  deriving DecidableEq, Repr, Inhabited

/-- Instructions that take all their operands from the stack and push one number. -/
inductive NumericOp where
  /-- Is an integer zero? -/
  | eqz (width : Width)
  | intCompare (width : Width) (op : IntCompare)
  | intUnary (width : Width) (op : IntUnary)
  | intBinary (width : Width) (op : IntBinary)
  | floatCompare (width : Width) (op : FloatCompare)
  | floatUnary (width : Width) (op : FloatUnary)
  | floatBinary (width : Width) (op : FloatBinary)
  /-- The low half of a 64-bit integer. -/
  | wrap
  /-- A 32-bit integer as a 64-bit one. -/
  | extend (sign : Sign)
  /-- A float rounded toward zero to an integer that has to hold it. -/
  | truncate (dest : Width) (source : Width) (sign : Sign)
  /-- A float rounded toward zero to the nearest integer that exists. -/
  | truncateSat (dest : Width) (source : Width) (sign : Sign)
  /-- An integer as the nearest float. -/
  | convert (dest : Width) (source : Width) (sign : Sign)
  /-- A double as the nearest single. -/
  | demote
  /-- A single as a double. -/
  | promote
  /-- The bits of a float as an integer. -/
  | bitsOfFloat (width : Width)
  /-- The bits of an integer as a float. -/
  | floatOfBits (width : Width)
  | signExtend (kind : SignExtension)
  deriving DecidableEq, Repr, Inhabited

/-! ## Memory operations -/

/-- What a load reads and how it widens it. -/
inductive LoadOp where
  | i32
  | i64
  | f32
  | f64
  | i32From8 (sign : Sign)
  | i32From16 (sign : Sign)
  | i64From8 (sign : Sign)
  | i64From16 (sign : Sign)
  | i64From32 (sign : Sign)
  deriving DecidableEq, Repr, Inhabited

/-- What a store takes and how much of it it writes. -/
inductive StoreOp where
  | i32
  | i64
  | f32
  | f64
  | i32To8
  | i32To16
  | i64To8
  | i64To16
  | i64To32
  deriving DecidableEq, Repr, Inhabited

/-- The number of bytes that a load reads. -/
def LoadOp.size : LoadOp → Nat
  | .i32From8 _ | .i64From8 _ => 1
  | .i32From16 _ | .i64From16 _ => 2
  | .i32 | .f32 | .i64From32 _ => 4
  | .i64 | .f64 => 8

/-- The number of bytes that a store writes. -/
def StoreOp.size : StoreOp → Nat
  | .i32To8 | .i64To8 => 1
  | .i32To16 | .i64To16 => 2
  | .i32 | .f32 | .i64To32 => 4
  | .i64 | .f64 => 8

/-- The immediate of a memory access: an alignment hint and an offset. Only memory zero can be
accessed, so there is no memory index. -/
structure MemArg where
  align : UInt32
  offset : UInt32
  deriving DecidableEq, Repr, Inhabited

/-- The immediate of a vector instruction. The sixteen bytes of a shuffle or of a constant are
held as one value. -/
inductive VectorImm where
  | none
  | memArg (arg : MemArg)
  | memArgLane (arg : MemArg) (lane : UInt8)
  | lane (lane : UInt8)
  | shuffle (lanes : Value)
  | const (value : Value)
  deriving DecidableEq, Repr, Inhabited

/-! ## Instructions -/

/-- An instruction of a flat code array. -/
inductive Instr where
  -- control
  | unreachable
  | nop
  | block (type : BlockType) (target : Nat)
  | loop (type : BlockType) (target : Nat)
  | ifThen (type : BlockType) (target elseTarget : Nat)
  | elseArm (target : Nat)
  | endOf
  | br (label : LabelIdx)
  | brIf (label : LabelIdx)
  | brTable (labels : List LabelIdx) (fallback : LabelIdx)
  | ret
  | call (func : FuncIdx)
  | callIndirect (type : TypeIdx) (table : TableIdx)
  -- references
  | refNull (type : RefType)
  | refIsNull
  | refFunc (func : FuncIdx)
  -- operands
  | drop
  | select
  | selectTyped (types : List ValType)
  -- variables
  | localGet (idx : LocalIdx)
  | localSet (idx : LocalIdx)
  | localTee (idx : LocalIdx)
  | globalGet (idx : GlobalIdx)
  | globalSet (idx : GlobalIdx)
  -- tables
  | tableGet (table : TableIdx)
  | tableSet (table : TableIdx)
  | tableInit (segment : ElemIdx) (table : TableIdx)
  | elemDrop (segment : ElemIdx)
  | tableCopy (dst src : TableIdx)
  | tableGrow (table : TableIdx)
  | tableSize (table : TableIdx)
  | tableFill (table : TableIdx)
  -- memories
  | load (op : LoadOp) (arg : MemArg)
  | store (op : StoreOp) (arg : MemArg)
  | memorySize (mem : MemIdx)
  | memoryGrow (mem : MemIdx)
  | memoryInit (segment : DataIdx) (mem : MemIdx)
  | dataDrop (segment : DataIdx)
  | memoryCopy (dst src : MemIdx)
  | memoryFill (mem : MemIdx)
  -- numbers
  | i32Const (value : Int32)
  | i64Const (value : Int64)
  | f32Const (value : F32)
  | f64Const (value : F64)
  | numeric (op : NumericOp)
  /-- A vector instruction, by its number in the vector group. -/
  | vector (op : UInt32) (imm : VectorImm)
  deriving DecidableEq, Repr, Inhabited

/-- A flat, self-contained code array. -/
abbrev Code := Array Instr

end WasmMachine
