import WasmMachine.Numeric.Int
import WasmMachine.Numeric.Float

/-!
# Numeric instructions

What each numeric instruction makes of its operands.  Operands are read at the width that the
instruction says, by their low bits; results have a zero high half, and a result of 32 bits
has nothing above them.
-/

namespace WasmMachine

/-- The low bits of a value. -/
def Value.bits (v : Value) : (w : Width) → BitVec w.bits
  | .w32 => v.u32.toBitVec
  | .w64 => v.lo.toBitVec

/-- The value whose low bits are given, and that is zero above them. -/
def Value.ofBits : (w : Width) → BitVec w.bits → Value
  | .w32, x => .ofU32 (UInt32.ofBitVec x)
  | .w64, x => .ofU64 (UInt64.ofBitVec x)

/-- The low bits of a value as an integer of 64 bits. -/
def Value.extend (v : Value) (w : Width) : Sign → BitVec 64
  | .signed => (v.bits w).signExtend 64
  | .unsigned => (v.bits w).setWidth 64

/-- The width that a sign extension works at. -/
def SignExtension.width : SignExtension → Width
  | .i32From8 | .i32From16 => .w32
  | .i64From8 | .i64From16 | .i64From32 => .w64

/-- The number of low bits that a sign extension reads. -/
def SignExtension.source : SignExtension → Nat
  | .i32From8 | .i64From8 => 8
  | .i32From16 | .i64From16 => 16
  | .i64From32 => 32

/-- A function of one operand or of two. -/
inductive NumericFunc where
  | unary (f : Value → Except Trap Value)
  | binary (f : Value → Value → Except Trap Value)

/-- What an instruction computes. The second operand of two is the one on top of the stack. -/
def NumericOp.func : NumericOp → NumericFunc
  | .eqz w => .unary fun a => .ok (.ofBool (a.bits w == 0))
  | .intCompare w op => .binary fun a b => .ok (.ofBool (op.eval (a.bits w) (b.bits w)))
  | .intUnary w op => .unary fun a => .ok (.ofBits w (op.eval (a.bits w)))
  | .intBinary w op => .binary fun a b => .ofBits w <$> op.eval (a.bits w) (b.bits w)
  | .floatCompare w op =>
    .binary fun a b => .ok (.ofBool (FloatCompare.eval (w := w) (a.bits w) (b.bits w) op))
  | .floatUnary w op => .unary fun a => .ok (.ofBits w (FloatUnary.eval (w := w) (a.bits w) op))
  | .floatBinary w op =>
    .binary fun a b => .ok (.ofBits w (FloatBinary.eval (w := w) (a.bits w) (b.bits w) op))
  | .wrap => .unary fun a => .ok (.ofBits .w32 (a.bits .w32))
  | .extend sign => .unary fun a => .ok (.ofBits .w64 (a.extend .w32 sign))
  | .truncate dest source sign =>
    .unary fun a => .ofBits dest <$> FloatBits.truncate (w := source) dest.bits sign
      (a.bits source)
  | .truncateSat dest source sign =>
    .unary fun a =>
      .ok (.ofBits dest (FloatBits.truncateSat (w := source) dest.bits sign (a.bits source)))
  | .convert dest source sign =>
    .unary fun a => .ok (.ofBits dest (FloatBits.ofInt64 sign (a.extend source sign) dest))
  | .demote =>
    .unary fun a =>
      .ok (.ofBits .w32 (FloatBits.ofFloat32 (FloatBits.toFloat (a.bits .w64)).toFloat32))
  | .promote =>
    .unary fun a =>
      .ok (.ofBits .w64 (FloatBits.ofFloat (FloatBits.toFloat32 (a.bits .w32)).toFloat))
  | .bitsOfFloat w => .unary fun a => .ok (.ofBits w (a.bits w))
  | .floatOfBits w => .unary fun a => .ok (.ofBits w (a.bits w))
  | .signExtend kind =>
    .unary fun a =>
      .ok (.ofBits kind.width (((a.bits kind.width).setWidth kind.source).signExtend _))

/-! ## Loads -/

/-- The width of the number that a load gives. -/
def LoadOp.width : LoadOp → Width
  | .i32 | .f32 | .i32From8 _ | .i32From16 _ => .w32
  | .i64 | .f64 | .i64From8 _ | .i64From16 _ | .i64From32 _ => .w64

/-- How a load widens what it reads. -/
def LoadOp.sign : LoadOp → Sign
  | .i32 | .i64 | .f32 | .f64 => .unsigned
  | .i32From8 s | .i32From16 s | .i64From8 s | .i64From16 s | .i64From32 s => s

/-- The value that a load makes of the bytes that it reads. -/
def LoadOp.value (op : LoadOp) (bytes : List UInt8) : Value :=
  let word := ofLeBytes bytes
  match op.sign with
  | .unsigned => .ofU64 word
  | .signed => .ofBits op.width ((BitVec.ofNat (8 * op.size) word.toNat).signExtend _)

end WasmMachine
