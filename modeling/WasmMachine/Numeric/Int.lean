import WasmMachine.Instr
import WasmMachine.Trap

/-!
# Integer operations

The integer instructions as functions on bit vectors of any width.  A comparison or a shift
takes the signedness from its operation; a shift cuts its count to 32 bits (`shiftCount`), and
shifts and rotations count modulo the width.
-/

namespace WasmMachine

variable {n : Nat}

/-- Whether a comparison holds. -/
def IntCompare.eval (a b : BitVec n) : IntCompare → Bool
  | .eq => a == b
  | .ne => a != b
  | .lt .signed => a.slt b
  | .lt .unsigned => a.ult b
  | .gt .signed => b.slt a
  | .gt .unsigned => b.ult a
  | .le .signed => a.sle b
  | .le .unsigned => a.ule b
  | .ge .signed => b.sle a
  | .ge .unsigned => b.ule a

/-- Leading zeros, trailing zeros (all bits, for zero), and ones. -/
def IntUnary.eval (a : BitVec n) : IntUnary → BitVec n
  | .clz => a.clz
  | .ctz => a.ctz
  | .popcnt => a.cpop

/-- How far a shift by an operand goes. -/
def shiftCount (b : BitVec n) : Nat := (b.setWidth 32).toNat % n

/-- Arithmetic is modulo 2^n. A signed quotient is rounded toward zero, and the remainder has the
sign of the dividend; only the quotient of the least integer by -1 does not exist. -/
def IntBinary.eval (a b : BitVec n) : IntBinary → Except Trap (BitVec n)
  | .add => .ok (a + b)
  | .sub => .ok (a - b)
  | .mul => .ok (a * b)
  | .div .signed =>
    if b = 0 then .error .divideByZero
    else if a = BitVec.intMin n ∧ b = -1 then .error .integerOverflow
    else .ok (a.sdiv b)
  | .div .unsigned => if b = 0 then .error .divideByZero else .ok (a.udiv b)
  | .rem .signed => if b = 0 then .error .divideByZero else .ok (a.srem b)
  | .rem .unsigned => if b = 0 then .error .divideByZero else .ok (a.umod b)
  | .and => .ok (a &&& b)
  | .or => .ok (a ||| b)
  | .xor => .ok (a ^^^ b)
  | .shl => .ok (a <<< shiftCount b)
  | .shr .signed => .ok (a.sshiftRight (shiftCount b))
  | .shr .unsigned => .ok (a >>> shiftCount b)
  | .rotl => .ok (a.rotateLeft (b.toNat % n))
  | .rotr => .ok (a.rotateRight (b.toNat % n))

end WasmMachine
