import WasmMachine.Instr
import WasmMachine.Trap

/-!
# Float operations

A float is its bit pattern: a sign, an exponent field and a fraction field.  What can be said
of the pattern alone is computed on it: signs, comparisons, extrema, rounding to an integer
and conversion to one.  So the bits of a NaN pass through exactly as each operation says.
Arithmetic proper rounds to the nearest float, ties to even, as `Float32` and `Float` do; the
payload of a NaN that it makes is unspecified.
-/

namespace WasmMachine

/-- The number of fraction bits of a float format. -/
@[simp] def Width.fracBits : Width → Nat
  | .w32 => 23
  | .w64 => 52

/-- The exponent field of a float in `[1, 2)`. -/
@[simp] def Width.bias : Width → Nat
  | .w32 => 127
  | .w64 => 1023

/-- A float of a given width, as its bits. -/
abbrev FloatBits (w : Width) := BitVec w.bits

namespace FloatBits

variable {w : Width}

/-- The number of which only the sign bit is set. -/
def signBit (w : Width) : Nat := 1 <<< (w.bits - 1)

/-- The bits of positive infinity. -/
def infinity (w : Width) : Nat := (2 * w.bias + 1) <<< w.fracBits

/-- The first fraction bit, which tells a quiet NaN. -/
def quietBit (w : Width) : Nat := 1 <<< (w.fracBits - 1)

/-- The NaN that an operation gives which does not pass one on. -/
def nan (w : Width) : FloatBits w := BitVec.ofNat _ (infinity w ||| quietBit w)

/-- Whether the sign bit is set. -/
def isNegative (x : FloatBits w) : Bool := x.msb

/-- All bits but the sign, as a number. -/
def magnitude (x : FloatBits w) : Nat := x.toNat % signBit w

/-- A NaN lies beyond infinity. -/
def isNaN (x : FloatBits w) : Bool := infinity w < x.magnitude

/-- The float with a given magnitude and the sign of another. -/
def withSign (x : FloatBits w) (mag : Nat) : FloatBits w :=
  BitVec.ofNat _ (if x.isNegative then signBit w + mag else mag)

/-- A number that orders floats other than NaN, and is zero for both zeros. -/
def key (x : FloatBits w) : Int := if x.isNegative then -x.magnitude else x.magnitude

/-! ## Signs -/

/-- Clear the sign bit. -/
def abs (x : FloatBits w) : FloatBits w := BitVec.ofNat _ x.magnitude

/-- Flip the sign bit. -/
def neg (x : FloatBits w) : FloatBits w := x ^^^ BitVec.ofNat _ (signBit w)

/-- The magnitude of the first with the sign of the second. -/
def copysign (x y : FloatBits w) : FloatBits w := y.withSign x.magnitude

/-! ## Comparisons and extrema -/

/-- Whether the first is less; false with a NaN. -/
def lt (x y : FloatBits w) : Bool := !x.isNaN && !y.isNaN && x.key < y.key

/-- Whether the first is at most the second; false with a NaN. -/
def le (x y : FloatBits w) : Bool := !x.isNaN && !y.isNaN && x.key ≤ y.key

/-- Whether both are the same number; false with a NaN. -/
def eq (x y : FloatBits w) : Bool := !x.isNaN && !y.isNaN && x.key == y.key

/-- The lesser operand: a NaN wins, and of two zeros a negative one. -/
def min (x y : FloatBits w) : FloatBits w :=
  if x.isNaN || y.isNaN then nan w
  else if x.key == y.key then (if x.isNegative then x else y)
  else if x.key < y.key then x else y

/-- The greater operand: a NaN wins, and of two zeros a positive one. -/
def max (x y : FloatBits w) : FloatBits w :=
  if x.isNaN || y.isNaN then nan w
  else if x.key == y.key then (if x.isNegative then y else x)
  else if x.key < y.key then y else x

/-! ## Rounding to an integer -/

/-- Which of the two neighbouring integers a float is rounded to. -/
inductive Rounding where
  | towardZero
  | down
  | up
  | nearestEven
  deriving DecidableEq, Repr

/-- Whether to round a magnitude away from zero: how it compares with the middle between its
neighbours, and whether the one toward zero is odd. -/
def Rounding.awayFromZero (mode : Rounding) (negative : Bool) (middle : Ordering) (odd : Bool) :
    Bool :=
  match mode with
  | .towardZero => false
  | .down => negative
  | .up => !negative
  | .nearestEven =>
    match middle with
    | .lt => false
    | .eq => odd
    | .gt => true

/-- Round to an integer, keeping the sign. With `k` the number of fraction bits that stand for a
part less than one, the neighbours of a magnitude are the multiples of 2^k around it; below one
they are zero and one. A NaN comes out quiet. -/
def round (mode : Rounding) (x : FloatBits w) : FloatBits w :=
  let mag := x.magnitude
  let field := mag >>> w.fracBits
  if x.isNaN then x ||| BitVec.ofNat _ (quietBit w)
  else if w.bias + w.fracBits ≤ field then x
  else if mag = 0 then x
  else if field < w.bias then
    let middle := compare mag ((w.bias - 1) <<< w.fracBits)
    x.withSign (if mode.awayFromZero x.isNegative middle false then w.bias <<< w.fracBits else 0)
  else
    let k := w.fracBits - (field - w.bias)
    let floor := mag >>> k
    let part := mag % (1 <<< k)
    if part = 0 then x
    else
      let middle := compare part (1 <<< (k - 1))
      let away := mode.awayFromZero x.isNegative middle (floor % 2 == 1)
      x.withSign ((if away then floor + 1 else floor) <<< k)

/-! ## Conversion to an integer -/

/-- The integer part of a float other than NaN; that of an infinity lies beyond every integer
type. -/
def toInt (x : FloatBits w) : Int :=
  let mag := x.magnitude
  let field := mag >>> w.fracBits
  let significand := (1 <<< w.fracBits) + mag % (1 <<< w.fracBits)
  let n :=
    if field < w.bias then 0
    else if field - w.bias < w.fracBits then significand >>> (w.fracBits - (field - w.bias))
    else significand <<< (field - w.bias - w.fracBits)
  if x.isNegative then -n else n

/-- The least integer of a type. -/
def leastInt (n : Nat) : Sign → Int
  | .signed => (BitVec.intMin n).toInt
  | .unsigned => 0

/-- The greatest integer of a type. -/
def greatestInt (n : Nat) : Sign → Int
  | .signed => (BitVec.intMax n).toInt
  | .unsigned => (BitVec.allOnes n).toNat

/-- The integer part, if it has the integer type. -/
def truncate (n : Nat) (sign : Sign) (x : FloatBits w) : Except Trap (BitVec n) :=
  if x.isNaN then .error .invalidConversion
  else if leastInt n sign ≤ x.toInt ∧ x.toInt ≤ greatestInt n sign then
    .ok (BitVec.ofInt n x.toInt)
  else .error .integerOverflow

/-- The integer of the type that is nearest to the integer part; zero for a NaN. -/
def truncateSat (n : Nat) (sign : Sign) (x : FloatBits w) : BitVec n :=
  if x.isNaN then 0
  else if x.toInt < leastInt n sign then BitVec.ofInt n (leastInt n sign)
  else if greatestInt n sign < x.toInt then BitVec.ofInt n (greatestInt n sign)
  else BitVec.ofInt n x.toInt

/-! ## Rounded arithmetic -/

/-- A single as a number. -/
def toFloat32 (x : FloatBits .w32) : Float32 := Float32.ofBits (UInt32.ofBitVec x)

/-- The bits of a single. -/
def ofFloat32 (x : Float32) : FloatBits .w32 := x.toBits.toBitVec

/-- A double as a number. -/
def toFloat (x : FloatBits .w64) : Float := Float.ofBits (UInt64.ofBitVec x)

/-- The bits of a double. -/
def ofFloat (x : Float) : FloatBits .w64 := x.toBits.toBitVec

/-- Apply an operation on one number. -/
def lift₁ (single : Float32 → Float32) (double : Float → Float) :
    {w : Width} → FloatBits w → FloatBits w
  | .w32, x => ofFloat32 (single (toFloat32 x))
  | .w64, x => ofFloat (double (toFloat x))

/-- Apply an operation on two numbers. -/
def lift₂ (single : Float32 → Float32 → Float32) (double : Float → Float → Float) :
    {w : Width} → FloatBits w → FloatBits w → FloatBits w
  | .w32, x, y => ofFloat32 (single (toFloat32 x) (toFloat32 y))
  | .w64, x, y => ofFloat (double (toFloat x) (toFloat y))

/-- The float nearest to an integer, given by its low 64 bits. -/
def ofInt64 (sign : Sign) (x : BitVec 64) : (w : Width) → FloatBits w
  | .w32 => ofFloat32 <| match sign with
    | .signed => (Int64.ofBitVec x).toFloat32
    | .unsigned => (UInt64.ofBitVec x).toFloat32
  | .w64 => ofFloat <| match sign with
    | .signed => (Int64.ofBitVec x).toFloat
    | .unsigned => (UInt64.ofBitVec x).toFloat

end FloatBits

/-! ## Operations -/

/-- Whether a comparison holds; with a NaN only `ne` does. -/
def FloatCompare.eval {w : Width} (x y : FloatBits w) : FloatCompare → Bool
  | .eq => x.eq y
  | .ne => !x.eq y
  | .lt => x.lt y
  | .gt => y.lt x
  | .le => x.le y
  | .ge => y.le x

/-- The result of an operation on one float. -/
def FloatUnary.eval {w : Width} (x : FloatBits w) : FloatUnary → FloatBits w
  | .abs => x.abs
  | .neg => x.neg
  | .ceil => x.round .up
  | .floor => x.round .down
  | .trunc => x.round .towardZero
  | .nearest => x.round .nearestEven
  | .sqrt => x.lift₁ Float32.sqrt Float.sqrt

/-- The result of an operation on two floats. -/
def FloatBinary.eval {w : Width} (x y : FloatBits w) : FloatBinary → FloatBits w
  | .add => x.lift₂ (· + ·) (· + ·) y
  | .sub => x.lift₂ (· - ·) (· - ·) y
  | .mul => x.lift₂ (· * ·) (· * ·) y
  | .div => x.lift₂ (· / ·) (· / ·) y
  | .min => x.min y
  | .max => x.max y
  | .copysign => x.copysign y

end WasmMachine
