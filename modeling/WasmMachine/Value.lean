import WasmMachine.Types
import WasmMachine.Word

/-!
# Values

A `Value` is one slot of an operand stack, a local, a global or a table: 128 bits that carry no
type.  The instruction or signature that reads a value decides how to read it.  A number lies in
the low half; a vector uses both halves; a reference keeps its address in the low half and a
marker in the high half, so that the zero value is the null reference.

`Native` is the class of types that have a fixed form both as a value and as bytes in linear
memory.  Floats are kept as bit patterns (`F32`, `F64`), so that no payload of a NaN is lost on
the way through.
-/

namespace WasmMachine

/-- A 128-bit slot. -/
structure Value where
  lo : UInt64
  hi : UInt64
  deriving DecidableEq, Repr, Inhabited, Hashable

namespace Value

/-- The zero value: every number's zero, and the null reference. -/
def null : Value := ⟨0, 0⟩

/-- The reference to the function at an address. -/
def funcRef (addr : Nat) : Value := ⟨UInt64.ofNat addr, 1⟩

/-- A value is null exactly if its high half is zero. -/
def isNull (v : Value) : Bool := v.hi == 0

/-- The function address of a reference. -/
def funcAddr? (v : Value) : Option Nat := if v.isNull then none else some v.lo.toNat

/-- The value as a number of 128 bits. -/
def toNat (v : Value) : Nat := v.hi.toNat * UInt64.size + v.lo.toNat

/-- The value that a number denotes, modulo 2^128. -/
def ofNat (n : Nat) : Value := ⟨UInt64.ofNat n, UInt64.ofNat (n / UInt64.size)⟩

/-- The low 32 bits. -/
def u32 (v : Value) : UInt32 := v.lo.toUInt32

/-- The value whose low half is a 32-bit word. -/
def ofU32 (w : UInt32) : Value := ⟨w.toUInt64, 0⟩

/-- The value whose low half is a signed 32-bit number. -/
def ofI32 (x : Int32) : Value := ofU32 x.toUInt32

/-- The value whose low half is a 64-bit word. -/
def ofU64 (w : UInt64) : Value := ⟨w, 0⟩

/-- One if a condition holds, and zero otherwise. -/
def ofBool (b : Bool) : Value := ⟨if b then 1 else 0, 0⟩

/-- The sixteen bytes of a value, least significant first. -/
def toBytes (v : Value) : List UInt8 := leBytes 8 v.lo ++ leBytes 8 v.hi

/-- The value spelled by sixteen bytes, least significant first. -/
def ofBytes (bs : List UInt8) : Value := ⟨ofLeBytes (bs.take 8), ofLeBytes (bs.drop 8)⟩

/-- Apply a bitwise operation to both halves. -/
def map₂ (f : UInt64 → UInt64 → UInt64) (a b : Value) : Value := ⟨f a.lo b.lo, f a.hi b.hi⟩

@[simp] theorem isNull_null : null.isNull = true := rfl

@[simp] theorem isNull_funcRef (addr : Nat) : (funcRef addr).isNull = false := rfl

@[simp] theorem funcAddr?_null : null.funcAddr? = none := rfl

@[simp] theorem funcAddr?_funcRef (addr : Nat) :
    (funcRef addr).funcAddr? = some (addr % UInt64.size) := by
  simp [funcRef, funcAddr?, isNull]

@[simp] theorem length_toBytes (v : Value) : v.toBytes.length = 16 := by
  simp [toBytes]

theorem toNat_lt (v : Value) : v.toNat < UInt64.size * UInt64.size := by
  have hlo := v.lo.toNat_lt
  have hhi := v.hi.toNat_lt
  simp only [toNat, UInt64.size] at *
  omega

@[simp] theorem ofNat_toNat (v : Value) : ofNat v.toNat = v := by
  have hlo := v.lo.toNat_lt
  have hdiv : v.toNat / UInt64.size = v.hi.toNat := by
    simp only [toNat, UInt64.size]
    omega
  have hmod : UInt64.ofNat v.toNat = v.lo := by
    apply UInt64.toNat_inj.mp
    rw [UInt64.toNat_ofNat', toNat, UInt64.size]
    omega
  rw [ofNat, hdiv, hmod, UInt64.ofNat_toNat]

/-- A value is the value that its bytes spell. -/
@[simp] theorem ofBytes_toBytes (v : Value) : ofBytes v.toBytes = v := by
  have htake : v.toBytes.take 8 = leBytes 8 v.lo := by
    rw [toBytes, List.take_append_of_le_length (by simp), List.take_of_length_le (by simp)]
  have hdrop : v.toBytes.drop 8 = leBytes 8 v.hi := by
    rw [toBytes, List.drop_append_of_le_length (by simp), List.drop_of_length_le (by simp),
      List.nil_append]
  rw [ofBytes, htake, hdrop, ofLeBytes_leBytes, ofLeBytes_leBytes]

@[simp] theorem u32_ofU32 (w : UInt32) : (ofU32 w).u32 = w := by
  simp [u32, ofU32]

@[simp] theorem ofI32_ofNat (n : Nat) : ofI32 (.ofNat n) = ofU32 (.ofNat n) := rfl

end Value

/-! ## Native types -/

/-- A single-precision float, as its bit pattern. -/
structure F32 where
  bits : UInt32
  deriving DecidableEq, Repr, Inhabited

/-- A double-precision float, as its bit pattern. -/
structure F64 where
  bits : UInt64
  deriving DecidableEq, Repr, Inhabited

/-- A type with a fixed form as a value and as bytes in linear memory. Each is a word of `size`
bytes, to which `ofWord` and `toWord` give and take away the type. -/
class Native (α : Type) where
  valType : ValType
  size : Nat
  ofWord : UInt64 → α
  toWord : α → UInt64
  ofWord_toWord : ∀ x, ofWord (toWord x) = x
  toWord_lt : ∀ x, (toWord x).toNat < 1 <<< (8 * size)

instance : Native UInt32 where
  valType := .i32
  size := 4
  ofWord := UInt64.toUInt32
  toWord := UInt32.toUInt64
  ofWord_toWord := UInt32.toUInt32_toUInt64
  toWord_lt := UInt32.toNat_lt

instance : Native Int32 where
  valType := .i32
  size := 4
  ofWord w := w.toUInt32.toInt32
  toWord x := x.toUInt32.toUInt64
  ofWord_toWord x := by rw [UInt32.toUInt32_toUInt64, Int32.toInt32_toUInt32]
  toWord_lt x := x.toUInt32.toNat_lt

instance : Native UInt64 where
  valType := .i64
  size := 8
  ofWord := id
  toWord := id
  ofWord_toWord _ := rfl
  toWord_lt := UInt64.toNat_lt

instance : Native Int64 where
  valType := .i64
  size := 8
  ofWord := UInt64.toInt64
  toWord := Int64.toUInt64
  ofWord_toWord := Int64.toInt64_toUInt64
  toWord_lt x := x.toUInt64.toNat_lt

instance : Native F32 where
  valType := .f32
  size := 4
  ofWord w := ⟨w.toUInt32⟩
  toWord x := x.bits.toUInt64
  ofWord_toWord x := by rw [UInt32.toUInt32_toUInt64]
  toWord_lt x := x.bits.toNat_lt

instance : Native F64 where
  valType := .f64
  size := 8
  ofWord := F64.mk
  toWord := F64.bits
  ofWord_toWord _ := rfl
  toWord_lt x := x.bits.toNat_lt

namespace Native

variable {α : Type} [Native α]

/-- Read a value at a native type. -/
def ofValue (v : Value) : α := ofWord v.lo

/-- The value of a native word; its high half is zero. -/
def toValue (x : α) : Value := ⟨toWord x, 0⟩

/-- The bytes of a native word in linear memory. -/
def toBytes (x : α) : List UInt8 := leBytes (size α) (toWord x)

/-- The native word that bytes in linear memory spell. -/
def ofBytes (bs : List UInt8) : α := ofWord (ofLeBytes bs)

@[simp] theorem ofValue_toValue (x : α) : ofValue (toValue x) = x := ofWord_toWord x

@[simp] theorem length_toBytes (x : α) : (toBytes x).length = size α := length_leBytes _ _

@[simp] theorem ofBytes_toBytes (x : α) : (ofBytes (toBytes x) : α) = x := by
  have hword : ofLeBytes (leBytes (size α) (toWord x)) = toWord x := by
    apply UInt64.toNat_inj.mp
    rw [toNat_ofLeBytes, leNat_leBytes, Nat.mod_eq_of_lt (toWord_lt x),
      Nat.mod_eq_of_lt (toWord x).toNat_lt]
  rw [ofBytes, toBytes, hword, ofWord_toWord]

end Native

end WasmMachine
