/-!
# Little-endian bytes of words

A word of up to eight bytes is written least significant byte first, by `leBytes`, and read back
by `ofLeBytes`.  Both recurse on the bytes, so that each says what one byte contributes.
`leNat` is the positional value of a byte string: `toNat_ofLeBytes` and `leNat_leBytes` state the
two functions through it, and `ofLeBytes_leBytes` is the round trip.
-/

namespace WasmMachine

/-- The low `n` bytes of a word, least significant first. -/
def leBytes : Nat → UInt64 → List UInt8
  | 0, _ => []
  | n + 1, w => w.toUInt8 :: leBytes n (w >>> 8)

/-- The word that a byte string spells, least significant byte first. -/
def ofLeBytes : List UInt8 → UInt64
  | [] => 0
  | b :: bs => b.toUInt64 ||| (ofLeBytes bs <<< 8)

/-- The value of a byte string of digits to the base 256. -/
def leNat : List UInt8 → Nat
  | [] => 0
  | b :: bs => b.toNat + 256 * leNat bs

@[simp] theorem length_leBytes (n : Nat) (w : UInt64) : (leBytes n w).length = n := by
  induction n generalizing w with
  | zero => rfl
  | succ n ih => simp [leBytes, ih]

theorem leNat_lt (bs : List UInt8) : leNat bs < 1 <<< (8 * bs.length) := by
  induction bs with
  | nil => decide
  | cons b bs ih =>
    have hb := b.toNat_lt
    rw [Nat.one_shiftLeft] at ih ⊢
    rw [leNat, List.length_cons, Nat.mul_succ, Nat.pow_add]
    omega

/-- As many digits spell no number twice. -/
theorem leNat_injective {bs cs : List UInt8} (length : bs.length = cs.length)
    (same : leNat bs = leNat cs) : bs = cs := by
  induction bs generalizing cs with
  | nil => exact (List.length_eq_zero_iff.mp length.symm).symm
  | cons b bs ih =>
    cases cs with
    | nil => cases length
    | cons c cs =>
      have hb := b.toNat_lt
      have hc := c.toNat_lt
      rw [leNat, leNat] at same
      have first : b = c := UInt8.toNat_inj.mp (by omega)
      rw [first, ih (Nat.succ.inj length) (by omega)]

/-- A word keeps the low 64 bits of the number that its bytes spell. -/
theorem toNat_ofLeBytes (bs : List UInt8) : (ofLeBytes bs).toNat = leNat bs % UInt64.size := by
  induction bs with
  | nil => rfl
  | cons b bs ih =>
    have hb := b.toNat_lt
    have hshift : leNat bs % UInt64.size * 256 % UInt64.size
        = 256 * (leNat bs % 72057594037927936) := by
      simp only [UInt64.size]
      omega
    rw [ofLeBytes, UInt64.toNat_or, UInt64.toNat_shiftLeft, ih, Nat.shiftLeft_eq, Nat.or_comm]
    change leNat bs % UInt64.size * 256 % UInt64.size ||| b.toNat = _
    rw [hshift, ← Nat.two_pow_add_eq_or_of_lt (i := 8) hb]
    simp only [leNat, UInt64.size]
    omega

/-- The bytes of a word spell the part of it that they hold. -/
theorem leNat_leBytes (n : Nat) (w : UInt64) :
    leNat (leBytes n w) = w.toNat % (1 <<< (8 * n)) := by
  induction n generalizing w with
  | zero => simp [leBytes, leNat, Nat.mod_one]
  | succ n ih =>
    have hw : (w >>> 8).toNat = w.toNat / 256 := by
      rw [UInt64.toNat_shiftRight, Nat.shiftRight_eq_div_pow]
      rfl
    rw [Nat.one_shiftLeft] at ih ⊢
    rw [leBytes, leNat, ih, hw, UInt64.toNat_toUInt8, Nat.mul_succ, Nat.add_comm (8 * n),
      Nat.pow_add, Nat.mod_mul]

theorem ofLeBytes_leBytes (w : UInt64) : ofLeBytes (leBytes 8 w) = w := by
  have hw := w.toNat_lt
  apply UInt64.toNat_inj.mp
  rw [toNat_ofLeBytes, leNat_leBytes, Nat.one_shiftLeft]
  simp only [UInt64.size]
  omega

end WasmMachine
