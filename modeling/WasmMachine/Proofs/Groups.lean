import Mathlib.Algebra.Group.Int.Defs
import Mathlib.Algebra.Group.Nat.Defs
import Mathlib.Data.Nat.Bitwise
import WasmMachine.Binary.Leb128

/-!
# Words from groups of seven bits

A word that the groups of a number are put together to is the number that these spell, reduced to
the width of the word (`Leb128.word_eq`, `Leb128.signedWord_eq`), as long as the last group begins
within the word.  That is so for as many bytes as are allowed, so that the numbers are read as if
there were no words (`Decoder.u32_eq`, `Decoder.i32_eq`, `Decoder.i64_eq`).
-/

namespace WasmMachine

namespace Leb128

variable {w : Nat}

/-! ## Groups side by side -/

theorem toNat_group_bits (b : UInt8) : (b &&& 0x7f).toNat = b.toNat % 128 := by
  rw [UInt8.toNat_and]
  exact Nat.and_two_pow_sub_one_eq_mod b.toNat 7

theorem group_eq {place : Nat} (inside : place < w) (b : UInt8) :
    group w b place = .ofNat w (b.toNat % 128 * 2 ^ place) := by
  rw [group, Nat.mod_eq_of_lt inside, toNat_group_bits, ← Nat.shiftLeft_eq]
  apply BitVec.eq_of_toNat_eq
  rw [BitVec.toNat_shiftLeft, BitVec.toNat_ofNat, BitVec.toNat_ofNat, Nat.shiftLeft_eq,
    Nat.shiftLeft_eq, Nat.mod_mul_mod]

/-- A number that is put above another one is added to it. -/
theorem ofNat_or_above {n place : Nat} (low : n < 2 ^ place) (m : Nat) :
    BitVec.ofNat w n ||| BitVec.ofNat w (m * 2 ^ place) = .ofNat w (n + m * 2 ^ place) := by
  rw [← BitVec.ofNat_or, Nat.or_comm, Nat.mul_comm, ← Nat.two_pow_add_eq_or_of_lt low,
    Nat.add_comm]

/-- The groups of a number that is put above another one are added to that. -/
theorem gather_eq {bs : List UInt8} {n place : Nat} (low : n < 2 ^ place)
    (inside : place + 7 * (bs.length - 1) < w) :
    gather (.ofNat w n) place bs = .ofNat w (n + unsigned bs * 2 ^ place) := by
  induction bs generalizing n place with
  | nil => rw [gather, unsigned, Nat.zero_mul, Nat.add_zero]
  | cons b bs ih =>
    rw [List.length_cons, Nat.add_sub_cancel] at inside
    have group_lt := Nat.mod_lt b.toNat (show 0 < 128 by decide)
    rw [gather, group_eq (by omega), ofNat_or_above low]
    cases bs with
    | nil => rw [gather, unsigned, unsigned, Nat.mul_zero, Nat.add_zero]
    | cons c bs =>
      rw [List.length_cons] at inside
      have low' : n + b.toNat % 128 * 2 ^ place < 2 ^ (place + 7) := by
        rw [Nat.pow_add]
        have := Nat.mul_le_mul_right (2 ^ place) (Nat.le_of_lt_succ group_lt)
        omega
      have above : unsigned (c :: bs) * 2 ^ (place + 7) =
          128 * unsigned (c :: bs) * 2 ^ place := by
        rw [Nat.pow_add, Nat.mul_comm (2 ^ place), ← Nat.mul_assoc, Nat.mul_comm _ (2 ^ 7)]
      have spelled : unsigned (b :: c :: bs) = b.toNat % 128 + 128 * unsigned (c :: bs) := rfl
      rw [ih low' (by rw [List.length_cons]; omega), above, spelled, Nat.add_mul, Nat.add_assoc]

/-- A word is the number that its groups spell, reduced to its width. -/
theorem word_eq {bs : List UInt8} (inside : 7 * (bs.length - 1) < w) :
    word w bs = .ofNat w (unsigned bs) := by
  have gathered : gather (.ofNat w 0) 0 bs = .ofNat w (0 + unsigned bs * 2 ^ 0) :=
    gather_eq (by decide) (by omega)
  rwa [Nat.zero_add, Nat.pow_zero, Nat.mul_one] at gathered

/-! ## The sign -/

theorem unsigned_append (bs cs : List UInt8) :
    unsigned (bs ++ cs) = unsigned bs + 2 ^ (7 * bs.length) * unsigned cs := by
  induction bs with
  | nil =>
    rw [List.nil_append, unsigned, List.length_nil, Nat.mul_zero, Nat.pow_zero, Nat.one_mul,
      Nat.zero_add]
  | cons b bs ih =>
    rw [List.cons_append, unsigned, ih, unsigned, List.length_cons, Nat.mul_succ, Nat.pow_add,
      Nat.mul_add, Nat.add_assoc, Nat.mul_comm _ (2 ^ 7), Nat.mul_assoc]

/-- One bit of a byte. -/
theorem toNat_and_bit (b : UInt8) {mask : UInt8} {place : Nat} (bit : mask.toNat = 2 ^ place) :
    (b &&& mask).toNat = b.toNat / 2 ^ place % 2 * 2 ^ place := by
  rw [UInt8.toNat_and, bit, Nat.and_two_pow, Nat.toNat_testBit]

theorem sign_iff (last : UInt8) : last &&& 0x40 = 0x40 ↔ 64 ≤ last.toNat % 128 := by
  have here : (0x40 : UInt8).toNat = 2 ^ 6 := rfl
  rw [← UInt8.toNat_inj, toNat_and_bit last here, here]
  omega

/-- A number is negative if the sign of its last group is set. -/
theorem signed_eq (front : List UInt8) (last : UInt8) :
    signed (front ++ [last]) = if last &&& 0x40 = 0x40 then
      (unsigned (front ++ [last]) : Int) - (2 ^ (7 * (front.length + 1)) : Nat)
    else unsigned (front ++ [last]) := by
  have low := unsigned_lt front
  have all := unsigned_lt (front ++ [last])
  have value : unsigned (front ++ [last])
      = unsigned front + 2 ^ (7 * front.length) * (last.toNat % 128) := by
    rw [unsigned_append, unsigned, unsigned, Nat.mul_zero, Nat.add_zero]
  have size : 2 ^ (7 * (front.length + 1)) = 2 ^ (7 * front.length) * 128 := by
    rw [Nat.mul_succ, Nat.pow_add]
  rw [List.length_append, List.length_singleton, Nat.one_shiftLeft] at all
  rw [Nat.one_shiftLeft] at low
  rw [signed, List.length_append, List.length_singleton, Nat.one_shiftLeft, Int.bmod_def,
    Int.emod_eq_of_lt (Int.natCast_nonneg _) (Int.ofNat_lt.mpr all)]
  simp only [sign_iff]
  rw [size] at all ⊢
  by_cases negative : 64 ≤ last.toNat % 128
  · have large := Nat.mul_le_mul_left (2 ^ (7 * front.length)) negative
    rw [if_pos negative, if_neg (by omega)]
  · have small :=
      Nat.mul_le_mul_left (2 ^ (7 * front.length)) (Nat.le_of_lt_succ (Nat.not_le.mp negative))
    rw [if_neg negative, if_pos (by omega)]

/-- Numbers that differ by a multiple of what a word can hold are the same word. -/
theorem ofInt_eq_ofNat {i k : Int} {n : Nat} (same : (n : Int) = i + (2 ^ w : Nat) * k) :
    BitVec.ofInt w i = .ofNat w n := by
  have none : BitVec.ofNat w (2 ^ w) = 0#w := by
    apply BitVec.eq_of_toNat_eq
    rw [BitVec.toNat_ofNat, Nat.mod_self]
    rfl
  rw [← BitVec.ofInt_natCast, same, BitVec.ofInt_add, BitVec.ofInt_mul, BitVec.ofInt_natCast,
    none, BitVec.zero_mul, BitVec.add_zero]

theorem pred_mul_add {m : Nat} (positive : 0 < m) (n : Nat) : (m - 1) * n + n = m * n := by
  rw [← Nat.succ_mul, Nat.succ_eq_add_one, Nat.sub_add_cancel positive]

/-- Ones above a number are what it lacks to be a multiple of what a word can hold. -/
theorem ofNat_or_ones {n place : Nat} (low : n < 2 ^ place) (inside : place < w) :
    BitVec.ofNat w n ||| (BitVec.allOnes w <<< place) = .ofInt w (n - (2 ^ place : Nat)) := by
  have split : 2 ^ (w - place) * 2 ^ place = 2 ^ w := by
    rw [← Nat.pow_add, Nat.sub_add_cancel (Nat.le_of_lt inside)]
  have whole := pred_mul_add (Nat.two_pow_pos (w - place)) (2 ^ place)
  have ones : BitVec.allOnes w <<< place = .ofNat w ((2 ^ (w - place) - 1) * 2 ^ place) := by
    have all := pred_mul_add (Nat.two_pow_pos w) (2 ^ place)
    have most := pred_mul_add (Nat.two_pow_pos place) (2 ^ w)
    have shifted : (2 ^ w - 1) * 2 ^ place
        = (2 ^ place - 1) * 2 ^ w + (2 ^ (w - place) - 1) * 2 ^ place := by
      rw [Nat.mul_comm (2 ^ place)] at most
      omega
    apply BitVec.eq_of_toNat_eq
    rw [BitVec.toNat_shiftLeft, BitVec.toNat_allOnes, BitVec.toNat_ofNat, Nat.shiftLeft_eq,
      shifted, Nat.mul_add_mod']
  rw [ones, ofNat_or_above low]
  exact (ofInt_eq_ofNat (k := 1) (by omega)).symm

/-- A word with the sign of its last group is the number that its groups spell in two's
complement, reduced to its width. -/
theorem signedWord_eq {front : List UInt8} (last : UInt8) (inside : 7 * front.length < w) :
    signedWord w (front ++ [last]) = .ofInt w (signed (front ++ [last])) := by
  have all := unsigned_lt (front ++ [last])
  rw [List.length_append, List.length_singleton, Nat.one_shiftLeft] at all
  rw [signedWord, extendSign, word_eq (by simpa using inside), signed_eq, List.getLastD_concat,
    List.length_append, List.length_singleton]
  by_cases negative : last &&& 0x40 = 0x40
  · rw [if_pos negative]
    by_cases room : 7 * (front.length + 1) < w
    · rw [if_pos ⟨room, negative⟩, ofNat_or_ones all room]
    · -- the groups have more bits than the word
      have split : 2 ^ (7 * (front.length + 1)) = 2 ^ w * 2 ^ (7 * (front.length + 1) - w) := by
        rw [← Nat.pow_add, Nat.add_sub_cancel' (Nat.le_of_not_lt room)]
      rw [if_neg fun both => room both.1]
      exact (ofInt_eq_ofNat (k := (2 ^ (7 * (front.length + 1) - w) : Nat)) (by
        rw [split, Int.natCast_mul, Int.sub_add_cancel])).symm
  · rw [if_neg negative, if_neg fun both => negative both.2, BitVec.ofInt_natCast]

end Leb128

/-! ## Reading words -/

namespace Decoder

variable {α : Type}

/-- The bytes of a number, without and with its last one. -/
theorem exists_of_lebBytes {max : Nat} {s t : Input} {bs : List UInt8}
    (run : (lebBytes max).run s = .ok (bs, t)) :
    ∃ front last, bs = front ++ [last] ∧ front.length < max := by
  dsimp only [lebBytes] at run
  split at run
  · cases run
  · next last rest more =>
    split at run
    · cases run
    · next short =>
      cases run
      exact ⟨_, last, rfl, by omega⟩

/-- What is made of a number may be said in any way that comes to the same for as many bytes
as it may have. -/
theorem lebBytes_map_congr {max : Nat} {f g : List UInt8 → α}
    (same : ∀ front last, front.length < max → f (front ++ [last]) = g (front ++ [last])) :
    (do return f (← lebBytes max) : Decoder α) = do return g (← lebBytes max) := by
  refine Decoder.ext (funext fun s => ?_)
  rw [run_bind, run_bind]
  cases read : (lebBytes max).run s with
  | error e => rfl
  | ok p =>
    obtain ⟨front, last, bytes, short⟩ := exists_of_lebBytes read
    dsimp only
    rw [bytes, same front last short]

/-- A number of 32 bits is the one that its groups spell, reduced. -/
theorem u32_eq : u32 = do return UInt32.ofNat (Leb128.unsigned (← lebBytes 5)) :=
  lebBytes_map_congr fun front last short => by
    rw [Leb128.word_eq (by rw [List.length_append, List.length_singleton]; omega)]
    rfl

/-- A number of 32 bits with a sign is the one that its groups spell, reduced. -/
theorem i32_eq : i32 = do return Int32.ofInt (Leb128.signed (← lebBytes 5)) :=
  lebBytes_map_congr fun front last short => by
    rw [Leb128.signedWord_eq last (by omega)]
    rfl

/-- A number of 64 bits with a sign is the one that its groups spell, reduced. -/
theorem i64_eq : i64 = do return Int64.ofInt (Leb128.signed (← lebBytes 10)) :=
  lebBytes_map_congr fun front last short => by
    rw [Leb128.signedWord_eq last (by omega)]
    rfl

end Decoder

end WasmMachine
