import Mathlib.Algebra.Group.Int.Defs
import Mathlib.Algebra.Group.Nat.Defs
import WasmMachine.Proofs.Groups
import WasmMachine.Proofs.Reads

/-!
# The shortest forms of numbers

`Leb128.ofNat` and `Leb128.ofInt` spell a number with as few groups of seven bits as it needs, and
`Leb128.spell` with any given number of them.  What they spell is read back, and a number of 32 or
64 bits needs no more than the 5 or 10 bytes that are allowed for it.
-/

namespace WasmMachine

namespace Leb128

/-- The groups of a number, with none to spare. -/
def ofNat (n : Nat) : List UInt8 :=
  if n < 128 then [UInt8.ofNat n] else UInt8.ofNat (n % 128 + 128) :: ofNat (n / 128)

/-- The groups of a number in two's complement: it takes as many as leave room for its sign. -/
def ofInt (i : Int) : List UInt8 :=
  if -64 ≤ i ∧ i < 64 then [UInt8.ofNat (i % 128).toNat]
  else UInt8.ofNat ((i % 128).toNat + 128) :: ofInt (i / 128)
termination_by i.natAbs

/-! ## The end of a number -/

/-- Only the last byte says that no other one follows. -/
def Ends (bs : List UInt8) : Prop :=
  ∃ front last, bs = front ++ [last] ∧ (∀ b ∈ front, continues b = true) ∧ continues last = false

theorem Ends.single {n : Nat} (small : n < 128) : Ends [UInt8.ofNat n] := by
  refine ⟨[], UInt8.ofNat n, rfl, fun b mem => absurd mem List.not_mem_nil, ?_⟩
  rw [continues, decide_eq_false_iff_not, ge_iff_le, UInt8.le_iff_toNat_le, UInt8.toNat_ofNat']
  have bound : (128 : UInt8).toNat = 128 := rfl
  omega

theorem Ends.cons {n : Nat} {bs : List UInt8} (small : n < 128) (ends : Ends bs) :
    Ends (UInt8.ofNat (n + 128) :: bs) := by
  obtain ⟨front, last, rfl, more, done⟩ := ends
  have first : continues (UInt8.ofNat (n + 128)) = true := by
    rw [continues, decide_eq_true_iff, ge_iff_le, UInt8.le_iff_toNat_le, UInt8.toNat_ofNat']
    have bound : (128 : UInt8).toNat = 128 := rfl
    omega
  refine ⟨UInt8.ofNat (n + 128) :: front, last, rfl, fun b mem => ?_, done⟩
  rcases List.mem_cons.mp mem with rfl | mem
  · exact first
  · exact more b mem

theorem Ends.ne_nil {bs : List UInt8} (ends : Ends bs) : bs ≠ [] := by
  obtain ⟨front, last, rfl, -⟩ := ends
  simp

theorem Ends.length_pos {bs : List UInt8} (ends : Ends bs) : 0 < bs.length :=
  List.length_pos_iff.mpr ends.ne_nil

/-! ## A given number of groups -/

/-- The lowest groups of a number in two's complement: the last one, and so many before it. -/
def spell : Nat → Int → List UInt8
  | 0, i => [UInt8.ofNat (i % 128).toNat]
  | more + 1, i => UInt8.ofNat ((i % 128).toNat + 128) :: spell more (i / 128)

theorem toNat_group_lt (i : Int) : (i % 128).toNat < 128 := by omega

theorem length_spell (more : Nat) (i : Int) : (spell more i).length = more + 1 := by
  induction more generalizing i with
  | zero => rfl
  | succ more ih => rw [spell, List.length_cons, ih]

/-- A spelling ends with its last group. -/
theorem spell_ends (more : Nat) (i : Int) : Ends (spell more i) := by
  induction more generalizing i with
  | zero => exact .single (toNat_group_lt i)
  | succ more ih => exact .cons (toNat_group_lt i) (ih (i / 128))

/-- Groups spell a number up to what they have no room for. -/
theorem unsigned_spell (more : Nat) (i : Int) :
    (unsigned (spell more i) : Int) = i % 128 ^ (more + 1) := by
  induction more generalizing i with
  | zero =>
    rw [spell, unsigned, unsigned, UInt8.toNat_ofNat', Int.pow_succ, Int.pow_zero]
    omega
  | succ more ih =>
    have group : ((UInt8.ofNat ((i % 128).toNat + 128)).toNat % 128 : Nat) = i % 128 := by
      rw [UInt8.toNat_ofNat']
      omega
    have positive : (0 : Int) < 128 ^ (more + 1) := Int.pow_pos (by decide)
    have low := Int.emod_nonneg (i / 128) (Int.ne_of_gt positive)
    have high := Int.emod_lt_of_pos (i / 128) positive
    have split := Int.emod_add_mul_ediv (i / 128) (128 ^ (more + 1))
    rw [spell, unsigned, Int.pow_succ, Int.natCast_add, group, Int.natCast_mul, ih]
    generalize (128 : Int) ^ (more + 1) = size at *
    refine ((Int.ediv_emod_unique (q := i / 128 / size) (by omega)).mpr
      ⟨?_, by omega, by omega⟩).2.symm
    rw [Int.mul_right_comm]
    omega

/-! ## Numbers without a sign -/

/-- The shortest form of a number is the one with as many groups. -/
theorem ofNat_eq_spell (n : Nat) : ∃ more, ofNat n = spell more n := by
  have group (n : Nat) : ((n : Int) % 128).toNat = n % 128 := by omega
  fun_induction ofNat n with
  | case1 n small => exact ⟨0, by rw [spell, group, Nat.mod_eq_of_lt small]⟩
  | case2 n _ ih =>
    obtain ⟨more, shortest⟩ := ih
    exact ⟨more + 1, by rw [shortest, spell, group, Int.natCast_ediv]; rfl⟩

theorem ofNat_ends (n : Nat) : Ends (ofNat n) := by
  obtain ⟨more, shortest⟩ := ofNat_eq_spell n
  rw [shortest]
  exact spell_ends more n

/-- A number is read from the groups that it is written in. -/
theorem unsigned_ofNat (n : Nat) : unsigned (ofNat n) = n := by
  fun_induction ofNat n with
  | case1 n small =>
    rw [unsigned, unsigned, UInt8.toNat_ofNat']
    omega
  | case2 n _ ih =>
    rw [unsigned, ih, UInt8.toNat_ofNat']
    omega

/-- The shortest spelling of a number has a group for each seven bits that it takes. -/
theorem length_ofNat_le {n k : Nat} (fits : n < 128 ^ (k + 1)) : (ofNat n).length ≤ k + 1 := by
  induction k generalizing n with
  | zero =>
    rw [Nat.zero_add, Nat.pow_one] at fits
    rw [ofNat, if_pos fits]
    exact Nat.le_refl 1
  | succ k ih =>
    rw [ofNat]
    split
    · exact Nat.le_add_left 1 (k + 1)
    · rw [Nat.pow_succ, Nat.mul_comm] at fits
      exact Nat.succ_le_succ (ih (Nat.div_lt_of_lt_mul fits))

/-! ## Numbers with a sign -/

/-- The shortest form of a number is the one with as many groups. -/
theorem ofInt_eq_spell (i : Int) : ∃ more, ofInt i = spell more i := by
  fun_induction ofInt i with
  | case1 i _ => exact ⟨0, rfl⟩
  | case2 i _ ih =>
    obtain ⟨more, shortest⟩ := ih
    exact ⟨more + 1, by rw [shortest, spell]⟩

theorem ofInt_ends (i : Int) : Ends (ofInt i) := by
  obtain ⟨more, shortest⟩ := ofInt_eq_spell i
  rw [shortest]
  exact spell_ends more i

/-- A number in two's complement needs the groups that leave room for its sign. -/
theorem bounds_of_length_ofInt {i : Int} {k : Nat} (length : (ofInt i).length = k + 1) :
    -(64 * 128 ^ k) ≤ i ∧ i < 64 * 128 ^ k := by
  induction k generalizing i with
  | zero =>
    rw [ofInt] at length
    split at length
    · next small => simpa using small
    · have more := (ofInt_ends (i / 128)).length_pos
      rw [List.length_cons] at length
      omega
  | succ k ih =>
    rw [ofInt] at length
    split at length
    · cases length
    · have ⟨low, high⟩ := ih (Nat.succ_inj.mp length)
      rw [Int.pow_succ]
      omega

theorem length_ofInt_le {i : Int} {k : Nat} (low : -(64 * 128 ^ k) ≤ i)
    (high : i < 64 * 128 ^ k) :
    (ofInt i).length ≤ k + 1 := by
  induction k generalizing i with
  | zero =>
    rw [Int.pow_zero, Int.mul_one] at low high
    rw [ofInt, if_pos ⟨low, high⟩]
    exact Nat.le_refl 1
  | succ k ih =>
    rw [Int.pow_succ] at low high
    rw [ofInt]
    split
    · exact Nat.le_add_left 1 (k + 1)
    · exact Nat.succ_le_succ (ih (by omega) (by omega))

/-- Groups that leave room for the sign of a number spell it. -/
theorem signed_spell {more : Nat} {i : Int} (low : -(64 * 128 ^ more) ≤ i)
    (high : i < 64 * 128 ^ more) :
    signed (spell more i) = i := by
  have size : 1 <<< (7 * (more + 1)) = 128 ^ (more + 1) := by
    rw [Nat.one_shiftLeft, Nat.pow_mul]
  have cast : ((128 ^ (more + 1) : Nat) : Int) = 128 ^ (more + 1) := by simp
  rw [signed, length_spell, size, unsigned_spell, ← cast, Int.emod_bmod]
  rw [Int.pow_succ] at cast
  exact Int.bmod_eq_of_le (by omega) (by omega)

/-- The same for a number with a sign. -/
theorem signed_ofInt (i : Int) : signed (ofInt i) = i := by
  obtain ⟨more, shortest⟩ := ofInt_eq_spell i
  have length : (ofInt i).length = more + 1 := by rw [shortest, length_spell]
  have ⟨low, high⟩ := bounds_of_length_ofInt length
  rw [shortest, signed_spell low high]

end Leb128

namespace Decoder.Reads

open Leb128 (ofNat ofInt)

variable {α : Type}

/-- The bytes of a number end by themselves, so that nothing behind them is read. -/
theorem lebBytes {max : Nat} {bs : List UInt8} (ends : Leb128.Ends bs) (fits : bs.length ≤ max) :
    (Decoder.lebBytes max).Reads bs bs := by
  obtain ⟨front, last, rfl, more, done⟩ := ends
  intro _ pos rest
  have input : front ++ [last] ++ rest = front ++ last :: rest := by
    rw [List.append_assoc, List.singleton_append]
  have head : (front ++ last :: rest).takeWhile Leb128.continues = front := by
    rw [List.takeWhile_append_of_pos more, List.takeWhile_cons_of_neg (by simp [done]),
      List.append_nil]
  have tail : (front ++ last :: rest).dropWhile Leb128.continues = last :: rest := by
    rw [List.dropWhile_append_of_pos more, List.dropWhile_cons_of_neg (by simp [done])]
  rw [List.length_append, List.length_singleton] at fits ⊢
  simp only [Decoder.lebBytes, input, head, tail]
  rw [if_neg (by omega), Nat.add_assoc]

theorem size {n : Nat} (small : n < UInt32.size) :
    Decoder.u32.Reads (ofNat n) (UInt32.ofNat n) := by
  have fits : n < 128 ^ (4 + 1) := Nat.lt_trans small (by decide)
  have reads := (lebBytes (Leb128.ofNat_ends n) (Leb128.length_ofNat_le fits)).map
    (f := fun bs => UInt32.ofNat (Leb128.unsigned bs))
  rwa [Leb128.unsigned_ofNat, ← Decoder.u32_eq] at reads

/-- Every word is read from the shortest spelling of its number. -/
theorem u32 (n : UInt32) : Decoder.u32.Reads (ofNat n.toNat) n := by
  have reads := size n.toNat_lt
  rwa [UInt32.ofNat_toNat] at reads

theorem idx {space : IndexSpace} (i : Idx space) : Decoder.idx.Reads (ofNat i.toNat) i :=
  (u32 i.val).map

theorem i32 (n : Int32) : Decoder.i32.Reads (ofInt n.toInt) n := by
  have low := n.le_toInt
  have high := n.toInt_lt
  have fits : (ofInt n.toInt).length ≤ 4 + 1 := Leb128.length_ofInt_le (by omega) (by omega)
  have reads := (lebBytes (Leb128.ofInt_ends n.toInt) fits).map
    (f := fun bs => Int32.ofInt (Leb128.signed bs))
  rwa [Leb128.signed_ofInt, Int32.ofInt_toInt, ← Decoder.i32_eq] at reads

theorem i64 (n : Int64) : Decoder.i64.Reads (ofInt n.toInt) n := by
  have low := n.le_toInt
  have high := n.toInt_lt
  have fits : (ofInt n.toInt).length ≤ 9 + 1 := Leb128.length_ofInt_le (by omega) (by omega)
  have reads := (lebBytes (Leb128.ofInt_ends n.toInt) fits).map
    (f := fun bs => Int64.ofInt (Leb128.signed bs))
  rwa [Leb128.signed_ofInt, Int64.ofInt_toInt, ← Decoder.i64_eq] at reads

end Decoder.Reads

end WasmMachine
