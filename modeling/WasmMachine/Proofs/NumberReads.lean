import Mathlib.Algebra.Group.Int.Defs
import Mathlib.Algebra.Group.Nat.Defs
import Mathlib.Data.List.TakeWhile
import WasmMachine.Proofs.Spellings

/-!
# Numbers at the front of any bytes

What a number comes to is settled by its last byte, the first one whose top bit is clear
(`Leb128.last?`): there may be none, it may stand too far back, or the number is the sum of the
groups up to it, each at its place (`Decoder.lebBytes_run`, `Leb128.unsigned_eq_sum`).  All bytes
that can stand in front of it are covered, so a value is read from as few groups as have room for
it and from any more of them (`Decoder.ReadsNumbers`).  A block type is what the number that is
read for it stands for, if it stands for one (`Decoder.ReadsBlockTypes`).
-/

namespace WasmMachine

namespace Leb128

/-- The place of the last byte of the number that some bytes begin with. -/
def last? (bs : List UInt8) : Option Nat := bs.findIdx? fun b => b &&& 0x80 == 0

/-- The groups of some bytes, each at its place, added up. -/
def sum (bs : List UInt8) : Nat := (bs.mapIdx fun i b => b.toNat % 128 * 2 ^ (7 * i)).sum

/-- The sum of the groups of some bytes, as a two's complement number of all their bits. -/
def signedSum (bs : List UInt8) : Int := (BitVec.ofNat (7 * bs.length) (sum bs)).toInt

/-- A number without a sign has room in a group with so many before it. -/
def Fits (more : Nat) (i : Int) : Prop := 0 ≤ i ∧ i < 128 ^ (more + 1)

/-- A number has room in a group with so many before it, together with its sign. -/
def FitsSigned (more : Nat) (i : Int) : Prop := -(64 * 128 ^ more) ≤ i ∧ i < 64 * 128 ^ more

/-! ## The last byte and the sum -/

theorem not_continues (b : UInt8) : (!continues b) = (b &&& 0x80 == 0) := by
  have here : (0x80 : UInt8).toNat = 2 ^ 7 := rfl
  have small := b.toNat_lt
  rw [Bool.eq_iff_iff, Bool.not_eq_true', continues, decide_eq_false_iff_not, beq_iff_eq,
    ← UInt8.toNat_inj, toNat_and_bit b here, ge_iff_le, UInt8.le_iff_toNat_le]
  change ¬128 ≤ b.toNat ↔ _ = 0
  omega

theorem sum_groups_from (bs : List UInt8) (place : Nat) :
    (bs.mapIdx fun i b => b.toNat % 128 * 2 ^ (7 * (i + place))).sum =
      2 ^ (7 * place) * unsigned bs := by
  induction bs generalizing place with
  | nil => rfl
  | cons b bs ih =>
    have behind := ih (place + 1)
    simp only [Nat.add_comm place 1, ← Nat.add_assoc] at behind
    have next : 2 ^ (7 * (1 + place)) = 2 ^ (7 * place) * 128 := by
      rw [Nat.mul_add, Nat.pow_add, Nat.mul_comm]
    rw [List.mapIdx_cons, List.sum_cons, behind, next, unsigned, Nat.zero_add, Nat.mul_add,
      Nat.mul_comm (b.toNat % 128), Nat.mul_assoc]

theorem unsigned_eq_sum (bs : List UInt8) : unsigned bs = sum bs := by
  have groups := sum_groups_from bs 0
  rw [Nat.mul_zero, Nat.pow_zero, Nat.one_mul] at groups
  exact groups.symm

theorem signed_eq_signedSum (bs : List UInt8) : signed bs = signedSum bs := by
  rw [signed, signedSum, BitVec.toInt_ofNat', unsigned_eq_sum, Nat.one_shiftLeft]

/-! ## Any number of groups -/

/-- A value without a sign is spelled by any groups that have room for it. -/
theorem unsigned_spell_of_fits {more n : Nat} (room : Fits more n) :
    unsigned (spell more n) = n := by
  have spelled := unsigned_spell more n
  rw [Int.emod_eq_of_lt room.1 room.2] at spelled
  exact Int.ofNat_inj.mp spelled

/-- The shortest form of a value without a sign has the fewest groups with room for it. -/
theorem ofNat_least (n : Nat) :
    ∃ more, ofNat n = spell more n ∧ Fits more n ∧ ∀ k, Fits k n → more ≤ k := by
  obtain ⟨more, shortest⟩ := ofNat_eq_spell n
  have length : (ofNat n).length = more + 1 := by rw [shortest, length_spell]
  have bound := unsigned_lt (ofNat n)
  rw [unsigned_ofNat, length, Nat.one_shiftLeft, Nat.pow_mul] at bound
  refine ⟨more, shortest, ⟨Int.natCast_nonneg n, by exact_mod_cast bound⟩, fun k ⟨_, room⟩ => ?_⟩
  have short := length_ofNat_le (n := n) (k := k) (by exact_mod_cast room)
  omega

/-- The shortest form of a value with a sign has the fewest groups with room for it. -/
theorem ofInt_least (i : Int) :
    ∃ more, ofInt i = spell more i ∧ FitsSigned more i ∧ ∀ k, FitsSigned k i → more ≤ k := by
  obtain ⟨more, shortest⟩ := ofInt_eq_spell i
  have length : (ofInt i).length = more + 1 := by rw [shortest, length_spell]
  refine ⟨more, shortest, bounds_of_length_ofInt length, fun k ⟨low, high⟩ => ?_⟩
  have short := length_ofInt_le low high
  omega

/-- The last byte of groups that end stays the last one, whatever follows. -/
theorem Ends.last? {bs : List UInt8} (ends : Ends bs) (rest : List UInt8) :
    last? (bs ++ rest) = some (bs.length - 1) := by
  obtain ⟨front, last, rfl, more, done⟩ := ends
  have front_continues : Leb128.last? front = none :=
    List.findIdx?_eq_none_iff.mpr fun b mem => by rw [← not_continues, more b mem]; rfl
  have here : Leb128.last? (last :: rest) = some 0 := by
    rw [Leb128.last?, List.findIdx?_cons, ← not_continues, done]
    rfl
  have split : Leb128.last? (front ++ last :: rest) = some front.length := by
    rw [Leb128.last?, List.findIdx?_append, ← Leb128.last?, ← Leb128.last?, front_continues, here,
      Option.none_or, Option.map_some, Nat.zero_add]
  rw [List.append_assoc, List.singleton_append, split, List.length_append, List.length_singleton,
    Nat.add_sub_cancel]

end Leb128

namespace Decoder

open Leb128 (last? spell)

variable {α : Type}

/-! ## The bytes of a number -/

/-- The bytes of a number at the front of any input. -/
theorem lebBytes_run (max : Nat) (s : Input) : (lebBytes max).run s = match last? s.bytes with
    | none => .error (.malformed (s.pos + s.bytes.length) .eof)
    | some k =>
      if max < k + 1 then .error (.malformed (s.pos + (k + 1)) .fail)
      else .ok (s.bytes.take (k + 1), ⟨s.pos + (k + 1), s.bytes.drop (k + 1)⟩) := by
  simp only [lebBytes, List.takeWhile_eq_take_findIdx_not, List.dropWhile_eq_drop_findIdx_not,
    Leb128.not_continues]
  cases last : last? s.bytes with
  | none =>
    have all := List.findIdx_eq_length.mpr (List.findIdx?_eq_none_iff.mp last)
    rw [all, List.drop_length, List.take_length]
  | some k =>
    obtain ⟨inside, place⟩ := List.findIdx?_eq_some_iff_findIdx_eq.mp last
    have length : (s.bytes.take k).length = k := List.length_take_of_le (Nat.le_of_lt inside)
    rw [place, List.drop_eq_getElem_cons inside]
    dsimp only
    rw [length, List.take_append_getElem, Nat.add_assoc]

/-- A decoder reads numbers of at most `max` bytes: what is at the front of any input is read as
the `value` of its bytes, if they come to an end in time, and each value is read from any groups
that have `Room` for the `number` that it is. Its shortest `form` has the fewest of them. -/
structure ReadsNumbers (d : Decoder α) (max : Nat) (value : List UInt8 → α) (number : α → Int)
    (form : α → List UInt8) (Room : Nat → Int → Prop) : Prop where
  /-- All bytes say that another one follows. -/
  endless {s : Input} (last : last? s.bytes = none) :
    d.run s = .error (.malformed (s.pos + s.bytes.length) .eof)
  /-- There are too many bytes, all of which have been passed. -/
  long {s : Input} {k : Nat} (last : last? s.bytes = some k) (many : max < k + 1) :
    d.run s = .error (.malformed (s.pos + (k + 1)) .fail)
  /-- The bytes up to the last one are taken. -/
  short {s : Input} {k : Nat} (last : last? s.bytes = some k) (few : k + 1 ≤ max) :
    d.run s = .ok (value (s.bytes.take (k + 1)), ⟨s.pos + (k + 1), s.bytes.drop (k + 1)⟩)
  /-- A value is read from any number of groups that have room for it, whatever follows. -/
  padded {a : α} {more : Nat} (room : Room more (number a)) (few : more + 1 ≤ max) (pos : Nat)
    (rest : List UInt8) :
    d.run ⟨pos, spell more (number a) ++ rest⟩ = .ok (a, ⟨pos + (more + 1), rest⟩)
  /-- The shortest form of a value has as few groups as have room for it, and no more than are
  allowed. -/
  shortest (a : α) : ∃ more, more + 1 ≤ max ∧ form a = spell more (number a) ∧
    Room more (number a) ∧
    ∀ k, Room k (number a) → more ≤ k

theorem ReadsNumbers.of_bytes {top : Nat} {value : List UInt8 → α} {number : α → Int}
    {form : α → List UInt8} {Room : Nat → Int → Prop}
    (spelled : ∀ {a more}, Room more (number a) → value (spell more (number a)) = a)
    (room : ∀ a, Room top (number a))
    (least : ∀ a, ∃ more, form a = spell more (number a) ∧ Room more (number a) ∧
      ∀ k, Room k (number a) → more ≤ k) :
    (do return value (← lebBytes (top + 1)) : Decoder α).ReadsNumbers
      (top + 1) value number form Room where
  endless last := by rw [run_bind, lebBytes_run, last]
  long last many := by
    rw [run_bind, lebBytes_run, last]
    simp only [if_pos many]
  short last few := by
    rw [run_bind, lebBytes_run, last]
    simp only [if_neg (Nat.not_lt.mpr few)]
    rfl
  padded {a more} room few pos rest := by
    have length := Leb128.length_spell more (number a)
    have last := (Leb128.spell_ends more (number a)).last? rest
    rw [length, Nat.add_sub_cancel] at last
    rw [run_bind, lebBytes_run, last]
    simp only [if_neg (Nat.not_lt.mpr few), List.take_left' length, List.drop_left' length,
      spelled room]
    rfl
  shortest a := by
    obtain ⟨more, same, fits, fewest⟩ := least a
    exact ⟨more, Nat.succ_le_succ (fewest top (room a)), same, fits, fewest⟩

/-! ## The three kinds of numbers -/

theorem u32_reads : u32.ReadsNumbers 5 (fun bs => .ofNat (Leb128.sum bs)) (fun n => n.toNat)
    (fun n => Leb128.ofNat n.toNat) Leb128.Fits := by
  simp only [u32_eq, Leb128.unsigned_eq_sum]
  refine .of_bytes (fun {n more} room => ?_) (fun n => ?_) fun n => Leb128.ofNat_least n.toNat
  · rw [← Leb128.unsigned_eq_sum, Leb128.unsigned_spell_of_fits room, UInt32.ofNat_toNat]
  · exact ⟨Int.natCast_nonneg _, Int.ofNat_lt.mpr (Nat.lt_trans n.toNat_lt (by decide))⟩

-- The surplus bits of a last byte are dropped.
example : u32.run ⟨7, [0xff, 0xff, 0xff, 0xff, 0x7f, 0x01]⟩ = .ok (0xffffffff, ⟨12, [0x01]⟩) := by
  rfl

theorem i32_reads : i32.ReadsNumbers 5 (fun bs => .ofInt (Leb128.signedSum bs)) Int32.toInt
    (fun n => Leb128.ofInt n.toInt) Leb128.FitsSigned := by
  simp only [i32_eq, Leb128.signed_eq_signedSum]
  refine .of_bytes (fun {n more} room => ?_) (fun n => ?_) fun n => Leb128.ofInt_least n.toInt
  · rw [← Leb128.signed_eq_signedSum, Leb128.signed_spell room.1 room.2, Int32.ofInt_toInt]
  · have low := n.le_toInt
    have high := n.toInt_lt
    exact ⟨by omega, by omega⟩

theorem i64_reads : i64.ReadsNumbers 10 (fun bs => .ofInt (Leb128.signedSum bs)) Int64.toInt
    (fun n => Leb128.ofInt n.toInt) Leb128.FitsSigned := by
  simp only [i64_eq, Leb128.signed_eq_signedSum]
  refine .of_bytes (fun {n more} room => ?_) (fun n => ?_) fun n => Leb128.ofInt_least n.toInt
  · rw [← Leb128.signed_eq_signedSum, Leb128.signed_spell room.1 room.2, Int64.ofInt_toInt]
  · have low := n.le_toInt
    have high := n.toInt_lt
    exact ⟨by omega, by omega⟩

end Decoder

/-! ## Block types -/

/-- The numbers that stand for the empty block type and for the value types. -/
def BlockType.codes : List (Int × BlockType) :=
  [(-64, .empty), (-1, .val .i32), (-2, .val .i64), (-3, .val .f32), (-4, .val .f64),
    (-5, .val .v128),
    (-16, .val (.ref .funcRef)), (-17, .val (.ref .externRef))]

/-- A number stands for a block type as one of the codes or as an index. -/
theorem BlockType.eq_number_iff {i : Int} {type : BlockType} : i = type.number ↔
    (i, type) ∈ codes ∨ ∃ idx, type = .typeIndex idx ∧ i = idx.toNat := by
  cases type with
  | empty => simp [codes, number]
  | typeIndex idx => simp [codes, number]
  | val type =>
    cases type with
    | ref type => cases type <;> simp [codes, number, ValType.toByte, RefType.toByte]
    | _ => simp [codes, number, ValType.toByte]

namespace Decoder

/-- A decoder reads block types: a number of 64 bits is read, and it is one of the codes, an
index, or bad. -/
structure ReadsBlockTypes (d : Decoder BlockType) : Prop where
  /-- There is no number. -/
  unread {s : Input} {e : DecodeError} (read : i64.run s = .error e) : d.run s = .error e
  /-- The number is the code of a block type. -/
  code {s t : Input} {i : Int64} {type : BlockType} (read : i64.run s = .ok (i, t))
    (mem : (i.toInt, type) ∈ BlockType.codes) : d.run s = .ok (type, t)
  /-- The number is an index. -/
  index {s t : Input} {i : Int64} {idx : TypeIdx} (read : i64.run s = .ok (i, t))
    (same : i.toInt = idx.toNat) : d.run s = .ok (.typeIndex idx, t)
  /-- The number is neither. -/
  other {s t : Input} {i : Int64} (read : i64.run s = .ok (i, t))
    (uncoded : ∀ type, (i.toInt, type) ∉ BlockType.codes)
      (outside : i.toInt < 0 ∨ 2 ^ 32 ≤ i.toInt) :
    d.run s = .error (.badBlockType i)

theorem blockType_run {s t : Input} {i : Int64} (read : i64.run s = .ok (i, t)) :
    blockType.run s = match BlockType.ofInt? i.toInt with
      | some type => .ok (type, t)
      | none => .error (.badBlockType i) := by
  rw [blockType, run_bind, read]
  dsimp only
  cases BlockType.ofInt? i.toInt <;> rfl

theorem blockType_reads : blockType.ReadsBlockTypes where
  unread read := by rw [blockType, run_bind, read]
  code read mem := by
    have found := BlockType.ofInt?_eq_some_iff.mpr (BlockType.eq_number_iff.mpr (.inl mem))
    rw [blockType_run read, found]
  index read same := by
    have found :=
      BlockType.ofInt?_eq_some_iff.mpr (BlockType.eq_number_iff.mpr (.inr ⟨_, rfl, same⟩))
    rw [blockType_run read, found]
  other {s t i} read uncoded outside := by
    cases found : BlockType.ofInt? i.toInt with
    | none => rw [blockType_run read, found]
    | some type =>
      rcases BlockType.eq_number_iff.mp
        (BlockType.ofInt?_eq_some_iff.mp found) with mem | ⟨idx, -, same⟩
      · exact absurd mem (uncoded type)
      · have bound := idx.toNat_lt
        rw [UInt32.size] at bound
        omega

/-- Numbers of either width, and block types, are read exactly, whatever bytes there are. -/
theorem numbers_exact :
    u32.ReadsNumbers 5 (fun bs => .ofNat (Leb128.sum bs)) (fun n => n.toNat)
        (fun n => Leb128.ofNat n.toNat) Leb128.Fits ∧
      i32.ReadsNumbers 5 (fun bs => .ofInt (Leb128.signedSum bs)) Int32.toInt
        (fun n => Leb128.ofInt n.toInt) Leb128.FitsSigned ∧
      i64.ReadsNumbers 10 (fun bs => .ofInt (Leb128.signedSum bs)) Int64.toInt
        (fun n => Leb128.ofInt n.toInt) Leb128.FitsSigned ∧
      blockType.ReadsBlockTypes :=
  ⟨u32_reads, i32_reads, i64_reads, blockType_reads⟩

end Decoder

end WasmMachine
