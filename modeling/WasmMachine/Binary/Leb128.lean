import WasmMachine.Binary.Decoder

/-!
# LEB128 numbers

A number is written in groups of seven bits, least significant group first, one to a byte; the top
bit of a byte is set if another one follows.  A word of some width is put together from the groups
(`Leb128.word`), and if a sign is asked for, the bits above the last group are filled with its top
bit (`Leb128.signedWord`).  Any number of bytes up to a bound may be used, and surplus bits of the
last byte are dropped.

`Leb128.unsigned` and `Leb128.signed` say the same without a width: the number that is spelled, or
the two's complement number of as many bits as there are groups for.
-/

namespace WasmMachine

namespace Leb128

/-- The group of a byte, at a place of a word. Places count modulo the width. -/
def group (w : Nat) (b : UInt8) (place : Nat) : BitVec w :=
  BitVec.ofNat w (b &&& 0x7f).toNat <<< (place % w)

/-- Put the groups of some bytes into a word, one behind the other from a place on. -/
def gather {w : Nat} (word : BitVec w) (place : Nat) : List UInt8 → BitVec w
  | [] => word
  | b :: bs => gather (word ||| group w b place) (place + 7) bs

/-- The word that the groups of some bytes are put together to. -/
def word (w : Nat) (bs : List UInt8) : BitVec w := gather 0 0 bs

/-- Fill a word from a place on with the sign that a last byte has; there may be no room for
it. -/
def extendSign {w : Nat} (word : BitVec w) (place : Nat) (last : UInt8) : BitVec w :=
  if place < w ∧ last &&& 0x40 = 0x40 then word ||| (BitVec.allOnes w <<< place) else word

/-- The word that the groups of some bytes are put together to, with the sign of the last
group. -/
def signedWord (w : Nat) (bs : List UInt8) : BitVec w :=
  extendSign (word w bs) (7 * bs.length) (bs.getLastD 0)

/-- The number spelled by the groups of some bytes. -/
def unsigned : List UInt8 → Nat
  | [] => 0
  | b :: bs => b.toNat % 128 + 128 * unsigned bs

/-- The two's complement number spelled by the groups of some bytes. -/
def signed (bs : List UInt8) : Int := Int.bmod (unsigned bs) (1 <<< (7 * bs.length))

/-- Whether another byte follows. -/
def continues (b : UInt8) : Bool := b ≥ 128

theorem unsigned_lt (bs : List UInt8) : unsigned bs < 1 <<< (7 * bs.length) := by
  induction bs with
  | nil => decide
  | cons b bs ih =>
    have hb := Nat.mod_lt b.toNat (show 0 < 128 by decide)
    rw [Nat.one_shiftLeft] at ih ⊢
    rw [unsigned, List.length_cons, Nat.mul_succ, Nat.pow_add]
    omega

end Leb128

namespace Decoder

/-- The bytes of a LEB128 number of at most `max` bytes. The end of the number is sought before
its length is checked. -/
def lebBytes (max : Nat) : Decoder (List UInt8) where
  run s :=
    let front := s.bytes.takeWhile Leb128.continues
    match s.bytes.dropWhile Leb128.continues with
    | [] => .error (.malformed (s.pos + front.length) .eof)
    | last :: rest =>
      let t : Input := ⟨s.pos + front.length + 1, rest⟩
      if front.length + 1 > max then .error (.malformed t.pos .fail)
      else .ok (front ++ [last], t)
  reaches {s a t} h := by
    dsimp only at h
    split at h
    · cases h
    · next last rest hd =>
      split at h
      · cases h
      · cases h
        refine ⟨s.bytes.takeWhile Leb128.continues ++ [last], ?_, by simp [Nat.add_assoc]⟩
        rw [List.append_assoc, List.singleton_append, ← hd, List.takeWhile_append_dropWhile]

/-- An unsigned number of 32 bits. -/
def u32 : Decoder UInt32 := do
  return .ofBitVec (Leb128.word 32 (← lebBytes 5))

/-- A signed number of 32 bits. -/
def i32 : Decoder Int32 := do
  return .ofBitVec (Leb128.signedWord 32 (← lebBytes 5))

/-- A signed number of 64 bits. -/
def i64 : Decoder Int64 := do
  return .ofBitVec (Leb128.signedWord 64 (← lebBytes 10))

/-- A counted sequence. -/
def vec {α : Type} (item : Decoder α) : Decoder (List α) := do
  times (← u32).toNat item

/-- An index. -/
def idx {space : IndexSpace} : Decoder (Idx space) := do
  return ⟨← u32⟩

/-- Counted bytes. -/
def bytes : Decoder (List UInt8) := do
  take (← u32).toNat

/-- Counted bytes that have to be UTF-8. -/
def name : Decoder String := do
  let pos ← position
  match String.fromUTF8? (← bytes).toByteArray with
  | some s => return s
  | none => fail (.badUtf8 pos)

end Decoder

end WasmMachine
