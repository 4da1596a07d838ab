import WasmMachine.Binary.Error

/-!
# Decoders

A `Decoder` reads a value off the front of an `Input`, which is a byte string together with the
position of its first byte.  It can only move forward: that what it leaves is what remains of
its input after some bytes (`Input.Reaches`) is part of the type.  Loops over sequences end for
that reason, since each of their items takes at least its first byte.

`vec` reads a counted sequence, `isolated` reads a value that has to fill a given number of
bytes exactly.
-/

namespace WasmMachine

/-- The bytes that are still to be read, and the position of the first of them. -/
structure Input where
  pos : Nat
  bytes : List UInt8
  deriving DecidableEq, Repr, Inhabited

/-- What is left of an input after some bytes have been read. -/
def Input.Reaches (s t : Input) : Prop :=
  ∃ used : List UInt8, s.bytes = used ++ t.bytes ∧ t.pos = s.pos + used.length

theorem Input.Reaches.refl (s : Input) : s.Reaches s := ⟨[], by simp⟩

theorem Input.Reaches.trans {s t u : Input} (h : s.Reaches t) (h' : t.Reaches u) :
    s.Reaches u := by
  obtain ⟨x, hx, px⟩ := h
  obtain ⟨y, hy, py⟩ := h'
  exact ⟨x ++ y, by simp [hx, hy], by simp [px, py, Nat.add_assoc]⟩

theorem Input.Reaches.length_le {s t : Input} (h : s.Reaches t) :
    t.bytes.length ≤ s.bytes.length := by
  obtain ⟨x, hx, -⟩ := h
  simp [hx]

/-- The outcome of reading: an error, or a value and what is left. -/
abbrev Reading (α : Type) := Except DecodeError (α × Input)

/-- A reader of values off the front of an input, which only moves forward. -/
@[ext] structure Decoder (α : Type) where
  run : Input → Reading α
  reaches : ∀ {s a t}, run s = .ok (a, t) → s.Reaches t

namespace Decoder

variable {α β : Type}

/-- A value that takes no bytes. -/
@[inline] protected def pure (a : α) : Decoder α where
  run s := .ok (a, s)
  reaches h := by cases h; exact .refl _

/-- One reader after another; the second one may depend on what the first one read. -/
@[inline] protected def bind (d : Decoder α) (k : α → Decoder β) : Decoder β where
  run s := match d.run s with
    | .error e => .error e
    | .ok (a, t) => (k a).run t
  reaches {s b u} h := by
    split at h
    · cases h
    · next a t hd => exact (d.reaches hd).trans ((k a).reaches h)

instance : Monad Decoder where
  pure := Decoder.pure
  bind := Decoder.bind

@[simp] theorem run_pure (a : α) (s : Input) : (pure a : Decoder α).run s = .ok (a, s) := rfl

theorem run_bind (d : Decoder α) (k : α → Decoder β) (s : Input) :
    (d >>= k).run s = match d.run s with
      | .error e => .error e
      | .ok (a, t) => (k a).run t := rfl

/-- Fail. -/
@[inline] def fail (e : DecodeError) : Decoder α where
  run _ := .error e
  reaches h := by cases h

/-- The current position. -/
@[inline] def position : Decoder Nat where
  run s := .ok (s.pos, s)
  reaches h := by cases h; exact .refl _

/-- A result that was computed otherwise. -/
@[inline] def ofExcept (r : Except DecodeError α) : Decoder α where
  run s := r.map (·, s)
  reaches {s a t} h := by
    cases r with
    | error => cases h
    | ok => cases h; exact .refl _

/-! ## Bytes -/

/-- One byte. -/
def byte : Decoder UInt8 where
  run s := match s.bytes with
    | [] => .error (.malformed s.pos .eof)
    | b :: bs => .ok (b, ⟨s.pos + 1, bs⟩)
  reaches {s a t} h := by
    split at h
    · cases h
    · next hs => cases h; exact ⟨[a], by simp [hs]⟩

theorem length_lt_of_byte {s t : Input} {b : UInt8} (h : byte.run s = .ok (b, t)) :
    t.bytes.length < s.bytes.length := by
  simp only [byte] at h
  split at h
  · cases h
  · next hs => cases h; simp [hs]

/-- Cut a list after `n` items; none if it is shorter. -/
def splitExact? (n : Nat) (xs : List α) (taken : List α := []) : Option (List α × List α) :=
  match n, xs with
  | 0, xs => some (taken.reverse, xs)
  | _ + 1, [] => none
  | n + 1, x :: xs => splitExact? n xs (x :: taken)

theorem splitExact?_eq_some {n : Nat} {xs taken as bs : List α}
    (h : splitExact? n xs taken = some (as, bs)) :
    ∃ new, as = taken.reverse ++ new ∧ xs = new ++ bs ∧ new.length = n := by
  induction n generalizing xs taken with
  | zero =>
    simp only [splitExact?, Option.some.injEq, Prod.mk.injEq] at h
    exact ⟨[], by simp [← h.1], by simp [← h.2], rfl⟩
  | succ n ih =>
    cases xs with
    | nil => simp [splitExact?] at h
    | cons x xs =>
      obtain ⟨new, rfl, rfl, rfl⟩ := ih h
      exact ⟨x :: new, by simp, by simp, by simp⟩

/-- The next `n` bytes, as an input of their own. -/
def sub (n : Nat) : Decoder Input where
  run s := match splitExact? n s.bytes with
    | none => .error (.malformed s.pos .eof)
    | some (front, rest) => .ok (⟨s.pos, front⟩, ⟨s.pos + n, rest⟩)
  reaches {s a t} h := by
    split at h
    · cases h
    · next front rest hs =>
      cases h
      obtain ⟨new, -, h₂, h₃⟩ := splitExact?_eq_some hs
      exact ⟨new, h₂, by simp [h₃]⟩

/-- The next `n` bytes. -/
def take (n : Nat) : Decoder (List UInt8) := do
  return (← sub n).bytes

/-- Everything that is left. -/
def remaining : Decoder (List UInt8) where
  run s := .ok (s.bytes, ⟨s.pos + s.bytes.length, []⟩)
  reaches h := by cases h; exact ⟨_, by simp, rfl⟩

/-- A value that has to fill an input. -/
def whole (d : Decoder α) (s : Input) : Except DecodeError α :=
  match d.run s with
  | .error e => .error e
  | .ok (a, t) =>
    if t.bytes.isEmpty then .ok a else .error (.sizeMismatch t.pos t.bytes.length)

/-- A value that has to fill the next `n` bytes. -/
def isolated (n : Nat) (d : Decoder α) : Decoder α := do
  ofExcept (d.whole (← sub n))

/-! ## Sequences -/

/-- Read `n` items, after those in `acc`, which is in reverse order. -/
def timesFrom (d : Decoder α) : Nat → List α → Input → Reading (List α)
  | 0, acc, s => .ok (acc.reverse, s)
  | n + 1, acc, s => match d.run s with
    | .error e => .error e
    | .ok (a, t) => timesFrom d n (a :: acc) t

theorem reaches_timesFrom (d : Decoder α) {n : Nat} {acc as : List α} {s t : Input}
    (h : timesFrom d n acc s = .ok (as, t)) : s.Reaches t := by
  induction n generalizing acc s with
  | zero => cases h; exact .refl _
  | succ n ih =>
    simp only [timesFrom] at h
    split at h
    · cases h
    · next a u hd => exact (d.reaches hd).trans (ih h)

/-- Read a given number of items. -/
def times (n : Nat) (d : Decoder α) : Decoder (List α) where
  run := timesFrom d n []
  reaches := reaches_timesFrom d

end Decoder

end WasmMachine
