import WasmMachine.Binary.Leb128

/-!
# What a decoder reads back

`d.Reads bs a` says that `d` finds `a` at the front of every input that begins with `bs`, and
takes just these bytes.  It is asked only of byte strings that are short enough for their length
to be written in 32 bits: a string that is short enough has only parts that are, so the sizes and
counts in a form need no assumptions of their own.  What has been read is taken apart by
`Decoder.exists_of_bind` and those after it.
-/

namespace WasmMachine

namespace Decoder

variable {α β : Type}

/-! ## What has been read -/

section Parts

variable {d : Decoder α} {s t : Input}

theorem exists_of_bind {k : α → Decoder β} {b : β} (run : (d >>= k).run s = .ok (b, t)) :
    ∃ a u, d.run s = .ok (a, u) ∧ (k a).run u = .ok (b, t) := by
  rw [run_bind] at run
  cases head : d.run s with
  | error e =>
    rw [head] at run
    cases run
  | ok p =>
    rw [head] at run
    exact ⟨p.1, p.2, rfl, run⟩

/-- An input that has been cut off is the front of what was left. -/
theorem exists_of_sub {n : Nat} {front : Input} (run : (sub n).run s = .ok (front, t)) :
    front.pos = s.pos ∧ front.bytes.length = n ∧ s.bytes = front.bytes ++ t.bytes ∧
      t.pos = s.pos + n := by
  simp only [sub] at run
  cases cut : splitExact? n s.bytes with
  | none =>
    rw [cut] at run
    cases run
  | some p =>
    rw [cut] at run
    cases run
    obtain ⟨new, taken, bytes, length⟩ := splitExact?_eq_some cut
    rw [List.reverse_nil, List.nil_append] at taken
    exact ⟨rfl, taken ▸ length, taken ▸ bytes, rfl⟩

/-- A value that fills an input leaves nothing of it. -/
theorem exists_of_whole {a : α} (run : d.whole s = .ok a) :
    ∃ u, d.run s = .ok (a, u) ∧ u.bytes = [] := by
  unfold whole at run
  cases inner : d.run s with
  | error e =>
    rw [inner] at run
    cases run
  | ok p =>
    rw [inner] at run
    dsimp only at run
    split at run
    · next filled =>
      cases run
      exact ⟨p.2, rfl, List.isEmpty_iff.mp filled⟩
    · cases run

theorem exists_of_isolated {n : Nat} {a : α} (run : (isolated n d).run s = .ok (a, t)) :
    ∃ front, (sub n).run s = .ok (front, t) ∧ d.whole front = .ok a := by
  obtain ⟨front, u, cut, rest⟩ := exists_of_bind run
  simp only [ofExcept] at rest
  cases inner : d.whole front with
  | error e =>
    rw [inner] at rest
    cases rest
  | ok b =>
    rw [inner] at rest
    cases rest
    exact ⟨front, cut, inner⟩

end Parts

/-! ## Reading back -/

/-- Some bytes are read as a value, whatever follows them. -/
def Reads (d : Decoder α) (bs : List UInt8) (a : α) : Prop :=
  bs.length < UInt32.size → ∀ pos rest, d.run ⟨pos, bs ++ rest⟩ = .ok (a, ⟨pos + bs.length, rest⟩)

namespace Reads

variable {d : Decoder α} {bs cs : List UInt8} {a : α} {b : β}

theorem pure (a : α) : (Pure.pure a : Decoder α).Reads [] a := fun _ _ _ => rfl

theorem bind {k : α → Decoder β} (first : d.Reads bs a) (second : (k a).Reads cs b) :
    (d >>= k).Reads (bs ++ cs) b := by
  intro short pos rest
  rw [List.length_append] at short
  have head := first (by omega) pos (cs ++ rest)
  have tail := second (by omega) (pos + bs.length) rest
  rw [List.append_assoc, run_bind, head, List.length_append, ← Nat.add_assoc]
  exact tail

/-- The last part of a form, from which the value is made. -/
theorem map {f : α → β} (last : d.Reads bs a) :
    (d >>= fun a => Pure.pure (f a) : Decoder β).Reads bs (f a) := by
  have whole := last.bind (k := fun a => Pure.pure (f a)) (.pure (f a))
  rwa [List.append_nil] at whole

/-! ## Bytes -/

theorem byte (b : UInt8) : Decoder.byte.Reads [b] b := fun _ _ _ => rfl

/-- A form that begins with one byte. -/
theorem afterByte {k : UInt8 → Decoder α} {x : UInt8} (second : (k x).Reads bs a) :
    (Decoder.byte >>= k).Reads (x :: bs) a := (byte x).bind second

theorem splitExact?_append (xs ys taken : List α) :
    splitExact? xs.length (xs ++ ys) taken = some (taken.reverse ++ xs, ys) := by
  induction xs generalizing taken with
  | nil =>
    rw [List.append_nil]
    rfl
  | cons x xs ih =>
    have next := ih (x :: taken)
    rw [List.reverse_cons, List.append_assoc] at next
    exact next

theorem sub_run (bs rest : List UInt8) (pos : Nat) :
    (sub bs.length).run ⟨pos, bs ++ rest⟩ = .ok (⟨pos, bs⟩, ⟨pos + bs.length, rest⟩) := by
  have cut := splitExact?_append bs rest []
  rw [List.reverse_nil, List.nil_append] at cut
  simp only [sub, cut]

theorem take (bs : List UInt8) : (Decoder.take bs.length).Reads bs bs := by
  intro _ pos rest
  rw [Decoder.take, run_bind, sub_run]
  rfl

/-- A value that fills some bytes. -/
theorem whole (reads : d.Reads bs a) (short : bs.length < UInt32.size) (pos : Nat) :
    d.whole ⟨pos, bs⟩ = .ok a := by
  have run := reads short pos []
  rw [List.append_nil] at run
  rw [Decoder.whole, run]
  rfl

theorem isolated (reads : d.Reads bs a) : (Decoder.isolated bs.length d).Reads bs a := by
  intro short pos rest
  rw [Decoder.isolated, run_bind, sub_run]
  simp only [ofExcept, reads.whole short pos, Except.map]

/-! ## Sequences -/

theorem timesFrom_run {γ : Type} {enc : γ → List UInt8} {val : γ → α}
    (each : ∀ x, d.Reads (enc x) (val x)) (xs : List γ) (acc : List α)
    (short : (xs.flatMap enc).length < UInt32.size) (pos : Nat) (rest : List UInt8) :
    timesFrom d xs.length acc ⟨pos, xs.flatMap enc ++ rest⟩
      = .ok (acc.reverse ++ xs.map val, ⟨pos + (xs.flatMap enc).length, rest⟩) := by
  induction xs generalizing acc pos with
  | nil =>
    rw [List.map_nil, List.append_nil]
    rfl
  | cons x xs ih =>
    rw [List.flatMap_cons, List.length_append] at short
    have head := each x (by omega) pos (xs.flatMap enc ++ rest)
    have tail := ih (val x :: acc) (by omega) (pos + (enc x).length)
    rw [List.flatMap_cons, List.append_assoc, List.length_cons, timesFrom, head]
    simp only [tail, List.reverse_cons, List.append_assoc, List.singleton_append, List.map_cons,
      List.length_append, Nat.add_assoc]

theorem times {γ : Type} {enc : γ → List UInt8} {val : γ → α}
    (each : ∀ x, d.Reads (enc x) (val x)) (xs : List γ) :
    (Decoder.times xs.length d).Reads (xs.flatMap enc) (xs.map val) := by
  intro short pos rest
  exact timesFrom_run each xs [] short pos rest

end Reads

end Decoder

end WasmMachine
