import Mathlib.Data.List.TakeWhile
import WasmMachine.Proofs.SectionRows
import WasmMachine.Proofs.Spellings

/-!
# Truncated modules

Bytes that are decoded are a row of frames behind the header (`Module.exists_row`), in one way
(`SectionFrame.moduleBytes_injective`), and every section in them says something.  If they are cut
off between two sections, the sections before the cut are decoded as they were, and the rest is up
to the builder.  Anywhere else, reading stops because the input ends (`Module.decode_truncated`):
in the header, or in the frame that has been cut, whose size or payload is incomplete.
-/

namespace WasmMachine

/-- Where a list that is put together of two breaks off: in the first one, or in the second
one. -/
theorem List.proper_prefix_append {α : Type} {xs ys cut : List α} (front : cut <+: xs ++ ys)
    (proper : cut ≠ xs ++ ys) :
    (cut <+: xs ∧ cut ≠ xs) ∨ ∃ cut', cut = xs ++ cut' ∧ cut' <+: ys ∧ cut' ≠ ys := by
  obtain ⟨rest, whole⟩ := front
  rcases List.append_eq_append_iff.mp whole with ⟨more, rfl, -⟩ | ⟨cut', rfl, rfl⟩
  · cases more with
    | nil => exact .inr ⟨[], by simp, List.nil_prefix, fun none => proper (by simp [← none])⟩
    | cons x more => exact .inl ⟨List.prefix_append _ _, by simp⟩
  · exact .inr ⟨cut', rfl, List.prefix_append _ _, fun same => proper (by rw [← same])⟩

/-! ## Inputs that end early -/

namespace Decoder

theorem sub_short {n : Nat} {s : Input} (short : s.bytes.length < n) :
    (sub n).run s = .error (.malformed s.pos .eof) := by
  have missing : splitExact? n s.bytes = none := by
    cases cut : splitExact? n s.bytes with
    | none => rfl
    | some p =>
      obtain ⟨new, -, bytes, length⟩ := splitExact?_eq_some cut
      rw [bytes, List.length_append] at short
      omega
  simp only [sub, missing]

/-- A number whose last byte is missing. -/
theorem u32_short {s : Input} (more : ∀ b ∈ s.bytes, Leb128.continues b = true) :
    u32.run s = .error (.malformed s.stop .eof) := by
  have all : s.bytes.takeWhile Leb128.continues = s.bytes := List.takeWhile_eq_self_iff.mpr more
  have missing : s.bytes.dropWhile Leb128.continues = [] := List.dropWhile_eq_nil_iff.mpr more
  rw [u32, run_bind]
  simp only [lebBytes, all, missing]
  rfl

/-- The header, cut off. -/
theorem header_short (n : Fin 8) : header.run ⟨0, (SectionFrame.moduleBytes []).take n⟩
    = .error (.malformed (if n < 4 then 0 else 4) .eof) := by
  decide +revert

end Decoder

theorem Leb128.Ends.continues_of_prefix {bs cut : List UInt8} (ends : Ends bs)
    (front : cut <+: bs) (proper : cut ≠ bs) : ∀ b ∈ cut, continues b = true := by
  obtain ⟨first, last, rfl, more, -⟩ := ends
  intro b mem
  rcases List.prefix_concat_iff.mp front with whole | front
  · exact absurd whole proper
  · exact more b (front.subset mem)

namespace SectionFrame

variable {f g : SectionFrame} {row row' : List SectionFrame} {rest rest' cut : List UInt8}

/-- A section that is cut off behind its first byte: in its size or in its payload. -/
theorem framed_short (pos : Nat) (more : cut ≠ []) (front : cut <+: f.bytes)
    (proper : cut ≠ f.bytes) :
    ∃ at_ ≤ pos + cut.length, Decoder.framed.run ⟨pos, cut⟩ = .error (.malformed at_ .eof) := by
  obtain ⟨b, cut, rfl⟩ := List.exists_cons_of_ne_nil more
  obtain ⟨rfl, inside⟩ := List.cons_prefix_cons.mp front
  have first : Decoder.byte.run ⟨pos, f.id :: cut⟩ = .ok (f.id, ⟨pos + 1, cut⟩) := rfl
  have cut_short : cut ≠ f.size ++ f.payload := fun same => proper (same ▸ rfl)
  rcases List.proper_prefix_append inside cut_short with ⟨front, proper⟩ | ⟨cut, rfl,
    front, proper⟩
  · have sized :=
      Decoder.u32_short (s := ⟨pos + 1, cut⟩) (f.ends.continues_of_prefix front proper)
    refine ⟨pos + 1 + cut.length, by rw [List.length_cons]; omega, ?_⟩
    rw [Decoder.framed_eq, first]
    simp only [sized]
    rfl
  · have spelled : Leb128.SpellsU32 (.ofNat (Leb128.unsigned f.size)) f.size :=
      ⟨f.ends, f.short, rfl⟩
    have sized := Decoder.Exactly.u32.accepts spelled (s := ⟨pos + 1, f.size ++ cut⟩)
      (t := ⟨pos + 1 + f.size.length, cut⟩) ⟨rfl, rfl⟩
    have few : cut.length < f.payload.length :=
      Nat.lt_of_le_of_ne front.length_le fun same => proper (front.eq_of_length same)
    have count : (UInt32.ofNat (Leb128.unsigned f.size)).toNat = f.payload.length :=
      UInt32.toNat_ofNat'.trans f.counts
    refine ⟨pos + 1 + f.size.length, by rw [List.length_cons, List.length_append]; omega, ?_⟩
    rw [Decoder.framed_eq, first]
    simp only [sized, count, Decoder.sub_short (s := ⟨_, cut⟩) few]

/-! ## The row of sections of a module -/

/-- What is read as a section is one. -/
theorem exists_of_framed {s payload t : Input} {id : UInt8}
    (run : Decoder.framed.run s = .ok ((id, payload), t)) :
    ∃ f : SectionFrame, f.id = id ∧ payload = ⟨f.inner s.pos, f.payload⟩ ∧
      s.bytes = f.bytes ++ t.bytes ∧ t.pos = s.pos + f.bytes.length := by
  rw [Decoder.framed_eq] at run
  cases first : Decoder.byte.run s with
  | error e => rw [first] at run; cases run
  | ok p =>
    obtain ⟨b, u⟩ := p
    rw [first] at run
    obtain ⟨_, rfl, bytes, place⟩ := Decoder.Exactly.byte.finds first
    cases sized : Decoder.u32.run u with
    | error e => simp only [sized] at run; cases run
    | ok p =>
      obtain ⟨n, v⟩ := p
      obtain ⟨size, ⟨ends, short, rfl⟩, bytes', place'⟩ := Decoder.Exactly.u32.finds sized
      simp only [sized, Decoder.sub] at run
      cases cut : Decoder.splitExact? (UInt32.ofNat (Leb128.unsigned size)).toNat v.bytes with
      | none => rw [cut] at run; cases run
      | some p =>
        rw [cut] at run
        cases run
        obtain ⟨payload, taken, bytes'', length⟩ := Decoder.splitExact?_eq_some cut
        have counts := UInt32.toNat_ofNat'.symm.trans length.symm
        refine ⟨⟨id, size, payload, ends, short, counts⟩, rfl, ?_, ?_, ?_⟩
        · rw [taken, inner, place', place]
          rfl
        · rw [bytes, bytes', bytes'', SectionFrame.bytes]
          simp
        · rw [length_bytes, ← length]
          simp only [place', place, List.length_singleton]
          omega

/-- The section at the front of some bytes is the only one there. -/
theorem bytes_injective (same : f.bytes ++ rest = g.bytes ++ rest') : f = g ∧ rest = rest' := by
  have one := framed_run (f := f) 0 rest
  have two := framed_run (f := g) 0 rest'
  rw [same, two] at one
  simp only [Except.ok.injEq, Prod.mk.injEq, Input.mk.injEq] at one
  obtain ⟨⟨id, -, payload⟩, -, rfl⟩ := one
  have bytes := List.append_cancel_right same
  rw [SectionFrame.bytes, SectionFrame.bytes, ← payload] at bytes
  have size : f.size = g.size := List.append_cancel_right (List.cons.inj bytes).2
  cases f
  cases g
  cases id
  cases size
  cases payload
  exact ⟨rfl, rfl⟩

/-- The bytes of a module are divided into sections in one way. -/
theorem moduleBytes_injective (same : moduleBytes row = moduleBytes row') : row = row' := by
  have rows : row.flatMap bytes = row'.flatMap bytes := List.append_cancel_left same
  clear same
  induction row generalizing row' with
  | nil =>
    cases row' with
    | nil => rfl
    | cons g row' => cases rows
  | cons f row ih =>
    cases row' with
    | nil => cases rows
    | cons g row' =>
      rw [List.flatMap_cons, List.flatMap_cons] at rows
      obtain ⟨rfl, rest⟩ := bytes_injective rows
      rw [ih rest]

end SectionFrame

/-- What is read as the header is the header. -/
theorem Decoder.header_finds {s t : Input} (run : header.run s = .ok ((), t)) :
    s.Leaves (SectionFrame.moduleBytes []) t := by
  obtain ⟨got, u, first, run⟩ := exists_of_bind run
  obtain ⟨_, ⟨rfl, -⟩, leaves⟩ := (Exactly.take 4).finds first
  split at run
  · cases run
  · next known =>
    obtain ⟨w, v, second, run⟩ := exists_of_bind run
    obtain ⟨bs, ⟨length, rfl⟩, leaves'⟩ := (Exactly.word 4).finds second
    dsimp only at run
    split at run
    · cases run
    · next current =>
      cases run
      have low : leNat bs < 4294967296 := by
        have lt := leNat_lt bs
        rwa [length] at lt
      have value : (ofLeBytes bs).toNat % 4294967296 = 1 :=
        congrArg UInt32.toNat (Decidable.not_not.mp current)
      rw [toNat_ofLeBytes, UInt64.size] at value
      have is : bs = [1, 0, 0, 0] := leNat_injective length (by
        have one : leNat [1, 0, 0, 0] = 1 := by decide
        omega)
      rw [Decidable.not_not.mp known] at leaves
      rw [is] at leaves'
      exact leaves.append leaves'

namespace Module

open SectionFrame

/-- Sections that are read to the end are a row, and each of them says something. -/
theorem exists_row_of_sectionsFrom {acc result : Sections} {s : Input}
    (read : Decoder.sectionsFrom acc s = .ok result) :
    ∃ row : List SectionFrame, s.bytes = row.flatMap bytes ∧ ∀ f ∈ row, f.contents? ≠ none := by
  fun_induction Decoder.sectionsFrom acc s with
  | case1 acc s empty =>
    exact ⟨[], List.isEmpty_iff.mp empty, fun f mem => absurd mem List.not_mem_nil⟩
  | case2 => cases read
  | case3 => cases read
  | case4 acc s more id payload t run c known ih =>
    obtain ⟨f, rfl, rfl, front, -⟩ := exists_of_framed run
    obtain ⟨row, rest, sound⟩ := ih read
    have here : f.contents? = some c := decodeAt_eq_ok.mp known
    exact ⟨f :: row, by rw [front, rest, List.flatMap_cons],
      List.forall_mem_cons.mpr ⟨by simp [here], sound⟩⟩

/-- What is decoded is the header and a row of sections, and each of them says something. -/
theorem exists_row {b : List UInt8} {m : Module} (accepted : Module.decode b = .ok m) :
    ∃ row, b = moduleBytes row ∧ ∀ f ∈ row, f.contents? ≠ none := by
  obtain ⟨⟨⟨⟩, rest⟩, head, more⟩ := Except.exists_of_bind accepted
  obtain ⟨sections, read, -⟩ := Except.exists_of_bind more
  obtain ⟨row, bytes, sound⟩ := exists_row_of_sectionsFrom read
  obtain ⟨whole, -⟩ := Decoder.header_finds head
  exact ⟨row, whole.trans (by rw [bytes]; rfl), sound⟩

/-- Where a row of sections breaks off: behind some of them, and within the next one. -/
theorem exists_cut {row : List SectionFrame} {p : List UInt8} (front : p <+: row.flatMap bytes)
    (proper : p ≠ row.flatMap bytes) : ∃ before f after cut, row = before ++ f :: after ∧
      p = before.flatMap bytes ++ cut ∧ cut <+: f.bytes ∧ cut ≠ f.bytes := by
  induction row generalizing p with
  | nil => exact absurd (List.prefix_nil.mp front) proper
  | cons f row ih =>
    rw [List.flatMap_cons] at front proper
    rcases List.proper_prefix_append front proper with ⟨inside, short⟩ | ⟨p', rfl, inside, short⟩
    · exact ⟨[], f, row, p, rfl, rfl, inside, short⟩
    · obtain ⟨before, g, after, cut, rfl, rfl, inside, short⟩ := ih inside short
      exact ⟨f :: before, g, after, cut, rfl, by simp, inside, short⟩

/-- A module whose last section is cut off behind its first byte. -/
theorem decode_cut {before : List SectionFrame} {f : SectionFrame} {cut : List UInt8}
    (sound : ∀ g ∈ before, g.contents? ≠ none) (more : cut ≠ []) (inside : cut <+: f.bytes)
    (short : cut ≠ f.bytes) : ∃ pos ≤ (moduleBytes before ++ cut).length,
      Module.decode (moduleBytes before ++ cut) = .error (.malformed pos .eof) := by
  obtain ⟨pos, within, failed⟩ := framed_short (moduleBytes before).length more inside short
  refine ⟨pos, by rwa [List.length_append], ?_⟩
  rw [decode_moduleBytes, sectionsFrom_sound sound, Decoder.sectionsFrom_eq,
    if_neg (by simpa using more), failed]
  rfl

/-- Bytes that are decoded are a row of sections in exactly one way. If only a part of them is
decoded that ends behind the header or behind one of the sections, the module is built from the
sections that are left: this succeeds or fails for the builder's reasons. If the part ends
anywhere else, there is a position in it where the bytes that come to an end are missed. -/
theorem decode_truncated {b : List UInt8} {m : Module} (accepted : Module.decode b = .ok m) :
    ∃ row, b = moduleBytes row ∧ (∀ row', b = moduleBytes row' → row' = row) ∧
      ∀ p, p <+: b → p ≠ b →
        (∀ n, p = moduleBytes (row.take n) →
          let built := (Sections.ofLast ((row.take n).filterMap contents?)).build
          (∃ m', built = .ok m' ∧ Module.decode p = .ok m') ∨
            ∃ e, built = .error e ∧ Module.decode p = .error (.module e)) ∧
        ((∀ n, p ≠ moduleBytes (row.take n)) →
          ∃ pos ≤ p.length, Module.decode p = .error (.malformed pos .eof)) := by
  obtain ⟨row, rfl, sound⟩ := exists_row accepted
  refine ⟨row, rfl, fun row' same => (moduleBytes_injective same).symm,
    fun p front proper => ⟨?_, ?_⟩⟩
  · rintro n rfl built
    have decoded : Module.decode _ = built.mapError .module :=
      decode_sound fun f mem => sound f (List.mem_of_mem_take mem)
    cases result : built with
    | ok m' => exact .inl ⟨m', rfl, by rw [decoded, result]; rfl⟩
    | error e => exact .inr ⟨e, rfl, by rw [decoded, result]; rfl⟩
  · intro off
    have off_header : p ≠ moduleBytes [] := off 0
    change p <+: moduleBytes [] ++ row.flatMap bytes at front
    change p ≠ moduleBytes [] ++ row.flatMap bytes at proper
    rcases List.proper_prefix_append front proper with ⟨inside, short⟩ | ⟨q, rfl, inside, short⟩
    · have few : p.length < 8 :=
        Nat.lt_of_le_of_ne inside.length_le fun same => short (inside.eq_of_length same)
      have stop := Decoder.header_short ⟨p.length, few⟩
      rw [← List.prefix_iff_eq_take.mp inside] at stop
      refine ⟨_, ?_, by rw [Module.decode, stop]; rfl⟩
      split
      · exact Nat.zero_le _
      · next late => exact Nat.not_lt.mp late
    · obtain ⟨before, f, after, cut, rfl, rfl, inside, short⟩ := exists_cut inside short
      have more : cut ≠ [] := by
        rintro rfl
        refine off before.length ?_
        rw [List.take_left, List.append_nil]
        rfl
      rw [← List.append_assoc]
      exact decode_cut (fun g mem => sound g (List.mem_append_left _ mem)) more inside short

/-- A type section, whose size is spelled with a byte to spare, a function section and a code
one, cut off within that size, and in front of the code section, without which the module cannot
be built. -/
theorem decode_truncated_of_function :
    let types : SectionFrame := ⟨1, [0x84, 0x00], [1, 0x60, 0, 0],
      .cons (by decide : 4 < 128) (.single (by decide : 0 < 128)), by decide, rfl⟩
    let funcs : SectionFrame := ⟨3, [2], [1, 0], .single (by decide : 2 < 128), by decide, rfl⟩
    let code : SectionFrame :=
      ⟨10, [4], [1, 2, 0, 0x0b], .single (by decide : 4 < 128), by decide, rfl⟩
    let b := moduleBytes [types, funcs, code]
    (∃ m, Module.decode b = .ok m) ∧
      (∃ pos ≤ 10, Module.decode (b.take 10) = .error (.malformed pos .eof)) ∧
      ∃ e, Module.decode (b.take 19) = .error (.module e) := by
  intro types funcs code b
  have accepted : (Module.decode b).toBool = true := by decide +kernel
  obtain ⟨m, accepted⟩ : ∃ m, Module.decode b = .ok m := by
    cases decoded : Module.decode b with
    | ok m => exact ⟨m, rfl⟩
    | error e => rw [decoded] at accepted; cases accepted
  obtain ⟨row, -, only, cuts⟩ := decode_truncated accepted
  obtain rfl := only [types, funcs, code] rfl
  refine ⟨⟨m, accepted⟩, ?_, ?_⟩
  · obtain ⟨-, eof⟩ := cuts (b.take 10) (List.take_prefix _ _) (by decide)
    refine eof fun n same => ?_
    have lengths : ∀ n ≤ 3, (b.take 10).length ≠ (moduleBytes
        ([types, funcs, code].take n)).length := by
      decide
    rw [same] at lengths
    rcases Nat.le_total n 3 with few | all
    · exact lengths n few rfl
    · have whole : [types, funcs, code].take n = [types, funcs, code] :=
        List.take_of_length_le all
      exact lengths 3 (Nat.le_refl 3) (congrArg (fun row => (moduleBytes row).length) whole)
  · obtain ⟨build, -⟩ := cuts (b.take 19) (List.take_prefix _ _) (by decide)
    obtain ⟨m', built, -⟩ | ⟨e, -, failed⟩ := build 2 (by decide)
    · have fails : ((Sections.ofLast
          (([types, funcs, code].take 2).filterMap contents?)).build).toBool
          = false := by decide +kernel
      rw [built] at fails
      cases fails
    · exact ⟨e, failed⟩

end Module

end WasmMachine
