import WasmMachine.Binary.Module

/-!
# Positions are only reported

Where an input begins shows in nothing but the positions that errors name.  A decoder is `Local`
if it reads the same at every position, with the positions in its errors moved along, and if these
positions lie within what it was given.  Every decoder of the format is local, and so is the
decoding of a section from its payload (`Section.decode_shift`, `Section.decode_within`).
-/

namespace WasmMachine

/-! ## Positions of errors -/

namespace DecodeError

/-- The position that an error names, if it names one. -/
def pos? : DecodeError → Option Nat
  | .unexpectedElse pos => some pos
  | .sizeMismatch pos _ => some pos
  | .badUtf8 pos => some pos
  | .malformed pos _ => some pos
  | _ => none

/-- The same error with its position, if it names one, renamed. -/
def mapPos (f : Nat → Nat) : DecodeError → DecodeError
  | .unexpectedElse pos => .unexpectedElse (f pos)
  | .sizeMismatch pos trailing => .sizeMismatch (f pos) trailing
  | .badUtf8 pos => .badUtf8 (f pos)
  | .malformed pos kind => .malformed (f pos) kind
  | e => e

variable {e : DecodeError} {f g : Nat → Nat}

/-- An error that names no position is not changed by renaming positions. -/
theorem mapPos_of_pos?_eq_none (none : e.pos? = none) : e.mapPos f = e := by
  cases e <;> first | rfl | cases none

/-- Only the position that an error names matters to how it is renamed. -/
theorem mapPos_congr (same : ∀ pos, e.pos? = some pos → f pos = g pos) :
    e.mapPos f = e.mapPos g := by
  cases e with
  | unexpectedElse pos => exact congrArg unexpectedElse (same pos rfl)
  | sizeMismatch pos trailing => exact congrArg (sizeMismatch · trailing) (same pos rfl)
  | badUtf8 pos => exact congrArg badUtf8 (same pos rfl)
  | malformed pos kind => exact congrArg (malformed · kind) (same pos rfl)
  | _ => rfl

theorem mapPos_id : e.mapPos id = e := by cases e <;> rfl

/-- The position that an error names, if any, lies between two others. -/
def Within (first last : Nat) (e : DecodeError) : Prop :=
  ∀ pos, e.pos? = some pos → first ≤ pos ∧ pos ≤ last

/-- The bounds on the position of an error may be widened. -/
theorem Within.mono {first last first' last' : Nat} (within : e.Within first last)
    (below : first' ≤ first) (above : last ≤ last') : e.Within first' last' := fun pos named =>
  ⟨Nat.le_trans below (within pos named).1, Nat.le_trans (within pos named).2 above⟩

theorem Within.of_pos?_eq_none {first last : Nat} (none : e.pos? = none) :
    e.Within first last := by
  intro pos named
  rw [none] at named
  cases named

end DecodeError

/-! ## Local decoders -/

/-- The position behind the last byte of an input. -/
def Input.stop (s : Input) : Nat := s.pos + s.bytes.length

/-- The same bytes, further on. -/
def Input.shift (n : Nat) (s : Input) : Input := ⟨s.pos + n, s.bytes⟩

/-- Reading goes forward, and leaves the end of the input where it is. -/
theorem Input.Reaches.stop_eq {s t : Input} (reaches : s.Reaches t) :
    s.pos ≤ t.pos ∧ t.stop = s.stop := by
  obtain ⟨used, bytes, pos⟩ := reaches
  rw [Input.stop, Input.stop, bytes, pos, List.length_append]
  omega

/-- The outcome of reading the same bytes further on. -/
def Reading.shift {α : Type} (n : Nat) : Reading α → Reading α
  | .ok (a, t) => .ok (a, t.shift n)
  | .error e => .error (e.mapPos (· + n))

namespace Decoder

variable {α β γ : Type}

/-- A decoder for which the position of its input decides nothing but the positions in its errors,
and these lie within the input. -/
structure Local (d : Decoder α) : Prop where
  shift : ∀ n s, d.run (s.shift n) = Reading.shift n (d.run s)
  within : ∀ ⦃s e⦄, d.run s = .error e → e.Within s.pos s.stop

namespace Local

variable {d : Decoder α} {d' : Decoder β}

/-- A decoder that reads nothing and succeeds is local. -/
theorem pure (a : α) : (Pure.pure a : Decoder α).Local := ⟨fun _ _ => rfl, nofun⟩

/-- A decoder that fails is local if its error names no position; otherwise it would name one that
does not depend on the input. -/
theorem fail {e : DecodeError} (none : e.pos? = none) : (Decoder.fail e : Decoder α).Local where
  shift n s := congrArg Except.error (DecodeError.mapPos_of_pos?_eq_none none).symm
  within s e' failed := by
    cases failed
    exact .of_pos?_eq_none none

/-- What is read later is read further on, within the same end, so that local decoders may
follow each other. -/
theorem bind {k : α → Decoder β} (first : d.Local) (next : ∀ a, (k a).Local) :
    (d >>= k).Local where
  shift n s := by
    rw [run_bind, run_bind, first.shift]
    cases d.run s with
    | error e => rfl
    | ok p => exact (next p.1).shift n p.2
  within s e failed := by
    rw [run_bind] at failed
    cases head : d.run s with
    | error e' =>
      rw [head] at failed
      cases failed
      exact first.within head
    | ok p =>
      rw [head] at failed
      obtain ⟨forward, stop⟩ := (d.reaches head).stop_eq
      exact ((next p.1).within failed).mono forward (Nat.le_of_eq stop)

/-- A value that is made of one part. -/
theorem map {f : α → β} (part : d.Local) : (d >>= fun a => Pure.pure (f a) : Decoder β).Local :=
  part.bind fun _ => pure _

/-- A value that is made of two parts. -/
theorem map₂ {f : α → β → γ} (first : d.Local) (second : d'.Local) :
    (d >>= fun a => d' >>= fun b => Pure.pure (f a b) : Decoder γ).Local :=
  first.bind fun _ => second.map

/-! ### Bytes -/

/-- A byte that is missing is missed where it should begin. -/
theorem byte : Decoder.byte.Local where
  shift n s := by
    rcases s with ⟨pos, _ | ⟨b, bs⟩⟩
    · rfl
    · exact congrArg (fun pos => Except.ok (b, (⟨pos, bs⟩ : Input))) (Nat.add_right_comm pos n 1)
  within s e failed := by
    rcases s with ⟨pos, _ | ⟨b, bs⟩⟩
    · cases failed
      rintro _ ⟨⟩
      exact ⟨Nat.le_refl _, Nat.le_add_right _ _⟩
    · cases failed

/-- Cutting off the front of an input further on gives both parts further on. -/
theorem sub_shift (count n : Nat) (s : Input) : (sub count).run (s.shift n)
    = match (sub count).run s with
      | .error e => .error (e.mapPos (· + n))
      | .ok (front, t) => .ok (front.shift n, t.shift n) := by
  simp only [sub, Input.shift]
  cases splitExact? count s.bytes with
  | none => rfl
  | some p => simp only [Nat.add_right_comm]

/-- An input that is too short to be cut is reported at its beginning. -/
theorem sub_within {count : Nat} {s : Input} {e : DecodeError}
    (failed : (sub count).run s = .error e) : e.Within s.pos s.stop := by
  simp only [sub] at failed
  split at failed <;> cases failed
  rintro _ ⟨⟩
  exact ⟨Nat.le_refl _, Nat.le_add_right _ _⟩

/-- What is cut off the front of an input lies within it. -/
theorem sub_bounds {count : Nat} {s front t : Input} (cut : (sub count).run s = .ok (front, t)) :
    s.pos = front.pos ∧ front.stop ≤ s.stop := by
  simp only [sub] at cut
  split at cut <;> cases cut
  next front rest same =>
    obtain ⟨new, taken, bytes, -⟩ := splitExact?_eq_some same
    refine ⟨rfl, Nat.add_le_add_left ?_ s.pos⟩
    change front.length ≤ s.bytes.length
    rw [taken, bytes, List.reverse_nil, List.nil_append, List.length_append]
    exact Nat.le_add_right _ _

/-- A number of bytes. -/
theorem take (count : Nat) : (Decoder.take count).Local where
  shift n s := by
    rw [Decoder.take, run_bind, run_bind, sub_shift]
    cases (sub count).run s <;> rfl
  within s e failed := by
    rw [Decoder.take, run_bind] at failed
    cases cut : (sub count).run s with
    | error e' =>
      rw [cut] at failed
      cases failed
      exact sub_within cut
    | ok p =>
      rw [cut] at failed
      cases failed

theorem remaining : Decoder.remaining.Local where
  shift n s := congrArg (fun pos => Except.ok (s.bytes, (⟨pos, []⟩ : Input)))
    (Nat.add_right_comm s.pos n _)
  within s e failed := by cases failed

/-- The bytes of a number: one that never ends is reported at the end of the input, and one that
is too long behind its last byte. -/
theorem lebBytes (max : Nat) : (Decoder.lebBytes max).Local where
  shift n s := by
    simp only [Decoder.lebBytes, Input.shift]
    split
    · simp only [Reading.shift, DecodeError.mapPos, Nat.add_right_comm]
    · split <;> simp only [Reading.shift, DecodeError.mapPos, Input.shift, Nat.add_right_comm]
  within s e failed := by
    have bytes := List.takeWhile_append_dropWhile (p := Leb128.continues) (l := s.bytes)
    simp only [Decoder.lebBytes] at failed
    split at failed
    · next end_ =>
      rw [end_] at bytes
      cases failed
      rintro _ ⟨⟩
      rw [Input.stop, ← congrArg List.length bytes, List.length_append]
      exact ⟨Nat.le_add_right _ _, Nat.le_refl _⟩
    · next last rest more =>
      rw [more] at bytes
      split at failed <;> cases failed
      rintro _ ⟨⟩
      rw [Input.stop, ← congrArg List.length bytes, List.length_append, List.length_cons]
      omega

/-! ### Values that fill some bytes, and sequences -/

/-- Bytes that have to be filled by a value are read the same further on. -/
theorem whole_shift (decoder : d.Local) (n : Nat) (s : Input) :
    d.whole (s.shift n) = (d.whole s).mapError (DecodeError.mapPos (· + n)) := by
  rw [Decoder.whole, Decoder.whole, decoder.shift]
  cases d.run s with
  | error e => rfl
  | ok p =>
    rcases p with ⟨a, pos, _ | ⟨b, bs⟩⟩ <;> rfl

/-- Bytes that are left over are reported where they begin, and so within the bytes that should
have been filled. -/
theorem whole_within (decoder : d.Local) {s : Input} {e : DecodeError}
    (failed : d.whole s = .error e) : e.Within s.pos s.stop := by
  rw [Decoder.whole] at failed
  cases run : d.run s with
  | error e' =>
    rw [run] at failed
    cases failed
    exact decoder.within run
  | ok p =>
    rw [run] at failed
    dsimp only at failed
    split at failed <;> cases failed
    obtain ⟨forward, stop⟩ := (d.reaches run).stop_eq
    rintro _ ⟨⟩
    exact ⟨forward, stop ▸ Nat.le_add_right _ _⟩

/-- A value with a size in front is local: its errors lie within its own bytes, and these
within the input. -/
theorem isolated (count : Nat) (decoder : d.Local) : (Decoder.isolated count d).Local where
  shift n s := by
    rw [Decoder.isolated, run_bind, run_bind, sub_shift]
    cases (sub count).run s with
    | error e => rfl
    | ok p =>
      simp only [ofExcept, decoder.whole_shift]
      cases d.whole p.1 <;> rfl
  within s e failed := by
    rw [Decoder.isolated, run_bind] at failed
    cases cut : (sub count).run s with
    | error e' =>
      rw [cut] at failed
      cases failed
      exact sub_within cut
    | ok p =>
      rw [cut] at failed
      obtain ⟨first, last⟩ := sub_bounds cut
      cases inner : d.whole p.1 with
      | error e' =>
        simp only [ofExcept, inner] at failed
        cases failed
        exact (decoder.whole_within inner).mono (Nat.le_of_eq first) last
      | ok a =>
        simp only [ofExcept, inner] at failed
        cases failed

/-- Many values of a kind, by induction on how many are left, whatever has been read so far. -/
theorem times (count : Nat) (decoder : d.Local) : (Decoder.times count d).Local where
  shift n s := by
    change timesFrom d count [] _ = Reading.shift n (timesFrom d count [] s)
    generalize ([] : List α) = acc
    induction count generalizing acc s with
    | zero => rfl
    | succ count ih =>
      rw [timesFrom, timesFrom, decoder.shift]
      cases d.run s with
      | error e => rfl
      | ok p => exact ih p.2 (p.1 :: acc)
  within s e failed := by
    change timesFrom d count [] s = _ at failed
    generalize ([] : List α) = acc at failed
    induction count generalizing acc s with
    | zero => cases failed
    | succ count ih =>
      rw [timesFrom] at failed
      cases run : d.run s with
      | error e' =>
        rw [run] at failed
        cases failed
        exact decoder.within run
      | ok p =>
        rw [run] at failed
        obtain ⟨forward, stop⟩ := (d.reaches run).stop_eq
        exact (ih p.2 (p.1 :: acc) failed).mono forward (Nat.le_of_eq stop)

/-! ### Numbers, counted sequences and names -/

theorem u32 : Decoder.u32.Local := (lebBytes 5).map

theorem i32 : Decoder.i32.Local := (lebBytes 5).map

theorem i64 : Decoder.i64.Local := (lebBytes 10).map

/-- A counted sequence. -/
theorem vec (decoder : d.Local) : (Decoder.vec d).Local := u32.bind fun _ => decoder.times _

theorem idx {space : IndexSpace} : (Decoder.idx : Decoder (Idx space)).Local := u32.map

theorem bytes : Decoder.bytes.Local := u32.bind fun _ => take _

/-- A name is read as bytes first. Only when these are complete are they taken for UTF-8, and if
they are none, the position in front of the count is reported. -/
theorem name_run (s : Input) : Decoder.name.run s = match Decoder.bytes.run s with
    | .error e => .error e
    | .ok (bs, t) => match String.fromUTF8? bs.toByteArray with
      | some str => .ok (str, t)
      | none => .error (.badUtf8 s.pos) := by
  rw [Decoder.name, run_bind]
  simp only [position, run_bind]
  cases Decoder.bytes.run s with
  | error e => rfl
  | ok p =>
    simp only
    cases String.fromUTF8? p.1.toByteArray <;> rfl

/-- A name is the one thing whose error reaches back to where it began. -/
theorem name : Decoder.name.Local where
  shift n s := by
    rw [name_run, name_run, bytes.shift]
    cases Decoder.bytes.run s with
    | error e => rfl
    | ok p =>
      simp only [Reading.shift]
      cases String.fromUTF8? p.1.toByteArray <;> rfl
  within s e failed := by
    rw [name_run] at failed
    cases counted : Decoder.bytes.run s with
    | error e' =>
      rw [counted] at failed
      cases failed
      exact bytes.within counted
    | ok p =>
      rw [counted] at failed
      dsimp only at failed
      split at failed <;> cases failed
      rintro _ ⟨⟩
      exact ⟨Nat.le_refl _, Nat.le_add_right _ _⟩

/-! ### Types -/

/-- A byte from a table of codes: the error for a byte that is not in it names the byte, and no
position. -/
theorem coded {decode? : UInt8 → Option α} {error : UInt8 → DecodeError}
    (none : ∀ b, (error b).pos? = none) : (Decoder.coded decode? error).Local := by
  refine byte.bind fun b => ?_
  split
  · exact pure _
  · exact fail (none b)

theorem refType : Decoder.refType.Local := coded fun _ => rfl

theorem valType : Decoder.valType.Local := coded fun _ => rfl

theorem mutability : Decoder.mutability.Local := coded fun _ => rfl

theorem funcType : Decoder.funcType.Local := by
  refine byte.bind fun form => ?_
  split
  · exact fail rfl
  · exact valType.vec.map₂ valType.vec

theorem limits : Decoder.limits.Local := by
  refine byte.bind fun flag => ?_
  split
  · exact u32.map
  · exact u32.map₂ u32
  · exact fail rfl

theorem memType : Decoder.memType.Local := limits.map

theorem tableType : Decoder.tableType.Local := refType.map₂ limits

theorem globalType : Decoder.globalType.Local := valType.map₂ mutability

/-- A block type is one number, whatever it stands for. -/
theorem blockType : Decoder.blockType.Local := by
  refine i64.bind fun i => ?_
  split
  · exact pure _
  · exact fail rfl

theorem memArg : Decoder.memArg.Local := u32.map₂ u32

/-! ### Instructions -/

theorem memIdx : Decoder.memIdx.Local := byte.map

theorem value : Decoder.value.Local := (take 16).map

theorem word (n : Nat) : (Decoder.word n).Local := (take n).map

/-- The operands of a vector instruction, for each of their shapes. -/
theorem vectorImm (shape : VectorShape) : (Decoder.vectorImm shape).Local := by
  cases shape with
  | none => exact pure _
  | memArg => exact memArg.map
  | memArgLane => exact memArg.map₂ byte
  | lane => exact byte.map
  | shuffle => exact value.map
  | const => exact value.map

/-- The instructions behind the prefix `0xfc`. -/
theorem bulkInstr : Decoder.bulkInstr.Local := by
  refine u32.bind fun n => ?_
  split
  case h_1 => exact idx.map₂ memIdx
  case h_3 => exact memIdx.map₂ memIdx
  case h_4 => exact memIdx.map
  case h_5 | h_7 => exact idx.map₂ idx
  case h_11 =>
    split
    · exact pure _
    · exact fail rfl
  all_goals exact idx.map

theorem vectorInstr : Decoder.vectorInstr.Local := by
  refine u32.bind fun n => ?_
  split
  · exact (vectorImm _).map
  · exact fail rfl

theorem tabledInstr (opcode : UInt8) : (Decoder.tabledInstr opcode).Local := by
  unfold Decoder.tabledInstr
  split
  · exact memArg.map
  · split
    · exact memArg.map
    · split
      · exact pure _
      · exact fail rfl

/-- Most instructions are an opcode and an immediate or two. -/
theorem instrBody (opcode : UInt8) : (Decoder.instrBody opcode).Local := by
  unfold Decoder.instrBody
  split
  case h_1 | h_2 | h_6 | h_7 | h_11 | h_14 | h_15 | h_31 => exact pure _
  case h_3 | h_4 | h_5 => exact blockType.map
  case h_10 => exact idx.vec.map₂ idx
  case h_13 => exact idx.map₂ idx
  case h_16 => exact valType.vec.map
  case h_24 | h_25 => exact memIdx.map
  case h_26 => exact i32.map
  case h_27 => exact i64.map
  case h_28 | h_29 => exact (word _).map
  case h_30 => exact refType.map
  case h_33 => exact bulkInstr
  case h_34 => exact vectorInstr
  case h_35 => exact tabledInstr opcode
  all_goals exact idx.map

/-- An opcode, and what belongs to it. -/
theorem instr : Decoder.instr.Local := byte.bind fun _ => instrBody _

/-- One pass through the loop that reads a sequence: it stops when the sequence is closed, and
hands each instruction on to be flattened, with the position in front of it. -/
theorem sequenceFrom_eq (f : Flattener) (s : Input) : sequenceFrom f s =
    if f.closed then .ok (f.code, s)
    else match Decoder.instr.run s with
      | .error e => .error e
      | .ok (i, t) => match f.push i with
        | .error _ => .error (.unexpectedElse s.pos)
        | .ok f => sequenceFrom f t := by
  rw [sequenceFrom]
  split
  · rfl
  · split
    · next run => exact run ▸ rfl
    · next run => exact run ▸ rfl

/-- A sequence, by induction on its passes. The position that is reported for an `else` out of
place is that of its own opcode. -/
theorem sequence : Decoder.sequence.Local where
  shift n s := by
    change sequenceFrom _ _ = Reading.shift n (sequenceFrom _ s)
    generalize Flattener.start 0 = f
    fun_induction sequenceFrom f s with
    | case1 f s closed => rw [sequenceFrom_eq, if_pos closed]; rfl
    | case2 f s opened e run => rw [sequenceFrom_eq, if_neg opened, instr.shift, run]; rfl
    | case3 f s opened i t run e pushed =>
      rw [sequenceFrom_eq, if_neg opened, instr.shift, run]
      simp only [Reading.shift, pushed]
      rfl
    | case4 f s opened i t run g pushed ih =>
      rw [sequenceFrom_eq, if_neg opened, instr.shift, run]
      simp only [Reading.shift, pushed]
      exact ih
  within s e failed := by
    change sequenceFrom _ s = _ at failed
    generalize Flattener.start 0 = f at failed
    fun_induction sequenceFrom f s with
    | case1 => cases failed
    | case2 f s opened e' run =>
      cases failed
      exact instr.within run
    | case3 f s opened i t run e' pushed =>
      cases failed
      rintro _ ⟨⟩
      exact ⟨Nat.le_refl _, Nat.le_add_right _ _⟩
    | case4 f s opened i t run g pushed ih =>
      obtain ⟨forward, stop⟩ := (Decoder.instr.reaches run).stop_eq
      exact (ih failed).mono forward (Nat.le_of_eq stop)

/-! ### The contents of sections -/

/-- What an import asks for. -/
theorem importDesc : Decoder.importDesc.Local := by
  refine byte.bind fun kind => ?_
  split
  · exact idx.map
  · exact tableType.map
  · exact memType.map
  · exact globalType.map
  · exact fail rfl

theorem importDecl : Decoder.importDecl.Local := name.bind fun _ => name.map₂ importDesc

theorem exportDesc : Decoder.exportDesc.Local := by
  refine byte.bind fun kind => ?_
  split
  case h_5 => exact fail rfl
  all_goals exact idx.map

theorem exportDecl : Decoder.exportDecl.Local := name.map₂ exportDesc

theorem global : Decoder.global.Local := globalType.map₂ sequence

theorem localGroup : Decoder.localGroup.Local := u32.map₂ valType

theorem bodyContents : Decoder.bodyContents.Local := localGroup.vec.map₂ sequence

/-- A body, behind its size. -/
theorem body : Decoder.body.Local := u32.bind fun _ => bodyContents.isolated _

theorem elemKind : Decoder.elemKind.Local := by
  refine byte.bind fun kind => ?_
  split
  · exact fail rfl
  · exact pure _

theorem elemMode (tag : Nat) : (Decoder.elemMode tag).Local := by
  unfold Decoder.elemMode
  split
  · exact sequence.map
  · exact pure _
  · exact idx.map₂ sequence
  · exact pure _

theorem elemType (tag : Nat) : (Decoder.elemType tag).Local := by
  unfold Decoder.elemType
  split
  case h_1 | h_2 => exact pure _
  case h_6 => exact refType
  all_goals exact elemKind

theorem elemItems (tag : Nat) : (Decoder.elemItems tag).Local := by
  unfold Decoder.elemItems
  split
  · exact idx.vec.map
  · exact sequence.vec.map

/-- An element segment, whose tag decides how the rest of it is read. -/
theorem elemSegment : Decoder.elemSegment.Local := by
  refine u32.bind fun tag => ?_
  split
  · exact fail rfl
  · exact (elemMode _).bind fun _ => (elemType _).map₂ (elemItems _)

theorem dataMode : Decoder.dataMode.Local := by
  refine u32.bind fun tag => ?_
  split
  · exact sequence.map
  · exact pure _
  · exact idx.map₂ sequence
  · exact fail rfl

theorem dataSegment : Decoder.dataSegment.Local := dataMode.map₂ bytes

theorem customSection : Decoder.customSection.Local := name.map₂ remaining

end Local

end Decoder

/-! ## Sections -/

namespace Section

theorem mapError_map {ε ε' α β : Type} (f : ε → ε') (g : α → β) (r : Except ε α) :
    g <$> r.mapError f = (g <$> r).mapError f := by cases r <;> rfl

/-- A section is decoded from its identifier and the bytes of its payload; where the payload
stands decides nothing but the positions that an error names. -/
theorem decode_shift (id : UInt8) (n : Nat) (payload : Input) :
    Section.decode id (payload.shift n)
      = (Section.decode id payload).mapError (DecodeError.mapPos (· + n)) := by
  unfold Section.decode
  open Decoder.Local in
  split
  case h_1 => rw [customSection.whole_shift, mapError_map]
  case h_2 => rw [funcType.vec.whole_shift, mapError_map]
  case h_3 => rw [importDecl.vec.whole_shift, mapError_map]
  case h_4 => rw [idx.vec.whole_shift, mapError_map]
  case h_5 => rw [tableType.vec.whole_shift, mapError_map]
  case h_6 => rw [memType.vec.whole_shift, mapError_map]
  case h_7 => rw [global.vec.whole_shift, mapError_map]
  case h_8 => rw [exportDecl.vec.whole_shift, mapError_map]
  case h_9 => rw [idx.whole_shift, mapError_map]
  case h_10 => rw [elemSegment.vec.whole_shift, mapError_map]
  case h_11 => rw [body.vec.whole_shift, mapError_map]
  case h_12 => rw [dataSegment.vec.whole_shift, mapError_map]
  case h_13 => rw [u32.whole_shift, mapError_map]
  case h_14 => rfl

/-- The contents of a section are wrapped up after they have been read, which adds no error. -/
theorem within_of_map {α β : Type} {d : Decoder α} (decoder : d.Local) {g : α → β} {s : Input}
    {e : DecodeError} (failed : g <$> d.whole s = .error e) : e.Within s.pos s.stop := by
  cases inner : d.whole s with
  | error e' =>
    rw [inner] at failed
    cases failed
    exact decoder.whole_within inner
  | ok a =>
    rw [inner] at failed
    cases failed

/-- The position that the error of a malformed section names lies within its payload. -/
theorem decode_within {id : UInt8} {payload : Input} {e : DecodeError}
    (failed : Section.decode id payload = .error e) : e.Within payload.pos payload.stop := by
  unfold Section.decode at failed
  open Decoder.Local in
  split at failed
  case h_1 => exact within_of_map customSection failed
  case h_2 => exact within_of_map funcType.vec failed
  case h_3 => exact within_of_map importDecl.vec failed
  case h_4 => exact within_of_map idx.vec failed
  case h_5 => exact within_of_map tableType.vec failed
  case h_6 => exact within_of_map memType.vec failed
  case h_7 => exact within_of_map global.vec failed
  case h_8 => exact within_of_map exportDecl.vec failed
  case h_9 => exact within_of_map idx failed
  case h_10 => exact within_of_map elemSegment.vec failed
  case h_11 => exact within_of_map body.vec failed
  case h_12 => exact within_of_map dataSegment.vec failed
  case h_13 => exact within_of_map u32 failed
  case h_14 => cases failed

end Section

end WasmMachine
