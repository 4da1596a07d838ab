import WasmMachine.Proofs.InstrForms

/-!
# All the ways to spell a value

A form is one of many: a number may be written with more groups than it needs.  `d.Exactly F` says
of a decoder and of a relation between values and byte strings that they agree on all inputs: what
is read has been spelled (`Finds`), and what is spelled is read, whatever follows it (`Accepts`).
Two spellings that begin the same input are then one and the same (`Decoder.Exactly.unique`).

The relations are built up like the forms in `TypeForms`, with every spelling of a number in the
place of its shortest one.
-/

namespace WasmMachine

/-! ## What is left -/

/-- What is left of an input that begins with some bytes. -/
def Input.Leaves (s : Input) (bs : List UInt8) (t : Input) : Prop :=
  s.bytes = bs ++ t.bytes ∧ t.pos = s.pos + bs.length

namespace Input.Leaves

variable {s t u : Input} {bs cs : List UInt8}

theorem nil (s : Input) : s.Leaves [] s := ⟨rfl, rfl⟩

theorem append (first : s.Leaves bs t) (second : t.Leaves cs u) : s.Leaves (bs ++ cs) u := by
  obtain ⟨bytes, pos⟩ := first
  obtain ⟨bytes', pos'⟩ := second
  refine ⟨?_, ?_⟩
  · rw [bytes, bytes', List.append_assoc]
  · rw [pos', pos, List.length_append, Nat.add_assoc]

/-- The input between two parts. -/
theorem split (both : s.Leaves (bs ++ cs) u) : ∃ t, s.Leaves bs t ∧ t.Leaves cs u := by
  obtain ⟨bytes, pos⟩ := both
  rw [List.append_assoc] at bytes
  rw [List.length_append, ← Nat.add_assoc] at pos
  exact ⟨⟨s.pos + bs.length, cs ++ u.bytes⟩, ⟨bytes, rfl⟩, ⟨rfl, pos⟩⟩

theorem eq_of_nil (none : s.Leaves [] t) : t = s := by
  obtain ⟨bytes, pos⟩ := none
  cases s
  cases t
  cases bytes
  cases pos
  rfl

/-- An input that is cut off has been the front of what was left. -/
theorem of_sub {n : Nat} {front : Input} (cut : (Decoder.sub n).run s = .ok (front, t)) :
    s.Leaves front.bytes t := by
  obtain ⟨-, length, bytes, pos⟩ := Decoder.exists_of_sub cut
  exact ⟨bytes, length.symm ▸ pos⟩

end Input.Leaves

/-! ## Items in a row -/

/-- Some items are spelled one after another. -/
inductive InRow {α : Type} (F : α → List UInt8 → Prop) : List α → List UInt8 → Prop
  | nil : InRow F [] []
  | cons {a : α} {as : List α} {x y : List UInt8} :
    F a x → InRow F as y → InRow F (a :: as) (x ++ y)

namespace InRow

variable {α : Type} {F : α → List UInt8 → Prop} {as bs : List α} {x y : List UInt8}

theorem single {a : α} (spelled : F a x) : InRow F [a] x := by
  have row := InRow.cons spelled .nil
  rwa [List.append_nil] at row

theorem split (row : InRow F (as ++ bs) x) : ∃ y z, InRow F as y ∧ InRow F bs z ∧ x = y ++ z := by
  induction as generalizing x with
  | nil => exact ⟨[], x, .nil, row, rfl⟩
  | cons a as ih =>
    cases row with
    | cons head tail =>
      obtain ⟨y, z, first, second, rfl⟩ := ih tail
      exact ⟨_, z, .cons head first, second, (List.append_assoc ..).symm⟩

/-- There are no more items than bytes if each of them takes some. -/
theorem length_le (some : ∀ a x, F a x → x ≠ []) (row : InRow F as x) : as.length ≤ x.length := by
  induction row with
  | nil => exact Nat.le_refl 0
  | @cons a as x y spelled _ ih =>
    have first := List.length_pos_iff.mpr (some a x spelled)
    rw [List.length_cons, List.length_append]
    omega

/-- An item in a row is spelled by some of the bytes. -/
theorem exists_of_mem {a : α} (row : InRow F as x) (mem : a ∈ as) :
    ∃ y, F a y ∧ y.length ≤ x.length := by
  induction row with
  | nil => cases mem
  | @cons b as x y spelled _ ih =>
    rw [List.length_append]
    rcases List.mem_cons.mp mem with rfl | later
    · exact ⟨x, spelled, Nat.le_add_right _ _⟩
    · obtain ⟨z, spelled', le⟩ := ih later
      exact ⟨z, spelled', Nat.le_add_left_of_le le⟩

end InRow

namespace Decoder

variable {α β γ : Type}

/-! ## Agreement of a decoder with a relation -/

/-- What is read off an input has been spelled there. -/
def Finds (d : Decoder α) (F : α → List UInt8 → Prop) : Prop :=
  ∀ ⦃s a t⦄, d.run s = .ok (a, t) → ∃ bs, F a bs ∧ s.Leaves bs t

/-- Some bytes are read as a value, whatever follows them. -/
def Accepts (d : Decoder α) (bs : List UInt8) (a : α) : Prop :=
  ∀ ⦃s t⦄, s.Leaves bs t → d.run s = .ok (a, t)

/-- A decoder reads what is spelled and nothing else. -/
structure Exactly (d : Decoder α) (F : α → List UInt8 → Prop) : Prop where
  finds : d.Finds F
  accepts : ∀ ⦃a bs⦄, F a bs → d.Accepts bs a

variable {d : Decoder α} {d' : Decoder β} {k : α → Decoder β} {F : α → List UInt8 → Prop}
  {G : β → List UInt8 → Prop} {P : γ → List UInt8 → Prop}

theorem Exactly.run_iff (exactly : d.Exactly F) {s t : Input} {a : α} :
    d.run s = .ok (a, t) ↔ ∃ bs, F a bs ∧ s.Leaves bs t := by
  constructor
  · exact fun run => exactly.finds run
  · rintro ⟨bs, spelled, leaves⟩
    exact exactly.accepts spelled leaves

/-- At the front of an input at most one value is spelled, and in one way. -/
theorem Exactly.unique (exactly : d.Exactly F) {a b : α} {bs cs rest rest' : List UInt8}
    (first : F a bs) (second : F b cs) (same : bs ++ rest = cs ++ rest') :
    a = b ∧ bs = cs ∧ rest = rest' := by
  have one := exactly.accepts first (s := ⟨0, bs ++ rest⟩) (t := ⟨0 + bs.length, rest⟩) ⟨rfl, rfl⟩
  have two :=
    exactly.accepts second (s := ⟨0, cs ++ rest'⟩) (t := ⟨0 + cs.length, rest'⟩) ⟨rfl, rfl⟩
  rw [same, two, Except.ok.injEq, Prod.mk.injEq, Input.mk.injEq] at one
  obtain ⟨rfl, -, rfl⟩ := one
  exact ⟨rfl, List.append_cancel_right same, rfl⟩

theorem Finds.mono {F' : α → List UInt8 → Prop} (finds : d.Finds F)
    (weaker : ∀ a bs, F a bs → F' a bs) : d.Finds F' := by
  intro s a t run
  obtain ⟨bs, spelled, leaves⟩ := finds run
  exact ⟨bs, weaker a bs spelled, leaves⟩

theorem Finds.trivially (d : Decoder α) : d.Finds fun _ _ => True := by
  intro s a t run
  obtain ⟨used, leaves⟩ := d.reaches run
  exact ⟨used, trivial, leaves⟩

/-- Two things are found in the same bytes. -/
theorem Finds.and {F' : α → List UInt8 → Prop} (finds : d.Finds F) (finds' : d.Finds F') :
    d.Finds fun a bs => F a bs ∧ F' a bs := by
  intro s a t run
  obtain ⟨bs, one, leaves⟩ := finds run
  obtain ⟨bs', two, leaves'⟩ := finds' run
  have same : bs' = bs := List.append_cancel_right (leaves'.1.symm.trans leaves.1)
  exact ⟨bs, ⟨one, same ▸ two⟩, leaves⟩

theorem Finds.pure {a : α} (spelled : F a []) : (Pure.pure a : Decoder α).Finds F := by
  intro s b t run
  cases run
  exact ⟨[], spelled, .nil s⟩

theorem Finds.fail {e : DecodeError} : (Decoder.fail e : Decoder α).Finds F := by
  intro s a t run
  cases run

/-- What follows a first part may be found knowing how that has been spelled. -/
theorem Finds.bind (first : d.Finds F)
    (next : ∀ a x, F a x → (k a).Finds fun b y => G b (x ++ y)) : (d >>= k).Finds G := by
  intro s b u run
  obtain ⟨a, t, head, tail⟩ := exists_of_bind run
  obtain ⟨x, spelled, leaves⟩ := first head
  obtain ⟨y, spelled', leaves'⟩ := next a x spelled tail
  exact ⟨x ++ y, spelled', leaves.append leaves'⟩

/-- A value that is made of one part. -/
theorem Finds.map {f : α → γ} (part : d.Finds F) (made : ∀ a x, F a x → P (f a) x) :
    (d >>= fun a => Pure.pure (f a) : Decoder γ).Finds P := by
  refine part.bind fun a x spelled => .pure ?_
  rw [List.append_nil]
  exact made a x spelled

/-- A value that is made of two parts. -/
theorem Finds.map₂ {f : α → β → γ} (first : d.Finds F) (second : d'.Finds G)
    (made : ∀ a b x y, F a x → G b y → P (f a b) (x ++ y)) :
    (d >>= fun a => d' >>= fun b => Pure.pure (f a b) : Decoder γ).Finds P :=
  first.bind fun a x spelled => second.map fun b y spelled' => made a b x y spelled spelled'

theorem Finds.timesFrom (finds : d.Finds F) {n : Nat} {acc as : List α} {s t : Input}
    (run : Decoder.timesFrom d n acc s = .ok (as, t)) :
    ∃ new bs, as = acc.reverse ++ new ∧ new.length = n ∧ InRow F new bs ∧ s.Leaves bs t := by
  induction n generalizing acc s with
  | zero =>
    cases run
    exact ⟨[], [], (List.append_nil _).symm, rfl, .nil, .nil _⟩
  | succ n ih =>
    rw [Decoder.timesFrom] at run
    split at run
    · cases run
    · next a u head =>
      obtain ⟨x, spelled, leaves⟩ := finds head
      obtain ⟨new, y, rfl, rfl, row, leaves'⟩ := ih run
      refine ⟨a :: new, x ++ y, ?_, rfl, .cons spelled row, leaves.append leaves'⟩
      rw [List.reverse_cons, List.append_assoc, List.singleton_append]

theorem Finds.times (finds : d.Finds F) (n : Nat) :
    (Decoder.times n d).Finds fun as bs => as.length = n ∧ InRow F as bs := by
  intro s as t run
  obtain ⟨new, bs, rfl, length, row, leaves⟩ := finds.timesFrom run
  exact ⟨bs, ⟨length, row⟩, leaves⟩

/-- A value that fills an input is spelled by all of it. -/
theorem Finds.whole (finds : d.Finds F) {s : Input} {a : α} (run : d.whole s = .ok a) :
    F a s.bytes := by
  obtain ⟨u, inner, filled⟩ := exists_of_whole run
  obtain ⟨bs, spelled, bytes, -⟩ := finds inner
  rwa [bytes, filled, List.append_nil]

theorem Finds.isolated (finds : d.Finds F) (n : Nat) : (Decoder.isolated n d).Finds F := by
  intro s a t run
  obtain ⟨front, cut, filled⟩ := exists_of_isolated run
  exact ⟨front.bytes, finds.whole filled, .of_sub cut⟩

namespace Accepts

variable {bs cs : List UInt8} {a : α} {b : β}

theorem of_run (run : ∀ pos rest, d.run ⟨pos, bs ++ rest⟩ = .ok (a, ⟨pos + bs.length, rest⟩)) :
    d.Accepts bs a := by
  rintro ⟨pos, bytes⟩ ⟨pos', rest⟩ leaves
  obtain ⟨rfl, rfl⟩ : bytes = bs ++ rest ∧ pos' = pos + bs.length := leaves
  exact run pos rest

theorem of_reads (reads : d.Reads bs a) (short : bs.length < UInt32.size) : d.Accepts bs a :=
  of_run (reads short)

theorem pure (a : α) : (Pure.pure a : Decoder α).Accepts [] a := by
  intro s t leaves
  rw [leaves.eq_of_nil]
  rfl

theorem bind (first : d.Accepts bs a) (second : (k a).Accepts cs b) :
    (d >>= k).Accepts (bs ++ cs) b := by
  intro s u leaves
  obtain ⟨t, before, behind⟩ := leaves.split
  rw [run_bind, first before]
  exact second behind

/-- The last part, from which the value is made. -/
theorem map {f : α → γ} (last : d.Accepts bs a) :
    (d >>= fun a => Pure.pure (f a) : Decoder γ).Accepts bs (f a) := by
  have whole := last.bind (k := fun a => Pure.pure (f a)) (.pure (f a))
  rwa [List.append_nil] at whole

end Accepts

/-- A value that is made of one part. -/
theorem Exactly.map {f : α → γ} (part : d.Exactly F) :
    (d >>= fun a => Pure.pure (f a) : Decoder γ).Exactly fun c bs => ∃ a, F a bs ∧ c = f a where
  finds := part.finds.map fun a x spelled => ⟨a, spelled, rfl⟩
  accepts := by
    rintro _ bs ⟨a, spelled, rfl⟩
    exact (part.accepts spelled).map

/-- A value that is made of two parts. -/
theorem Exactly.map₂ {f : α → β → γ} (first : d.Exactly F) (second : d'.Exactly G) :
    (d >>= fun a => d' >>= fun b => Pure.pure (f a b) : Decoder γ).Exactly
      fun c bs => ∃ a b x y, F a x ∧ G b y ∧ bs = x ++ y ∧ c = f a b where
  finds := first.finds.map₂ second.finds fun a b x y spelled spelled' =>
    ⟨a, b, x, y, spelled, spelled', rfl, rfl⟩
  accepts := by
    rintro _ _ ⟨a, b, x, y, spelled, spelled', rfl, rfl⟩
    exact (first.accepts spelled).bind (second.accepts spelled').map

theorem Exactly.congr {F' : α → List UInt8 → Prop} (exactly : d.Exactly F)
    (same : ∀ a bs, F a bs ↔ F' a bs) : d.Exactly F' where
  finds := exactly.finds.mono fun a bs => (same a bs).mp
  accepts a bs spelled := exactly.accepts ((same a bs).mpr spelled)

/-! ## Bytes -/

namespace Exactly

theorem byte : Decoder.byte.Exactly fun b bs => bs = [b] where
  finds := by
    rintro ⟨pos, _ | ⟨b, bs⟩⟩ a t run
    · cases run
    · cases run
      exact ⟨[b], rfl, rfl, rfl⟩
  accepts := by
    rintro b _ rfl
    exact .of_run fun _ _ => rfl

theorem take (n : Nat) : (Decoder.take n).Exactly fun a bs => a = bs ∧ bs.length = n where
  finds := by
    intro s a t run
    obtain ⟨front, u, cut, same⟩ := exists_of_bind run
    cases same
    exact ⟨front.bytes, ⟨rfl, (exists_of_sub cut).2.1⟩, .of_sub cut⟩
  accepts := by
    rintro bs _ ⟨rfl, rfl⟩
    refine .of_run fun pos rest => ?_
    rw [Decoder.take, run_bind, Reads.sub_run]
    rfl

/-! ## Numbers -/

theorem lebBytes {max : Nat} (small : max < UInt32.size) :
    (Decoder.lebBytes max).Exactly fun a bs => a = bs ∧ Leb128.Ends bs ∧ bs.length ≤ max where
  finds := by
    intro s a t run
    have bytes := List.takeWhile_append_dropWhile (p := Leb128.continues) (l := s.bytes)
    simp only [Decoder.lebBytes] at run
    split at run
    · cases run
    · next last rest more =>
      rw [more] at bytes
      split at run
      · cases run
      · next short =>
        cases run
        have done : Leb128.continues last = false := by
          have stop := List.head?_dropWhile_not Leb128.continues s.bytes
          rw [more] at stop
          exact stop
        refine ⟨_, ⟨rfl, ⟨_, last, rfl, ?_, done⟩, ?_⟩, ?_, ?_⟩
        · intro b mem
          exact List.all_eq_true.mp List.all_takeWhile b mem
        · rw [List.length_append, List.length_singleton]
          omega
        · rw [List.append_assoc]
          exact bytes.symm
        · rw [List.length_append, List.length_singleton, ← Nat.add_assoc]
  accepts := by
    rintro bs _ ⟨rfl, ends, fits⟩
    exact .of_reads (.lebBytes ends fits) (Nat.lt_of_le_of_lt fits small)

end Exactly

end Decoder

namespace Leb128

/-- A number of 32 bits, in at most five groups. -/
def SpellsU32 (n : UInt32) (bs : List UInt8) : Prop :=
  Ends bs ∧ bs.length ≤ 5 ∧ UInt32.ofNat (unsigned bs) = n

/-- A number of 32 bits with a sign. -/
def SpellsI32 (n : Int32) (bs : List UInt8) : Prop :=
  Ends bs ∧ bs.length ≤ 5 ∧ Int32.ofInt (signed bs) = n

/-- A number of 64 bits with a sign, in at most ten groups. -/
def SpellsI64 (n : Int64) (bs : List UInt8) : Prop :=
  Ends bs ∧ bs.length ≤ 10 ∧ Int64.ofInt (signed bs) = n

end Leb128

/-! ## The spellings of immediates and types -/

section Forms

open Leb128

def Idx.Spelled {space : IndexSpace} (i : Idx space) (bs : List UInt8) : Prop :=
  SpellsU32 i.val bs

/-- The index of a memory is one byte. -/
def MemIdx.Spelled (mem : MemIdx) (bs : List UInt8) : Prop :=
  ∃ b : UInt8, bs = [b] ∧ mem.val = b.toUInt32

/-- A count, then the items. -/
def SpelledVec {α : Type} (F : α → List UInt8 → Prop) (as : List α) (bs : List UInt8) : Prop :=
  ∃ n x y, SpellsU32 n x ∧ n.toNat = as.length ∧ InRow F as y ∧ bs = x ++ y

/-- There are no more items than bytes if each of them takes some. -/
theorem SpelledVec.length_le {α : Type} {F : α → List UInt8 → Prop} {as : List α}
    {bs : List UInt8}
    (some : ∀ a x, F a x → x ≠ []) (spelled : SpelledVec F as bs) : as.length ≤ bs.length := by
  obtain ⟨n, x, y, -, -, row, rfl⟩ := spelled
  rw [List.length_append]
  exact Nat.le_add_left_of_le (row.length_le some)

def MemArg.Spelled (arg : MemArg) (bs : List UInt8) : Prop :=
  ∃ x y, SpellsU32 arg.align x ∧ SpellsU32 arg.offset y ∧ bs = x ++ y

/-- The number that stands for a block type. -/
def BlockType.number : BlockType → Int
  | .empty => -64
  | .val type => type.toByte.toNat - 128
  | .typeIndex idx => idx.toNat

def BlockType.Spelled (type : BlockType) (bs : List UInt8) : Prop :=
  ∃ n, SpellsI64 n bs ∧ n.toInt = type.number

/-- A value is sixteen bytes. -/
def Value.Spelled (v : Value) (bs : List UInt8) : Prop := bs.length = 16 ∧ v = .ofBytes bs

def F32.Spelled (x : F32) (bs : List UInt8) : Prop :=
  bs.length = 4 ∧ x = ⟨(ofLeBytes bs).toUInt32⟩

def F64.Spelled (x : F64) (bs : List UInt8) : Prop := bs.length = 8 ∧ x = ⟨ofLeBytes bs⟩

end Forms

theorem RefType.ofByte?_eq_some_iff {type : RefType} {b : UInt8} :
    RefType.ofByte? b = some type ↔ b = type.toByte := by
  constructor
  · intro found
    unfold RefType.ofByte? at found
    split at found <;> cases found <;> rfl
  · rintro rfl
    exact type.ofByte?_toByte

theorem ValType.ofByte?_eq_some_iff {type : ValType} {b : UInt8} :
    ValType.ofByte? b = some type ↔ b = type.toByte := by
  constructor
  · intro found
    unfold ValType.ofByte? at found
    split at found
    case h_6 =>
      obtain ⟨ref, inner, rfl⟩ := Option.map_eq_some_iff.mp found
      exact RefType.ofByte?_eq_some_iff.mp inner
    all_goals
      cases found
      rfl
  · rintro rfl
    exact type.ofByte?_toByte

theorem BlockType.ofInt?_eq_some_iff {type : BlockType} {i : Int} :
    BlockType.ofInt? i = some type ↔ i = type.number := by
  constructor
  · intro found
    unfold BlockType.ofInt? at found
    split at found
    · next empty =>
      cases found
      exact eq_of_beq empty
    · split at found
      · cases found
      · split at found
        · next negative =>
          obtain ⟨val, byte, rfl⟩ := Option.map_eq_some_iff.mp found
          rw [BlockType.number, ← ValType.ofByte?_eq_some_iff.mp byte, UInt8.ofInt,
            UInt8.toNat_ofNat']
          omega
        · split at found
          · cases found
            have same : (UInt32.ofNat i.toNat).toNat = i.toNat :=
              UInt32.toNat_ofNat_of_lt' (by omega)
            change i = ((UInt32.ofNat i.toNat).toNat : Int)
            omega
          · cases found
  · rintro rfl
    cases type with
    | empty => rfl
    | val type =>
      cases type with
      | ref type => cases type <;> rfl
      | _ => rfl
    | typeIndex idx =>
      have bound := idx.toNat_lt
      rw [UInt32.size] at bound
      have back : UInt32.ofNat (idx.toNat : Int).toNat = idx.val := UInt32.ofNat_toNat
      rw [BlockType.number, BlockType.ofInt?, if_neg (by simp), if_neg (by omega),
        if_neg (by omega), if_pos (by rw [UInt32.size]; omega), back]

namespace Decoder

open Leb128

variable {α : Type} {d : Decoder α} {F : α → List UInt8 → Prop}

namespace Exactly

theorem leb {max : Nat} (small : max < UInt32.size) (f : List UInt8 → α) :
    (Decoder.lebBytes max >>= fun bs => Pure.pure (f bs) : Decoder α).Exactly
      fun a bs => Ends bs ∧ bs.length ≤ max ∧ f bs = a :=
  (lebBytes small).map.congr fun a bs => by
    constructor
    · rintro ⟨_, ⟨rfl, ends, fits⟩, rfl⟩
      exact ⟨ends, fits, rfl⟩
    · rintro ⟨ends, fits, rfl⟩
      exact ⟨bs, ⟨rfl, ends, fits⟩, rfl⟩

theorem u32 : Decoder.u32.Exactly SpellsU32 := Decoder.u32_eq ▸ leb (by decide) _

theorem i32 : Decoder.i32.Exactly SpellsI32 := Decoder.i32_eq ▸ leb (by decide) _

theorem i64 : Decoder.i64.Exactly SpellsI64 := Decoder.i64_eq ▸ leb (by decide) _

theorem idx {space : IndexSpace} : (Decoder.idx : Decoder (Idx space)).Exactly Idx.Spelled :=
  u32.map.congr fun i bs => by
    constructor
    · rintro ⟨n, spelled, rfl⟩
      exact spelled
    · intro spelled
      exact ⟨i.val, spelled, rfl⟩

end Exactly

/-- Items that are read one after another are spelled in a row behind their number. -/
theorem Finds.vec (finds : d.Finds F) : (Decoder.vec d).Finds (SpelledVec F) :=
  Exactly.u32.finds.bind fun n x spelled => (finds.times n.toNat).mono fun _ y row =>
    ⟨n, x, y, spelled, row.1.symm, row.2, rfl⟩

namespace Exactly

theorem timesFrom_accepts (exactly : d.Exactly F) {new : List α} {bs : List UInt8}
    (row : InRow F new bs) {acc : List α} {s t : Input} (leaves : s.Leaves bs t) :
    timesFrom d new.length acc s = .ok (acc.reverse ++ new, t) := by
  induction row generalizing acc s with
  | nil =>
    rw [leaves.eq_of_nil, List.append_nil]
    rfl
  | @cons a as x y spelled row ih =>
    obtain ⟨u, before, behind⟩ := leaves.split
    have rest := @ih (a :: acc) u behind
    rw [List.reverse_cons, List.append_assoc, List.singleton_append] at rest
    rw [List.length_cons, timesFrom, exactly.accepts spelled before]
    exact rest

theorem times (exactly : d.Exactly F) (n : Nat) :
    (Decoder.times n d).Exactly fun as bs => as.length = n ∧ InRow F as bs where
  finds := exactly.finds.times n
  accepts := by
    rintro as bs ⟨rfl, row⟩ s t leaves
    exact exactly.timesFrom_accepts row leaves

theorem vec (exactly : d.Exactly F) : (Decoder.vec d).Exactly (SpelledVec F) where
  finds := exactly.finds.vec
  accepts := by
    rintro as _ ⟨n, x, y, spelled, length, row, rfl⟩
    exact (u32.accepts spelled).bind ((exactly.times n.toNat).accepts ⟨length.symm, row⟩)

theorem memArg : Decoder.memArg.Exactly MemArg.Spelled :=
  (u32.map₂ u32).congr fun arg bs => by
    constructor
    · rintro ⟨align, offset, x, y, spelled, spelled', rfl, rfl⟩
      exact ⟨x, y, spelled, spelled', rfl⟩
    · rintro ⟨x, y, spelled, spelled', rfl⟩
      exact ⟨arg.align, arg.offset, x, y, spelled, spelled', rfl, rfl⟩

theorem memIdx : Decoder.memIdx.Exactly MemIdx.Spelled :=
  byte.map.congr fun mem bs => by
    constructor
    · rintro ⟨b, rfl, rfl⟩
      exact ⟨b, rfl, rfl⟩
    · rintro ⟨b, rfl, same⟩
      exact ⟨b, rfl, by rw [← same]⟩

theorem word (n : Nat) :
    (Decoder.word n).Exactly fun w bs => bs.length = n ∧ w = ofLeBytes bs :=
  (take n).map.congr fun w bs => by
    constructor
    · rintro ⟨_, ⟨rfl, length⟩, same⟩
      exact ⟨length, same⟩
    · rintro ⟨length, same⟩
      exact ⟨bs, ⟨rfl, length⟩, same⟩

theorem value : Decoder.value.Exactly Value.Spelled :=
  (take 16).map.congr fun v bs => by
    constructor
    · rintro ⟨_, ⟨rfl, length⟩, same⟩
      exact ⟨length, same⟩
    · rintro ⟨length, same⟩
      exact ⟨bs, ⟨rfl, length⟩, same⟩

/-- One byte that stands for something. -/
theorem coded {decode? : UInt8 → Option α} {error : UInt8 → DecodeError} {code : α → UInt8}
    (stands : ∀ a b, decode? b = some a ↔ b = code a) :
    (Decoder.coded decode? error).Exactly fun a bs => bs = [code a] where
  finds := by
    refine byte.finds.bind ?_
    rintro b _ rfl
    cases found : decode? b with
    | none => exact .fail
    | some a =>
      refine .pure ?_
      rw [(stands a b).mp found]
      rfl
  accepts := by
    rintro a _ rfl s t leaves
    rw [Decoder.coded, run_bind, byte.accepts rfl leaves]
    dsimp only
    rw [(stands a (code a)).mpr rfl]
    rfl

theorem refType : Decoder.refType.Exactly fun type bs => bs = [type.toByte] :=
  coded fun _ _ => RefType.ofByte?_eq_some_iff

theorem valType : Decoder.valType.Exactly fun type bs => bs = type.encode :=
  coded fun _ _ => ValType.ofByte?_eq_some_iff

theorem blockType : Decoder.blockType.Exactly BlockType.Spelled where
  finds := by
    refine i64.finds.bind ?_
    intro n x spelled
    cases found : BlockType.ofInt? n.toInt with
    | none => exact .fail
    | some type =>
      refine .pure ?_
      rw [List.append_nil]
      exact ⟨n, spelled, BlockType.ofInt?_eq_some_iff.mp found⟩
  accepts := by
    rintro type bs ⟨n, spelled, same⟩ s t leaves
    have found := BlockType.ofInt?_eq_some_iff.mpr same
    rw [Decoder.blockType, run_bind, i64.accepts spelled leaves]
    dsimp only
    rw [found]
    rfl

end Exactly

end Decoder

end WasmMachine
