import Mathlib.Data.List.Induction
import Mathlib.Data.List.Perm.Basic
import WasmMachine.Proofs.DecodedModule
import WasmMachine.Proofs.Numbers
import WasmMachine.Proofs.Positions

/-!
# A module is made of its sections, each by itself

A `SectionFrame` is a section as it stands in a module: its identifier, its size in whatever form,
and as many bytes.  A row of frames behind the header is decoded frame by frame; the first
malformed one decides the error, and if there is none, the module is built from the last contents
of each kind and from all custom sections in order (`Sections.ofLast`).  So the order of sections
of different standard kinds does not matter, and a custom section can be put between any two
others (`Module.decode_frames`).
-/

namespace WasmMachine

/-! ## Kinds -/

/-- The byte of the kind of a section. -/
def Section.id : Section → UInt8
  | .custom _ => 0
  | .types _ => 1
  | .imports _ => 2
  | .funcs _ => 3
  | .tables _ => 4
  | .memories _ => 5
  | .globals _ => 6
  | .exports _ => 7
  | .start _ => 8
  | .elems _ => 9
  | .bodies _ => 10
  | .datas _ => 11
  | .dataCount _ => 12

/-- An identifier from 1 to 12 is that of the contents; all others make custom sections. -/
theorem Section.id_of_decode {id : UInt8} {payload : Input} {c : Section}
    (known : Section.decode id payload = .ok c) : c.id = if 12 < id then 0 else id := by
  unfold Section.decode at known
  split at known
  case h_14 =>
    cases known
    rw [if_pos]
    · rfl
    · grind
  all_goals
    obtain ⟨items, -, rfl⟩ := Except.exists_of_map known
    rfl

/-! ## Contents -/

/-- The last of what is picked out of some contents. -/
def Section.last? {α : Type} (pick : Section → Option α) (cs : List Section) : Option α :=
  (cs.filterMap pick).getLast?

/-- Of each standard kind the last contents, and all custom sections. -/
def Sections.ofLast (cs : List Section) : Sections where
  types := (Section.last? (fun | .types xs => some xs | _ => none) cs).getD []
  imports := (Section.last? (fun | .imports xs => some xs | _ => none) cs).getD []
  funcs := (Section.last? (fun | .funcs xs => some xs | _ => none) cs).getD []
  tables := (Section.last? (fun | .tables xs => some xs | _ => none) cs).getD []
  memories := (Section.last? (fun | .memories xs => some xs | _ => none) cs).getD []
  globals := (Section.last? (fun | .globals xs => some xs | _ => none) cs).getD []
  exports := (Section.last? (fun | .exports xs => some xs | _ => none) cs).getD []
  start := Section.last? (fun | .start f => some f | _ => none) cs
  elems := (Section.last? (fun | .elems xs => some xs | _ => none) cs).getD []
  bodies := (Section.last? (fun | .bodies xs => some xs | _ => none) cs).getD []
  datas := (Section.last? (fun | .datas xs => some xs | _ => none) cs).getD []
  dataCount := Section.last? (fun | .dataCount n => some n | _ => none) cs
  custom := cs.filterMap fun | .custom c => some c | _ => none

theorem Section.last?_append {α : Type} (pick : Section → Option α) (cs : List Section)
    (c : Section) : last? pick (cs ++ [c]) = (pick c).or (last? pick cs) := by
  rw [last?, last?, List.filterMap_append, List.getLast?_append]
  cases picked : pick c with
  | none => simp [List.filterMap_cons_none picked]
  | some a => simp [List.filterMap_cons_some picked]

/-- To add one section after another is to keep the last of each kind. -/
theorem Sections.foldl_add (cs : List Section) : cs.foldl Sections.add {} = .ofLast cs := by
  induction cs using List.reverseRecOn with
  | nil => rfl
  | append_singleton cs c ih =>
    rw [List.foldl_append, ih, List.foldl_cons, List.foldl_nil]
    simp only [ofLast, Section.last?_append, List.filterMap_append]
    cases c <;> simp [add]

theorem Section.filterMap_congr {α : Type} {pick : Section → Option α} {id : UInt8}
    {cs cs' : List Section} (kind : ∀ c, pick c ≠ none → c.id = id)
    (same : cs.filter (·.id == id) = cs'.filter (·.id == id)) :
    cs.filterMap pick = cs'.filterMap pick := by
  have picked (cs : List Section) :
      cs.filterMap pick = (cs.filter (·.id == id)).filterMap pick := by
    rw [List.filterMap_filter]
    refine List.filterMap_congr fun c _ => ?_
    by_cases here : c.id = id
    · simp [here]
    · simp [here, not_imp_comm.mp (kind c) here]
  rw [picked cs, same, ← picked cs']

/-- What is kept is decided by the contents of each kind, in their order. -/
theorem Sections.ofLast_congr {cs cs' : List Section}
    (same : ∀ id, cs.filter (·.id == id) = cs'.filter (·.id == id)) : ofLast cs = ofLast cs' := by
  have picked {α : Type} {pick : Section → Option α} (id : UInt8)
      (kind : ∀ c, pick c ≠ none → c.id = id) : cs.filterMap pick = cs'.filterMap pick :=
    Section.filterMap_congr kind (same id)
  simp only [ofLast, Section.last?]
  congr 1
  case e_types => rw [picked 1 (by rintro ⟨⟩ <;> simp [Section.id])]
  case e_imports => rw [picked 2 (by rintro ⟨⟩ <;> simp [Section.id])]
  case e_funcs => rw [picked 3 (by rintro ⟨⟩ <;> simp [Section.id])]
  case e_tables => rw [picked 4 (by rintro ⟨⟩ <;> simp [Section.id])]
  case e_memories => rw [picked 5 (by rintro ⟨⟩ <;> simp [Section.id])]
  case e_globals => rw [picked 6 (by rintro ⟨⟩ <;> simp [Section.id])]
  case e_exports => rw [picked 7 (by rintro ⟨⟩ <;> simp [Section.id])]
  case e_start => rw [picked 8 (by rintro ⟨⟩ <;> simp [Section.id])]
  case e_elems => rw [picked 9 (by rintro ⟨⟩ <;> simp [Section.id])]
  case e_bodies => rw [picked 10 (by rintro ⟨⟩ <;> simp [Section.id])]
  case e_datas => rw [picked 11 (by rintro ⟨⟩ <;> simp [Section.id])]
  case e_dataCount => rw [picked 12 (by rintro ⟨⟩ <;> simp [Section.id])]
  case e_custom => exact picked 0 (by rintro ⟨⟩ <;> simp [Section.id])

/-! ## Frames -/

/-- A frame is read in three parts. -/
theorem Decoder.framed_eq (s : Input) : framed.run s = match byte.run s with
    | .error e => .error e
    | .ok (id, t) => match u32.run t with
      | .error e => .error e
      | .ok (count, u) => match (sub count.toNat).run u with
        | .error e => .error e
        | .ok (payload, v) => .ok ((id, payload), v) := by
  rw [framed, run_bind]
  rcases byte.run s with e | ⟨id, t⟩
  · rfl
  · simp only [run_bind]
    rcases u32.run t with e | ⟨count, u⟩
    · rfl
    · simp only
      rcases (sub count.toNat).run u with e | ⟨payload, v⟩ <;> rfl

/-- A section as it stands in a module: its identifier, its size as a LEB128 number of up to five
bytes, the shortest or not, and as many bytes. -/
structure SectionFrame where
  id : UInt8
  size : List UInt8
  payload : List UInt8
  ends : Leb128.Ends size
  short : size.length ≤ 5
  counts : Leb128.unsigned size % UInt32.size = payload.length

namespace SectionFrame

variable (f : SectionFrame)

/-- The bytes of the section. -/
def bytes : List UInt8 := f.id :: (f.size ++ f.payload)

/-- Whether the section is a custom one. -/
def isCustom : Bool := f.id == 0 || 12 < f.id

/-- What the section says if its payload begins at a position. -/
def decodeAt (pos : Nat) : Except DecodeError Section := Section.decode f.id ⟨pos, f.payload⟩

/-- What the section says, unless it is malformed. -/
def contents? : Option Section := (f.decodeAt 0).toOption

/-- Where the payload begins in a section that begins at a position. -/
def inner (pos : Nat) : Nat := pos + 1 + f.size.length

/-- The bytes of a module: the header, and then a row of sections. -/
def moduleBytes (row : List SectionFrame) : List UInt8 :=
  [0x00, 0x61, 0x73, 0x6d, 0x01, 0x00, 0x00, 0x00] ++ row.flatMap bytes

variable {f}

theorem length_bytes : f.bytes.length = 1 + f.size.length + f.payload.length := by
  rw [bytes, List.length_cons, List.length_append]
  omega

/-- The position of a section shows in its errors alone. -/
theorem decodeAt_eq (pos : Nat) :
    f.decodeAt pos = (f.decodeAt 0).mapError (DecodeError.mapPos (· + pos)) := by
  have moved := Section.decode_shift f.id pos ⟨0, f.payload⟩
  rwa [Input.shift, Nat.zero_add] at moved

theorem decodeAt_eq_ok {c : Section} {pos : Nat} :
    f.decodeAt pos = .ok c ↔ f.contents? = some c := by
  rw [decodeAt_eq, contents?]
  cases f.decodeAt 0 <;> simp [Except.mapError, Except.toOption]

theorem framed_run (pos : Nat) (rest : List UInt8) :
    Decoder.framed.run ⟨pos, f.bytes ++ rest⟩
      = .ok ((f.id, ⟨f.inner pos, f.payload⟩), ⟨pos + f.bytes.length, rest⟩) := by
  have few : f.size.length < UInt32.size := Nat.lt_of_le_of_lt f.short (by decide)
  have sized := (Decoder.Reads.lebBytes f.ends f.short).map
    (f := fun bs => UInt32.ofNat (Leb128.unsigned bs)) few (pos + 1) (f.payload ++ rest)
  have count : (UInt32.ofNat (Leb128.unsigned f.size)).toNat = f.payload.length :=
    UInt32.toNat_ofNat'.trans f.counts
  have cut := Decoder.Reads.sub_run f.payload rest (f.inner pos)
  rw [inner] at cut
  have first : Decoder.byte.run ⟨pos, f.id :: (f.size ++ (f.payload ++ rest))⟩
      = .ok (f.id, ⟨pos + 1, f.size ++ (f.payload ++ rest)⟩) := rfl
  rw [length_bytes, bytes, List.cons_append, List.append_assoc, Decoder.framed_eq, first,
    Decoder.u32_eq]
  simp only [sized, count, cut]
  rw [inner, ← Nat.add_assoc, ← Nat.add_assoc]

end SectionFrame

/-! ## Rows of frames -/

namespace Decoder

theorem sectionsFrom_eq (acc : Sections) (s : Input) : sectionsFrom acc s =
    if s.bytes.isEmpty then .ok acc
    else match framed.run s with
      | .error e => .error e
      | .ok ((id, payload), t) => match Section.decode id payload with
        | .error e => .error e
        | .ok contents => sectionsFrom (acc.add contents) t := by
  rw [sectionsFrom]
  split
  · rfl
  · split
    · next run => exact run ▸ rfl
    · next run => exact run ▸ rfl

variable {f : SectionFrame} {acc : Sections} {pos : Nat} {rest : List UInt8}

theorem sectionsFrom_frame : sectionsFrom acc ⟨pos, f.bytes ++ rest⟩ =
    match f.decodeAt (f.inner pos) with
    | .error e => .error e
    | .ok c => sectionsFrom (acc.add c) ⟨pos + f.bytes.length, rest⟩ := by
  rw [sectionsFrom_eq, if_neg (by simp [SectionFrame.bytes]), SectionFrame.framed_run]
  rfl

/-- Sections that are all well formed are added one after the other. -/
theorem sectionsFrom_frames {row : List SectionFrame} {cs : List Section}
    (known : row.map SectionFrame.contents? = cs.map some) :
    sectionsFrom acc ⟨pos, row.flatMap SectionFrame.bytes ++ rest⟩ =
      sectionsFrom (cs.foldl Sections.add acc)
        ⟨pos + (row.flatMap SectionFrame.bytes).length, rest⟩ := by
  induction row generalizing acc pos cs with
  | nil =>
    rcases cs with _ | ⟨c, cs⟩
    · rfl
    · cases known
  | cons f row ih =>
    rcases cs with _ | ⟨c, cs⟩
    · cases known
    · obtain ⟨here, later⟩ := List.cons.inj known
      rw [List.flatMap_cons, List.append_assoc, sectionsFrom_frame,
        SectionFrame.decodeAt_eq_ok.mpr here]
      simp only [ih later, List.length_append, Nat.add_assoc, List.foldl_cons]

/-- The first malformed section decides the error. -/
theorem sectionsFrom_malformed {before after : List SectionFrame} {cs : List Section}
    {e : DecodeError} (known : before.map SectionFrame.contents? = cs.map some)
    (failed : f.decodeAt (f.inner (pos + (before.flatMap SectionFrame.bytes).length)) =
      .error e) :
    sectionsFrom acc ⟨pos, (before ++ f :: after).flatMap SectionFrame.bytes ++ rest⟩
      = .error e := by
  rw [List.flatMap_append, List.append_assoc, sectionsFrom_frames known, List.flatMap_cons,
    List.append_assoc, sectionsFrom_frame, failed]

/-! ### Where a row stands -/

theorem framed_shift (n : Nat) (s : Input) : framed.run (s.shift n) = match framed.run s with
    | .error e => .error (e.mapPos (· + n))
    | .ok ((id, payload), t) => .ok ((id, payload.shift n), t.shift n) := by
  rw [framed_eq, framed_eq, Local.byte.shift]
  cases byte.run s with
  | error e => rfl
  | ok p =>
    simp only [Reading.shift, Local.u32.shift]
    cases u32.run p.2 with
    | error e => rfl
    | ok q =>
      simp only [Local.sub_shift]
      cases (sub q.1.toNat).run q.2 <;> rfl

/-- A frame begins with a byte that is there, so that no error is reported at its beginning, and
its payload lies behind it. -/
theorem framed_within {s : Input} (more : s.bytes.isEmpty = false) :
    match framed.run s with
    | .error e => e.Within (s.pos + 1) s.stop
    | .ok ((_, payload), _) => s.pos + 1 ≤ payload.pos ∧ payload.stop ≤ s.stop := by
  rcases s with ⟨pos, _ | ⟨b, bs⟩⟩
  · cases more
  · have first : byte.run ⟨pos, b :: bs⟩ = .ok (b, ⟨pos + 1, bs⟩) := rfl
    have stop : (⟨pos + 1, bs⟩ : Input).stop = (⟨pos, b :: bs⟩ : Input).stop := by
      rw [Input.stop, Input.stop, List.length_cons, Nat.add_right_comm, Nat.add_assoc]
    rw [framed_eq, first, ← stop]
    cases sized : u32.run ⟨pos + 1, bs⟩ with
    | error e => simpa only [sized] using Local.u32.within sized
    | ok q =>
      obtain ⟨forward, same⟩ := (u32.reaches sized).stop_eq
      cases cut : (sub q.1.toNat).run q.2 with
      | error e =>
        simpa only [sized, cut] using (Local.sub_within cut).mono forward (Nat.le_of_eq same)
      | ok r =>
        obtain ⟨begins, ends⟩ := Local.sub_bounds cut
        simpa only [sized, cut, ← begins, ← same] using And.intro forward ends

/-- A row of sections is decoded to the same wherever it stands. -/
theorem sectionsFrom_shift (acc : Sections) (n : Nat) (s : Input) :
    sectionsFrom acc (s.shift n)
      = (sectionsFrom acc s).mapError (DecodeError.mapPos (· + n)) := by
  fun_induction sectionsFrom acc s with
  | case1 acc s empty =>
    rw [sectionsFrom_eq, if_pos (show (s.shift n).bytes.isEmpty from empty)]; rfl
  | case2 acc s more e run =>
    rw [sectionsFrom_eq, if_neg (show ¬(s.shift n).bytes.isEmpty from more), framed_shift, run]
    rfl
  | case3 acc s more id payload t run e failed =>
    rw [sectionsFrom_eq, if_neg (show ¬(s.shift n).bytes.isEmpty from more), framed_shift, run]
    simp only [Section.decode_shift, failed]
    rfl
  | case4 acc s more id payload t run c known ih =>
    rw [sectionsFrom_eq, if_neg (show ¬(s.shift n).bytes.isEmpty from more), framed_shift, run]
    simp only [Section.decode_shift, known]
    exact ih

theorem sectionsFrom_within {s : Input} {e : DecodeError}
    (failed : sectionsFrom acc s = .error e) : e.Within (s.pos + 1) s.stop := by
  fun_induction sectionsFrom acc s with
  | case1 => cases failed
  | case2 acc s more e' run =>
    cases failed
    have within := framed_within (Bool.eq_false_iff.mpr more)
    rwa [run] at within
  | case3 acc s more id payload t run e' malformed =>
    cases failed
    have bounds := framed_within (Bool.eq_false_iff.mpr more)
    rw [run] at bounds
    exact (Section.decode_within malformed).mono bounds.1 bounds.2
  | case4 acc s more id payload t run c known ih =>
    obtain ⟨forward, stop⟩ := (framed.reaches run).stop_eq
    exact (ih failed).mono (Nat.add_le_add_right forward 1) (Nat.le_of_eq stop)

end Decoder

/-! ### Custom sections -/

/-- The same sections with some custom ones in front. -/
def Sections.behind (xs : List CustomSection) (s : Sections) : Sections :=
  { s with custom := xs ++ s.custom }

theorem Sections.behind_add (xs : List CustomSection) (s : Sections) (c : Section) :
    (s.behind xs).add c = (s.add c).behind xs := by
  cases c with
  | custom c => simp [add, behind]
  | _ => rfl

/-- Custom sections do not show in the decoding of those behind them. -/
theorem Decoder.sectionsFrom_behind (xs : List CustomSection) (acc : Sections) (s : Input) :
    sectionsFrom (acc.behind xs) s = (sectionsFrom acc s).map (Sections.behind xs) := by
  fun_induction sectionsFrom acc s with
  | case1 acc s empty => rw [sectionsFrom_eq, if_pos empty]; rfl
  | case2 acc s more e run => rw [sectionsFrom_eq, if_neg more, run]; rfl
  | case3 acc s more id payload t run e failed =>
    rw [sectionsFrom_eq, if_neg more, run]
    simp only [failed]
    rfl
  | case4 acc s more id payload t run c known ih =>
    rw [sectionsFrom_eq, if_neg more, run]
    simp only [known, Sections.behind_add]
    exact ih

/-- A module has the custom sections of its sections, and they show in nothing else. -/
theorem Sections.build_custom (s : Sections) (xs : List CustomSection) :
    { s with custom := xs }.build = s.build.map fun m => { m with custom := xs } := by
  have same : { s with custom := xs }.defects = s.defects := rfl
  rw [build_eq, build_eq, same]
  cases s.defects <;> rfl

/-! ## Modules in frames -/

open SectionFrame (moduleBytes)

theorem Module.decode_moduleBytes (row : List SectionFrame) (rest : List UInt8) :
    Module.decode (moduleBytes row ++ rest)
      = Decoder.sectionsFrom {} ⟨8, row.flatMap SectionFrame.bytes ++ rest⟩ >>=
        fun s => s.build.mapError .module := by
  have head : Decoder.header.run ⟨0, moduleBytes row ++ rest⟩
      = .ok ((), ⟨8, row.flatMap SectionFrame.bytes ++ rest⟩) := rfl
  rw [Module.decode, head]
  dsimp only [bind, Except.bind]
  cases Decoder.sectionsFrom {} ⟨8, row.flatMap SectionFrame.bytes ++ rest⟩ with
  | error e => rfl
  | ok s => cases built : s.build <;> simp only [built] <;> rfl

theorem SectionFrame.length_moduleBytes (row : List SectionFrame) :
    (moduleBytes row).length = 8 + (row.flatMap bytes).length := by
  rw [moduleBytes, List.length_append]
  rfl

namespace SectionFrame

variable {row : List SectionFrame}

theorem map_contents? (sound : ∀ f ∈ row, f.contents? ≠ none) :
    row.map contents? = (row.filterMap contents?).map some := by
  induction row with
  | nil => rfl
  | cons f row ih =>
    rcases Option.ne_none_iff_exists'.mp (sound f List.mem_cons_self) with ⟨c, known⟩
    rw [List.filterMap_cons_some known, List.map_cons, List.map_cons, known,
      ih fun g mem => sound g (.tail f mem)]

/-- In a row, everything is well formed, or there is a first malformed section. -/
theorem sound_or_malformed (row : List SectionFrame) :
    (∀ f ∈ row, f.contents? ≠ none) ∨
      ∃ before f after, row = before ++ f :: after ∧ (∀ g ∈ before, g.contents? ≠ none) ∧
        f.contents? = none := by
  induction row with
  | nil => exact .inl fun f mem => absurd mem List.not_mem_nil
  | cons f row ih =>
    cases here : f.contents? with
    | none => exact .inr ⟨[], f, row, rfl, fun g mem => absurd mem List.not_mem_nil, here⟩
    | some c =>
      have first : f.contents? ≠ none := by simp [here]
      rcases ih with sound | ⟨before, g, after, rfl, sound, malformed⟩
      · exact .inl (List.forall_mem_cons.mpr ⟨first, sound⟩)
      · exact .inr ⟨f :: before, g, after, rfl,
          List.forall_mem_cons.mpr ⟨first, sound⟩, malformed⟩

theorem exists_error {f : SectionFrame} (malformed : f.contents? = none) (pos : Nat) :
    ∃ e, f.decodeAt pos = .error e := by
  cases read : f.decodeAt pos with
  | error e => exact ⟨e, rfl⟩
  | ok c =>
    rw [decodeAt_eq_ok.mp read] at malformed
    cases malformed

/-- The kind of what a frame holds. -/
def kind (f : SectionFrame) : UInt8 := if f.isCustom then 0 else f.id

theorem id_of_contents? {f : SectionFrame} {c : Section} (known : f.contents? = some c) :
    c.id = f.kind := by
  have read : f.decodeAt 0 = .ok c := decodeAt_eq_ok.mpr known
  rw [Section.id_of_decode read, kind, isCustom]
  by_cases zero : f.id = 0
  · simp [zero]
  · simp [zero]

theorem kind_eq_zero {f : SectionFrame} : f.kind = 0 ↔ f.isCustom = true := by
  rw [kind]
  cases custom : f.isCustom with
  | true => simp
  | false =>
    rw [isCustom, Bool.or_eq_false_iff] at custom
    simpa using custom.1

theorem filter_contents? (row : List SectionFrame) (id : UInt8) :
    (row.filterMap contents?).filter (·.id == id)
      = (row.filter (·.kind == id)).filterMap contents? := by
  induction row with
  | nil => rfl
  | cons f row ih =>
    cases known : f.contents? with
    | none =>
      rw [List.filterMap_cons_none known, List.filter_cons, ih]
      split
      · rw [List.filterMap_cons_none known]
      · rfl
    | some c =>
      rw [List.filterMap_cons_some known, List.filter_cons, List.filter_cons,
        id_of_contents? known, ih]
      split
      · rw [List.filterMap_cons_some known]
      · rfl

/-- As many custom sections are decoded as there are. -/
theorem length_custom (sound : ∀ f ∈ row, f.contents? ≠ none) :
    (Sections.ofLast (row.filterMap contents?)).custom.length = row.countP (·.isCustom) := by
  rw [Sections.ofLast]
  induction row with
  | nil => rfl
  | cons f row ih =>
    rcases Option.ne_none_iff_exists'.mp (sound f List.mem_cons_self) with ⟨c, known⟩
    have count := ih fun g mem => sound g (.tail f mem)
    have kind := (id_of_contents? known).symm
    rw [List.filterMap_cons_some known, List.countP_cons, ← count]
    cases c with
    | custom c => rw [if_pos (kind_eq_zero.mp kind), List.filterMap_cons]; rfl
    | _ =>
      rw [if_neg fun custom => ?_, List.filterMap_cons]
      · rfl
      · rw [kind_eq_zero.mpr custom] at kind
        cases kind

end SectionFrame

namespace Module

open SectionFrame

variable {row row' before : List SectionFrame} {f : SectionFrame}

theorem sectionsFrom_sound (sound : ∀ f ∈ row, f.contents? ≠ none) (rest : List UInt8) :
    Decoder.sectionsFrom {} ⟨8, row.flatMap bytes ++ rest⟩
      = Decoder.sectionsFrom (.ofLast (row.filterMap contents?))
        ⟨(moduleBytes row).length, rest⟩ := by
  rw [Decoder.sectionsFrom_frames (map_contents? sound), Sections.foldl_add, length_moduleBytes]

/-- A row of well-formed sections is built from the last contents of each kind. -/
theorem decode_sound (sound : ∀ f ∈ row, f.contents? ≠ none) :
    Module.decode (moduleBytes row)
      = (Sections.ofLast (row.filterMap contents?)).build.mapError .module := by
  have read := decode_moduleBytes row []
  rw [sectionsFrom_sound sound, Decoder.sectionsFrom_eq, if_pos List.isEmpty_nil,
    List.append_nil] at read
  exact read

/-- The error of a row is that of its first malformed section. -/
theorem decode_malformed {e : DecodeError} (sound : ∀ g ∈ before, g.contents? ≠ none)
    (failed : f.decodeAt (f.inner (moduleBytes before).length) = .error e)
    (after : List SectionFrame) (rest : List UInt8) :
    Module.decode (moduleBytes (before ++ f :: after) ++ rest) = .error e := by
  rw [length_moduleBytes] at failed
  rw [decode_moduleBytes, Decoder.sectionsFrom_malformed (map_contents? sound) failed]
  rfl

/-! ### Reordering -/

/-- Of a list without repeated identifiers, no other one has the same section of a kind. -/
theorem filter_eq_of_perm {l l' : List SectionFrame} (perm : l.Perm l')
    (distinct : (l.map (·.id)).Nodup) (id : UInt8) :
    l.filter (·.id == id) = l'.filter (·.id == id) := by
  have moved := perm.filter (·.id == id)
  have apart : ((l.filter (·.id == id)).map (·.id)).Nodup :=
    distinct.sublist (List.filter_sublist.map _)
  have all : ∀ f ∈ l.filter (·.id == id), f.id = id := fun f mem =>
    eq_of_beq (List.mem_filter.mp mem).2
  generalize l.filter (·.id == id) = xs at moved apart all
  rcases xs with _ | ⟨f, _ | ⟨g, xs⟩⟩
  · exact (List.nil_perm.mp moved).symm
  · exact (List.singleton_perm.mp moved).symm ▸ rfl
  · have same : f.id = g.id :=
      (all f List.mem_cons_self).trans (all g (.tail f List.mem_cons_self)).symm
    simp [same] at apart

/-- Two orders of the same sections hold the same of each kind, in the same order, if the custom
ones do not change places and there is at most one of each standard kind. -/
theorem filter_kind_of_perm (perm : row.Perm row')
    (distinct : ((row.filter (!·.isCustom)).map (·.id)).Nodup)
    (customs : row.filter (·.isCustom) = row'.filter (·.isCustom)) (id : UInt8) :
    row.filter (·.kind == id) = row'.filter (·.kind == id) := by
  by_cases zero : id = 0
  · have custom : (fun f : SectionFrame => f.kind == id) = fun f => f.isCustom := by
      funext f
      rw [zero, Bool.eq_iff_iff, beq_iff_eq, kind_eq_zero]
    rw [custom, customs]
  · have standard (l : List SectionFrame) :
        l.filter (·.kind == id) = (l.filter (!·.isCustom)).filter (·.id == id) := by
      rw [List.filter_filter]
      refine List.filter_congr fun f _ => ?_
      rw [kind]
      cases f.isCustom with
      | true => simpa using fun same => zero same.symm
      | false => simp
    rw [standard, standard, filter_eq_of_perm (perm.filter _) distinct id]

theorem decode_perm (perm : row.Perm row')
    (distinct : ((row.filter (!·.isCustom)).map (·.id)).Nodup)
    (customs : row.filter (·.isCustom) = row'.filter (·.isCustom)) {m : Module}
    (read : Module.decode (moduleBytes row) = .ok m) :
    Module.decode (moduleBytes row') = .ok m := by
  rcases sound_or_malformed row with sound | ⟨before, f, after, rfl, sound, malformed⟩
  · have sound' : ∀ f ∈ row', f.contents? ≠ none := fun f mem => sound f (perm.mem_iff.mpr mem)
    have same : Sections.ofLast (row.filterMap contents?) =
        .ofLast (row'.filterMap contents?) := by
      apply Sections.ofLast_congr
      intro id
      rw [filter_contents?, filter_contents?, filter_kind_of_perm perm distinct customs]
    rw [decode_sound sound, same, ← decode_sound sound'] at read
    exact read
  · rcases exists_error malformed (f.inner (moduleBytes before).length) with ⟨e, failed⟩
    have stopped := decode_malformed sound failed after []
    rw [List.append_nil, read] at stopped
    cases stopped

/-! ### Inserting custom sections -/

/-- A position behind a boundary, once some bytes have been put there. -/
def movedBehind (boundary count pos : Nat) : Nat := if boundary < pos then pos + count else pos

/-- Errors that are reported behind a boundary move with what stands there. -/
theorem mapPos_movedBehind {e : DecodeError} {boundary last : Nat}
    (within : e.Within (boundary + 1) last) (count : Nat) :
    e.mapPos (movedBehind boundary count) = e.mapPos (· + count) :=
  DecodeError.mapPos_congr fun _ named => if_pos (within _ named).1

/-- Errors that are reported before a boundary stay. -/
theorem mapPos_movedBehind_of_le {e : DecodeError} {first boundary : Nat}
    (within : e.Within first boundary) (count : Nat) :
    e.mapPos (movedBehind boundary count) = e := by
  have same : e.mapPos (movedBehind boundary count) = e.mapPos id :=
    DecodeError.mapPos_congr fun _ named => if_neg (Nat.not_lt.mpr (within _ named).2)
  rw [same, DecodeError.mapPos_id]

theorem insertIdx_length {α : Type} (xs ys : List α) (a : α) :
    (xs ++ ys).insertIdx xs.length a = xs ++ a :: ys := by
  induction xs with
  | nil => rfl
  | cons x xs ih => rw [List.cons_append, List.length_cons, List.insertIdx_succ_cons, ih]; rfl

theorem decode_insert {c : CustomSection} (before : List SectionFrame)
    (custom : f.contents? = some (.custom c)) (rest : List UInt8) :
    Module.decode (moduleBytes (before ++ [f]) ++ rest) =
      match Module.decode (moduleBytes before ++ rest) with
      | .ok m => .ok { m with custom := m.custom.insertIdx (before.countP (·.isCustom)) c }
      | .error e =>
        .error (e.mapPos (movedBehind (moduleBytes before).length f.bytes.length)) := by
  rcases sound_or_malformed before with sound | ⟨before, g, after, rfl, sound, malformed⟩
  · have sound' : ∀ g ∈ before ++ [f], g.contents? ≠ none :=
      List.forall_mem_append.mpr ⟨sound, by simp [custom]⟩
    -- what stands before the boundary but for its custom sections, and these
    obtain ⟨base, xs, plain, count, same, more⟩ : ∃ (base : Sections) (xs : List CustomSection),
        base.custom = [] ∧ xs.length = before.countP (·.isCustom) ∧
        Sections.ofLast (before.filterMap contents?) = base.behind xs ∧
        Sections.ofLast ((before ++ [f]).filterMap contents?) = base.behind (xs ++ [c]) := by
      refine ⟨{ Sections.ofLast (before.filterMap contents?) with custom := [] }, _, rfl,
        length_custom sound, ?_, ?_⟩
      · simp [Sections.behind]
      · rw [List.filterMap_append, List.filterMap_cons_some custom, List.filterMap_nil,
          ← Sections.foldl_add, List.foldl_append, Sections.foldl_add]
        simp [Sections.behind, Sections.add]
    have place : (⟨(moduleBytes (before ++ [f])).length, rest⟩ : Input)
        = Input.shift f.bytes.length ⟨(moduleBytes before).length, rest⟩ := by
      rw [Input.shift, length_moduleBytes, length_moduleBytes, List.flatMap_append,
        List.length_append, List.flatMap_singleton, Nat.add_assoc]
    rw [decode_moduleBytes, decode_moduleBytes, sectionsFrom_sound sound',
      sectionsFrom_sound sound, same, more, place, Decoder.sectionsFrom_shift,
      Decoder.sectionsFrom_behind, Decoder.sectionsFrom_behind]
    cases read : Decoder.sectionsFrom base ⟨(moduleBytes before).length, rest⟩ with
    | error e =>
      have moved := mapPos_movedBehind (Decoder.sectionsFrom_within read) f.bytes.length
      exact congrArg Except.error moved.symm
    | ok s =>
      have built (ys : List CustomSection) := s.build_custom (ys ++ s.custom)
      simp only [Except.map, Except.mapError, bind, Except.bind, Sections.behind, built]
      cases s.build with
      | error e => rfl
      | ok m =>
        simp only [← count, insertIdx_length, List.append_assoc, List.singleton_append]
  · rcases exists_error malformed (g.inner (moduleBytes before).length) with ⟨e, failed⟩
    have inside : e.Within (g.inner (moduleBytes before).length)
        (moduleBytes (before ++ g :: after)).length := by
      apply (Section.decode_within failed).mono (Nat.le_refl _)
      change g.inner (moduleBytes before).length + g.payload.length ≤ _
      rw [SectionFrame.inner, length_moduleBytes, length_moduleBytes, List.flatMap_append,
        List.length_append, List.flatMap_cons, List.length_append, length_bytes]
      omega
    have stopped := decode_malformed sound failed (after ++ [f]) rest
    rw [List.append_assoc, List.cons_append, stopped, decode_malformed sound failed after rest]
    exact congrArg Except.error (mapPos_movedBehind_of_le inside f.bytes.length).symm

/-- A section is decoded from its identifier and its payload, and to contents of the kind that the
identifier stands for.  A module of framed sections is decoded section by section: the first
malformed one decides the error; if there is none, the module is built from the last contents of
each standard kind and from all custom sections.  So sections of different standard kinds can
change places, and a custom section can be put behind any others: a module gets it in its place,
and the positions that an error names behind it move by its length. -/
theorem decode_frames :
    (∀ id payload pos, Section.decode id ⟨pos, payload⟩
      = (Section.decode id ⟨0, payload⟩).mapError (DecodeError.mapPos (· + pos))) ∧
    (∀ id payload c, Section.decode id payload = .ok c → c.id = if 12 < id then 0 else id) ∧
    (∀ id payload, 12 < id →
      Section.decode id payload = .ok (.custom ⟨toString id.toNat, payload.bytes⟩)) ∧
    (∀ before f after e, (∀ g ∈ before, g.contents? ≠ none) →
      f.decodeAt (f.inner (moduleBytes before).length) = .error e →
      Module.decode (moduleBytes (before ++ f :: after)) = .error e) ∧
    (∀ row, (∀ f ∈ row, f.contents? ≠ none) →
      Module.decode (moduleBytes row)
        = (Sections.ofLast (row.filterMap contents?)).build.mapError .module) ∧
    (∀ row row' : List SectionFrame, row.Perm row' →
      ((row.filter (!·.isCustom)).map (·.id)).Nodup →
      row.filter (·.isCustom) = row'.filter (·.isCustom) →
      ∀ m, Module.decode (moduleBytes row) = .ok m ↔ Module.decode (moduleBytes row') = .ok m) ∧
    ∀ (before : List SectionFrame) f c rest, f.contents? = some (.custom c) →
      Module.decode (moduleBytes (before ++ [f]) ++ rest) =
        match Module.decode (moduleBytes before ++ rest) with
        | .ok m => .ok { m with custom := m.custom.insertIdx (before.countP (·.isCustom)) c }
        | .error e =>
          .error (e.mapPos (movedBehind (moduleBytes before).length f.bytes.length)) := by
  refine ⟨fun id payload pos => ?_, fun id payload c => Section.id_of_decode,
    fun id payload unknown => ?_, fun before f after e sound failed => ?_,
    fun row sound => decode_sound sound, fun row row' perm distinct customs m => ⟨?_, ?_⟩,
    fun before f c rest custom => decode_insert before custom rest⟩
  · have moved := Section.decode_shift id pos ⟨0, payload⟩
    rwa [Input.shift, Nat.zero_add] at moved
  · unfold Section.decode
    split
    case h_14 => rfl
    all_goals exact absurd unknown (by decide)
  · have stopped := decode_malformed sound failed after []
    rwa [List.append_nil] at stopped
  · exact decode_perm perm distinct customs
  · apply decode_perm perm.symm
    · exact ((perm.filter _).map _).nodup_iff.mp distinct
    · exact customs.symm

/-- A custom section of an unknown identifier is put between a type section, whose size is written
with a byte to spare, and a function section that breaks off within a number. -/
theorem decode_frames_of_insertion :
    let types : SectionFrame := ⟨1, [0x84, 0x00], [1, 0x60, 0, 0],
      .cons (by decide : 4 < 128) (.single (by decide : 0 < 128)), by decide, rfl⟩
    let unknown : SectionFrame := ⟨42, [1], [7], .single (by decide : 1 < 128), by decide, rfl⟩
    let broken : List UInt8 := [3, 2, 1, 0x80]
    unknown.contents? = some (.custom ⟨"42", [7]⟩) ∧
    Module.decode (moduleBytes [types] ++ broken) = .error (.malformed 19 .eof) ∧
    Module.decode (moduleBytes [types, unknown] ++ broken) = .error (.malformed 22 .eof) := by
  intro types unknown broken
  have custom : unknown.contents? = some (.custom ⟨"42", [7]⟩) := by decide +kernel
  have before : Module.decode (moduleBytes [types] ++ broken) = .error (.malformed 19 .eof) := by
    decide +kernel
  obtain ⟨-, -, -, -, -, -, insert⟩ := decode_frames
  have after := insert [types] unknown _ broken custom
  rw [before] at after
  exact ⟨custom, before, after⟩

end Module

end WasmMachine
