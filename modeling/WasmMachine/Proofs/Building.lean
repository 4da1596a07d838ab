import Mathlib.Algebra.GroupWithZero.Nat
import WasmMachine.Module

/-!
# How a module is built

`Sections.build` goes through the imports and then through the defined functions, appending each
to its index space, and stops at the first defect.  `Sections.defects` lists all that is wrong, in
the order in which it is looked for, and `Sections.joined` is the module that is meant.  The
builder comes to the first defect, or to that module if there is none (`Sections.build_eq`): each
loop appends what it should as long as nothing is wrong with its items (`Spaces.addImports_eq`,
`Spaces.addFuncs_eq`).

The locals of a body are counted in words of 32 bits, as long as they are not too many.  This
never wraps around: the count exists exactly if the number of the locals is within bounds
(`Body.declared?_eq`).
-/

namespace WasmMachine

/-! ## Counting locals -/

/-- The number of locals that a body declares. -/
def Body.localCount (b : Body) : Nat := (b.locals.map (·.count.toNat)).sum

theorem checkedAdd_filter {a b : UInt32} {n : Nat} (small : n < UInt32.size) :
    (checkedAdd a b).filter (fun total => total.toNat ≤ n)
      = if a.toNat + b.toNat ≤ n then some (.ofNat (a.toNat + b.toNat)) else none := by
  rw [checkedAdd]
  by_cases fits : a.toNat + b.toNat < UInt32.size
  · have sum : a + b = .ofNat (a.toNat + b.toNat) := by
      rw [UInt32.ofNat_add, UInt32.ofNat_toNat, UInt32.ofNat_toNat]
    have number : (UInt32.ofNat (a.toNat + b.toNat)).toNat = a.toNat + b.toNat :=
      UInt32.toNat_ofNat_of_lt' fits
    rw [if_pos fits, sum, Option.filter_some, number]
    simp only [decide_eq_true_iff]
  · rw [if_neg fits, if_neg (by omega)]
    rfl

/-- Counting on from a number that is within bounds: a partial sum that is not makes the whole one
so. -/
theorem foldlM_checkedAdd {α : Type} (count : α → UInt32) {n : Nat} (small : n < UInt32.size)
    (xs : List α) {sum : UInt32} (sofar : sum.toNat ≤ n) :
    xs.foldlM (fun sum x => (checkedAdd sum (count x)).filter fun total => total.toNat ≤ n) sum
      = if sum.toNat + (xs.map fun x => (count x).toNat).sum ≤ n then
          some (.ofNat (sum.toNat + (xs.map fun x => (count x).toNat).sum))
        else none := by
  induction xs generalizing sum with
  | nil =>
    rw [List.foldlM_nil, List.map_nil, List.sum_nil, Nat.add_zero, if_pos sofar,
      UInt32.ofNat_toNat]
    rfl
  | cons x xs ih =>
    rw [List.foldlM_cons, checkedAdd_filter small, List.map_cons, List.sum_cons, ← Nat.add_assoc]
    by_cases fits : sum.toNat + (count x).toNat ≤ n
    · have number : (UInt32.ofNat (sum.toNat + (count x).toNat)).toNat =
          sum.toNat + (count x).toNat :=
        UInt32.toNat_ofNat_of_lt' (Nat.lt_of_le_of_lt fits small)
      rw [if_pos fits, Option.bind_eq_bind, Option.bind_some, ih (number.symm ▸ fits), number]
    · rw [if_neg fits, if_neg (by omega)]
      rfl

/-- The count exists exactly if there are no more locals than there may be. -/
theorem Body.declared?_eq (b : Body) :
    b.declared? = if b.localCount ≤ maxLocals then some (.ofNat b.localCount) else none := by
  have none : (0 : UInt32).toNat = 0 := rfl
  have counted :=
    foldlM_checkedAdd LocalGroup.count (show maxLocals < UInt32.size by decide) b.locals
    (none ▸ Nat.zero_le maxLocals)
  rwa [none, Nat.zero_add] at counted

-- A sum that does not fit in 32 bits is too many, whatever it wraps around to.
example (code : Code) : Body.declared? ⟨[⟨1, .i32⟩, ⟨0xffffffff, .i64⟩], code⟩ = none := by
  rfl

theorem Body.isNone_declared? (b : Body) :
    b.declared?.isNone = true ↔ maxLocals < b.localCount := by
  rw [b.declared?_eq]
  by_cases few : b.localCount ≤ maxLocals
  · simp [few]
  · simp [few, Nat.lt_of_not_le few]

/-- The locals are as many as are declared. -/
theorem Body.length_expandLocals (b : Body) : b.expandLocals.length = b.localCount := by
  rw [expandLocals, List.length_flatMap, localCount]
  simp only [List.length_replicate]

/-! ## First defects -/

/-- A value, unless something is wrong with it: then the first defect counts. -/
def Except.ofDefects {ε α : Type} (defects : List ε) (a : α) : Except ε α :=
  match defects with
  | [] => .ok a
  | e :: _ => .error e

namespace Except

variable {ε α β : Type} {defects : List ε} {a b : α} {e : ε}

theorem ofDefects_eq_ok : Except.ofDefects defects a = .ok b ↔ defects = [] ∧ a = b := by
  cases defects <;> simp [Except.ofDefects]

theorem ofDefects_eq_error : Except.ofDefects defects a = .error e ↔ defects.head? = some e := by
  cases defects <;> simp [Except.ofDefects]

/-- The defects of a second value are looked for after those of a first one. -/
theorem ofDefects_bind (first : List ε) (second : α → List ε) (a : α) (f : α → β) :
    (Except.ofDefects first a >>= fun a => Except.ofDefects (second a) (f a))
      = Except.ofDefects (first ++ second a) (f a) := by
  cases first <;> rfl

theorem ofDefects_map (first : List ε) (a : α) (f : α → β) :
    (do return f (← Except.ofDefects first a)) = Except.ofDefects first (f a) := by
  cases first <;> rfl

end Except

/-! ## The defects of sections -/

/-- The type at an index. That there is one is not asked here. -/
def typeAt (types : Array FuncType) (idx : TypeIdx) : FuncType := types[idx.toNat]?.getD default

/-- What is wrong with the index of a type: it may be out of range. -/
def typeDefects (types : Array FuncType) (idx : TypeIdx) : List ModuleError :=
  if idx.toNat < types.size then [] else [.typeIndex idx.val]

/-- What is wrong with the locals of a body, that of a given function: there may be too many. -/
def Body.localDefects (pos : Nat) (b : Body) : List ModuleError :=
  if b.localCount ≤ maxLocals then [] else [.tooManyLocals pos]

/-- What is wrong with a defined function of a given number. -/
def entryDefects (types : Array FuncType) (pos : Nat) (entry : TypeIdx × Body) :
    List ModuleError :=
  entry.2.localDefects pos ++ typeDefects types entry.1

/-- The entry of an imported function. -/
def importedDecl (types : Array FuncType) (idx : TypeIdx) : FuncDecl :=
  ⟨idx, typeAt types idx, none⟩

/-- The entry of a defined function. -/
def definedDecl (types : Array FuncType) (entry : TypeIdx × Body) : FuncDecl :=
  ⟨entry.1, typeAt types entry.1, some ⟨entry.2.expandLocals, entry.2.code⟩⟩

section Entries

variable {types : Array FuncType} {idx : TypeIdx}

theorem getElem?_typeAt (inside : idx.toNat < types.size) :
    types[idx.toNat]? = some (typeAt types idx) := by
  rw [typeAt, Array.getElem?_eq_getElem inside, Option.getD_some]

theorem typeDefects_eq_nil : typeDefects types idx = [] ↔ idx.toNat < types.size := by
  rw [typeDefects]
  split <;> simp_all

theorem Body.localDefects_eq_nil {pos : Nat} {b : Body} :
    b.localDefects pos = [] ↔ b.localCount ≤ maxLocals := by
  rw [localDefects]
  split <;> simp_all

theorem entryDefects_eq_nil {pos : Nat} {entry : TypeIdx × Body} :
    entryDefects types pos entry = [] ↔
    entry.2.localCount ≤ maxLocals ∧ entry.1.toNat < types.size := by
  rw [entryDefects, List.append_eq_nil_iff, Body.localDefects_eq_nil, typeDefects_eq_nil]

theorem lookupType_eq (types : Array FuncType) (idx : TypeIdx) :
    lookupType types idx = Except.ofDefects (typeDefects types idx) (typeAt types idx) := by
  rw [lookupType, typeDefects]
  split
  · next t found =>
    have inside := (Array.getElem?_eq_some_iff.mp found).1
    rw [if_pos inside, typeAt, found]
    rfl
  · next missing =>
    rw [if_neg (Nat.not_lt.mpr (Array.getElem?_eq_none_iff.mp missing))]
    rfl

theorem FuncDecl.imported_eq (types : Array FuncType) (idx : TypeIdx) :
    FuncDecl.imported types idx = Except.ofDefects (typeDefects types idx)
      (importedDecl types idx) := by
  rw [imported, lookupType_eq, Except.ofDefects_map]
  rfl

theorem FuncDecl.defined_eq (types : Array FuncType) (pos : Nat) (entry : TypeIdx × Body) :
    FuncDecl.defined types pos entry.1 entry.2
      = Except.ofDefects (entryDefects types pos entry) (definedDecl types entry) := by
  rw [defined, entryDefects, Body.localDefects, lookupType_eq]
  by_cases few : entry.2.localCount ≤ maxLocals
  · rw [if_neg (mt (Body.isNone_declared? _).mp (Nat.not_lt.mpr few)), if_pos few,
      List.nil_append]
    exact Except.ofDefects_map ..
  · rw [if_pos ((Body.isNone_declared? _).mpr (Nat.lt_of_not_le few)), if_neg few]
    rfl

end Entries

namespace Sections

variable (s : Sections)

/-- The types of the imported functions, in order. -/
def importedFuncs : List TypeIdx := s.imports.filterMap (·.desc.func?)

/-- All that is wrong with some sections, in the order in which it is looked for: the number of
bodies, the imported functions, and the defined ones with their numbers in the index space. -/
def defects : List ModuleError :=
  (if s.funcs.length = s.bodies.length then []
    else [.bodyCount s.funcs.length s.bodies.length]) ++
    s.importedFuncs.flatMap (typeDefects s.types.toArray) ++
    ((s.funcs.zip s.bodies).zipIdx s.importedFuncs.length).flatMap fun (entry, pos) =>
      entryDefects s.types.toArray pos entry

/-- The module that some sections mean. -/
def joined : Module where
  types := s.types.toArray
  imports := s.imports
  funcs := s.importedFuncs.map (importedDecl s.types.toArray) ++
    (s.funcs.zip s.bodies).map (definedDecl s.types.toArray)
  tables := s.imports.filterMap (·.desc.table?) ++ s.tables
  memories := s.imports.filterMap (·.desc.mem?) ++ s.memories
  globals := (s.imports.filterMap (·.desc.global?)).map (fun t => ⟨t, none⟩) ++
    s.globals.map fun g => ⟨g.type, some g.init⟩
  elems := s.elems
  datas := s.datas
  exports := s.exports
  start := s.start
  dataCount := s.dataCount
  custom := s.custom

end Sections

/-! ## The two loops -/

namespace Spaces

variable (types : Array FuncType)

/-- Going through imports appends to each index space what is imported of its kind, or fails at
the first function whose type does not exist. -/
theorem addImports_eq (s : Spaces) (imports : List Import) :
    imports.foldlM (addImport types) s
      = Except.ofDefects ((imports.filterMap (·.desc.func?)).flatMap (typeDefects types)) {
        funcs := s.funcs ++ (imports.filterMap (·.desc.func?)).map (importedDecl types)
        tables := s.tables ++ imports.filterMap (·.desc.table?)
        memories := s.memories ++ imports.filterMap (·.desc.mem?)
        globals := s.globals ++
          (imports.filterMap (·.desc.global?)).map fun t => (⟨t, none⟩ : GlobalDecl) } := by
  induction imports generalizing s with
  | nil =>
    simp [Except.ofDefects]
    rfl
  | cons i imports ih =>
    obtain ⟨module, name, desc⟩ := i
    rw [List.foldlM_cons]
    cases desc with
    | func idx =>
      rw [addImport]
      simp only [FuncDecl.imported_eq, Except.ofDefects_map, ih]
      rw [Except.ofDefects_bind]
      simp [ImportDesc.func?, ImportDesc.table?, ImportDesc.mem?, ImportDesc.global?]
    | table t => simp [addImport, ImportDesc.func?, ImportDesc.table?, ImportDesc.mem?,
        ImportDesc.global?, ih]
    | mem t => simp [addImport, ImportDesc.func?, ImportDesc.table?, ImportDesc.mem?,
        ImportDesc.global?, ih]
    | global t => simp [addImport, ImportDesc.func?, ImportDesc.table?, ImportDesc.mem?,
        ImportDesc.global?, ih]

/-- Going through the defined functions appends them, or fails at the first one that has too many
locals or a type that does not exist. -/
theorem addFuncs_eq (s : Spaces) (entries : List (TypeIdx × Body)) :
    entries.foldlM (addFunc types) s
      = Except.ofDefects ((entries.zipIdx s.funcs.size).flatMap fun (entry, pos) =>
        entryDefects types pos entry)
        { s with funcs := s.funcs ++ entries.map (definedDecl types) } := by
  induction entries generalizing s with
  | nil =>
    simp [Except.ofDefects]
    rfl
  | cons entry entries ih =>
    rw [List.foldlM_cons, addFunc, FuncDecl.defined_eq, Except.ofDefects_map]
    simp only [ih]
    rw [Except.ofDefects_bind]
    simp

end Spaces

namespace Sections

variable {s : Sections} {m : Module} {e : ModuleError}

/-- Sections are joined unless something is wrong with them. -/
theorem build_eq (s : Sections) : s.build = Except.ofDefects s.defects s.joined := by
  rw [build, defects]
  by_cases counts : s.funcs.length = s.bodies.length
  · rw [if_neg (Classical.not_not.mpr counts), if_pos counts, List.nil_append]
    simp only [Spaces.addImports_eq, Spaces.addFuncs_eq]
    simp only [Except.ofDefects_map, Except.ofDefects_bind]
    simp [importedFuncs, joined]
  · rw [if_pos counts, if_neg counts]
    rfl

theorem build_eq_ok : s.build = .ok m ↔ s.defects = [] ∧ s.joined = m := by
  rw [build_eq, Except.ofDefects_eq_ok]

theorem entries_sound {types : Array FuncType} {entries : List (TypeIdx × Body)} {first : Nat} :
    ((entries.zipIdx first).flatMap fun (entry, pos) => entryDefects types pos entry) = [] ↔
      ∀ entry ∈ entries, entry.2.localCount ≤ maxLocals ∧ entry.1.toNat < types.size := by
  rw [List.flatMap_eq_nil_iff]
  simp only [entryDefects_eq_nil]
  constructor
  · intro all entry mem
    rw [← List.zipIdx_map_fst first entries] at mem
    obtain ⟨p, there, rfl⟩ := List.mem_map.mp mem
    exact all p there
  · exact fun all p there => all p.1 (List.fst_mem_of_mem_zipIdx there)

/-- Nothing is wrong with sections whose counts agree, whose types exist and whose locals are
few. -/
theorem defects_eq_nil : s.defects = [] ↔ s.funcs.length = s.bodies.length ∧
    (∀ idx ∈ s.importedFuncs, idx.toNat < s.types.length) ∧
    (∀ idx ∈ s.funcs, idx.toNat < s.types.length) ∧ ∀ b ∈ s.bodies, b.localCount ≤ maxLocals := by
  have counted : (if s.funcs.length = s.bodies.length then []
      else [ModuleError.bodyCount s.funcs.length s.bodies.length]) = [] ↔
        s.funcs.length = s.bodies.length := by
    split <;> simp_all
  rw [defects, List.append_eq_nil_iff, List.append_eq_nil_iff, counted, entries_sound,
    List.flatMap_eq_nil_iff, and_assoc]
  simp only [typeDefects_eq_nil, List.size_toArray]
  refine and_congr_right fun counts => and_congr_right fun _ =>
    ⟨fun all => ⟨?_, ?_⟩, fun all entry mem => ?_⟩
  · rw [← List.map_fst_zip (Nat.le_of_eq counts)]
    exact List.forall_mem_map.mpr fun entry mem => (all entry mem).2
  · rw [← List.map_snd_zip (Nat.le_of_eq counts.symm)]
    exact List.forall_mem_map.mpr fun entry mem => (all entry mem).1
  · have ⟨own, body⟩ := List.of_mem_zip mem
    exact ⟨all.2 entry.2 body, all.1 entry.1 own⟩

/-! ## What is built -/

/-- A module joins some sections: the number of imports of a kind is where the definitions of that
kind begin in their index space, and what belongs to no index space is passed on. -/
structure Joined (s : Sections) (m : Module) : Prop where
  /-- Imported functions come first, without bodies. -/
  imported_funcs : (m.funcs.take m.importedFuncs.length).map (fun d => (d.typeIdx, d.body))
    = s.importedFuncs.map fun idx => (idx, none)
  /-- The functions of the function section follow, with the bodies of the code section. -/
  defined_funcs : (m.funcs.drop m.importedFuncs.length).map (fun d => (d.typeIdx, d.body))
    = s.funcs.zip (s.bodies.map fun b => some ⟨b.expandLocals, b.code⟩)
  /-- Each function has the type at its index. -/
  func_types : ∀ d ∈ m.funcs, s.types[d.typeIdx.toNat]? = some d.type
  /-- A body has as many locals as its groups declare together. -/
  locals : ∀ b ∈ s.bodies, b.expandLocals.length =
    (b.locals.map fun group => group.count.toNat).sum
  imported_tables : m.tables.take m.importedTables.length = s.imports.filterMap (·.desc.table?)
  defined_tables : m.tables.drop m.importedTables.length = s.tables
  imported_memories : m.memories.take m.importedMemories.length =
    s.imports.filterMap (·.desc.mem?)
  defined_memories : m.memories.drop m.importedMemories.length = s.memories
  /-- Imported globals have no initialisers. -/
  imported_globals : m.globals.take m.importedGlobals.length
    = (s.imports.filterMap (·.desc.global?)).map fun type => ⟨type, none⟩
  /-- The globals of the global section have theirs. -/
  defined_globals : m.globals.drop m.importedGlobals.length
    = s.globals.map fun g => ⟨g.type, some g.init⟩
  passed : m.types = s.types.toArray ∧ m.imports = s.imports ∧ m.elems = s.elems ∧
    m.datas = s.datas ∧
    m.exports = s.exports ∧ m.start = s.start ∧ m.dataCount = s.dataCount ∧ m.custom = s.custom

theorem joined_of_sound (sound : s.defects = []) : s.Joined s.joined := by
  obtain ⟨-, imported, defined, -⟩ := defects_eq_nil.mp sound
  have inside {idx : TypeIdx} (own : idx ∈ s.importedFuncs ∨ idx ∈ s.funcs) :
      idx.toNat < s.types.toArray.size :=
    List.size_toArray ▸ own.elim (imported idx) (defined idx)
  have first_funcs : s.joined.funcs.take s.joined.importedFuncs.length
      = s.importedFuncs.map (importedDecl s.types.toArray) := List.take_left' (List.length_map _)
  have other_funcs : s.joined.funcs.drop s.joined.importedFuncs.length
      = (s.funcs.zip s.bodies).map (definedDecl s.types.toArray) :=
    List.drop_left' (List.length_map _)
  exact {
    imported_funcs := by
      rw [first_funcs, List.map_map]
      rfl
    defined_funcs := by
      rw [other_funcs, List.map_map, List.zip_map_right]
      rfl
    func_types := fun d mem => by
      rcases List.mem_append.mp mem with isImported | isDefined
      · obtain ⟨idx, own, rfl⟩ := List.mem_map.mp isImported
        exact List.getElem?_toArray ▸ getElem?_typeAt (inside (.inl own))
      · obtain ⟨entry, own, rfl⟩ := List.mem_map.mp isDefined
        exact List.getElem?_toArray ▸ getElem?_typeAt (inside (.inr (List.of_mem_zip own).1))
    locals := fun b _ => b.length_expandLocals
    imported_tables := List.take_left
    defined_tables := List.drop_left
    imported_memories := List.take_left
    defined_memories := List.drop_left
    imported_globals := List.take_left' (List.length_map _)
    defined_globals := List.drop_left' (List.length_map _)
    passed := ⟨rfl, rfl, rfl, rfl, rfl, rfl, rfl, rfl⟩ }

/-- What building sections comes to. -/
structure Built (s : Sections) : Prop where
  /-- It succeeds if the counts agree, the types exist and the locals are few. -/
  success : (∃ m, s.build = .ok m) ↔ s.funcs.length = s.bodies.length ∧
    (∀ idx ∈ s.importedFuncs, idx.toNat < s.types.length) ∧
    (∀ idx ∈ s.funcs, idx.toNat < s.types.length) ∧
    ∀ b ∈ s.bodies, (b.locals.map fun group => group.count.toNat).sum ≤ 50000
  /-- Then the module joins the sections. -/
  joins {m : Module} : s.build = .ok m → s.Joined m
  /-- Otherwise the first defect is reported. -/
  first {e : ModuleError} : s.build = .error e ↔ s.defects.head? = some e

/-- Sections are joined, or the first of their defects is reported. -/
theorem build_exact (s : Sections) : s.Built where
  success := by
    simp only [build_eq_ok, exists_and_left, exists_eq', and_true]
    exact defects_eq_nil
  joins built := by
    obtain ⟨sound, rfl⟩ := build_eq_ok.mp built
    exact joined_of_sound sound
  first {e} := by rw [build_eq, Except.ofDefects_eq_error]

end Sections

end WasmMachine
