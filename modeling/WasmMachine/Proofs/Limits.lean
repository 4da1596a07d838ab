import WasmMachine.Proofs.Stability

/-!
# Sizes and limits

A memory or table has the least size of its limits at first, and grows as far as the limits let
it.  So its size is never less than the least size, and never more than the greatest size or,
where that is less, the least size (`Sized`).  Everything that runs on a machine keeps it so
(`Machine.Evolves.fits`).  For limits that are in order this means that sizes are within the
limits, and that growing by nothing succeeds, from outside and in code (`Reached.within_limits`).

Nothing makes sure that limits are in order.  A memory or table whose least size is more than its
greatest size, or more than any memory can have, is made nevertheless; it cannot grow, not even by
nothing (`Reached.beyond_limits`).
-/

namespace WasmMachine

variable {σ α : Type}

/-! ## Memories and tables that fit their limits -/

/-- Limits whose least size is no more than the greatest size, if one is declared. -/
def Limits.Ordered (l : Limits) : Prop := ∀ max, l.max? = some max → l.min ≤ max

/-- A size that is no less than the least one, and more than it only where growth up to the
greatest one can have led. -/
structure Sized (least most size : Nat) : Prop where
  least_le : least ≤ size
  le_max : size ≤ max least most

namespace Sized

variable {least most size size' bound : Nat}

theorem start (least most : Nat) : Sized least most least := ⟨Nat.le_refl _, Nat.le_max_left _ _⟩

theorem grown (sized : Sized least most size)
    (step : size' = size ∨ ∃ delta, size + delta ≤ most ∧ size' = size + delta) :
    Sized least most size' := by
  rcases step with rfl | ⟨delta, room, rfl⟩
  · exact sized
  · constructor
    · exact Nat.le_trans sized.least_le (Nat.le_add_right _ _)
    · exact Nat.le_trans room (Nat.le_max_right _ _)

theorem le (sized : Sized least most size) (begun : least ≤ bound) (limit : most ≤ bound) :
    size ≤ bound :=
  Nat.le_trans sized.le_max (Nat.max_le.mpr ⟨begun, limit⟩)

end Sized

/-- A memory whose number of pages its limits account for. -/
def Memory.Fits (m : Memory) : Prop := Sized m.limits.min.toNat m.maxPages m.pages

/-- A table whose size its limits account for. -/
def Table.Fits (t : Table) : Prop := Sized t.type.limits.min.toNat t.maxSize t.size

namespace Memory

variable {m m' : Memory}

theorem new_fits (limits : Limits) : (new limits).Fits := by
  rw [Fits, pages_new]
  exact .start _ _

theorem Resizes.maxPages_eq (resizes : m.Resizes m') : m'.maxPages = m.maxPages := by
  rw [maxPages, maxPages, resizes.limits]

theorem Resizes.pages (resizes : m.Resizes m') : m'.pages = m.pages ∨
    ∃ delta, m.pages + delta ≤ m.maxPages ∧ m'.pages = m.pages + delta := by
  have page : 0 < pageSize := by decide
  rcases resizes.size with same | ⟨delta, room, more⟩
  · exact .inl (Nat.eq_of_mul_eq_mul_right page same)
  · exact .inr ⟨delta, room,
      Nat.eq_of_mul_eq_mul_right page (more.trans (Nat.add_mul _ _ _).symm)⟩

/-- Whatever is done to a memory, it fits its limits if it did before. -/
theorem Resizes.fits (resizes : m.Resizes m') (fits : m.Fits) : m'.Fits := by
  rw [Fits, resizes.limits, resizes.maxPages_eq]
  exact fits.grown resizes.pages

theorem maxPages_le (m : Memory) : m.maxPages ≤ WasmMachine.maxPages := by
  unfold maxPages
  split
  · exact Nat.le_refl _
  · exact Nat.min_le_right _ _

theorem maxPages_le_of_declared {max : UInt32} (declared : m.limits.max? = some max) :
    m.maxPages ≤ max.toNat := by
  rw [maxPages, declared]
  exact Nat.min_le_left _ _

/-- Limits that are in order, and begin with no more pages than any memory can have, leave the
size of the memory below what it can have. -/
theorem Fits.room (fits : m.Fits) (ordered : m.limits.Ordered)
    (small : m.limits.min.toNat ≤ WasmMachine.maxPages) : m.pages ≤ m.maxPages := by
  refine fits.le ?_ (Nat.le_refl _)
  unfold maxPages
  split
  · exact small
  · next max declared => exact Nat.le_min.mpr ⟨ordered max declared, small⟩

theorem grow_zero (room : m.pages ≤ m.maxPages) : grow 0 m = .ok (some m.pages) m := by
  unfold grow
  dsimp only
  rw [Nat.add_zero, if_pos room, resize_pages]

theorem grow_of_full (full : m.maxPages < m.pages) (delta : Nat) : grow delta m = .ok none m := by
  unfold grow
  dsimp only
  rw [if_neg (by omega)]

end Memory

namespace Table

variable {t t' : Table}

theorem new_fits (type : TableType) : (new type).Fits := by
  rw [Fits, size_new]
  exact .start _ _

theorem Resizes.maxSize_eq (resizes : t.Resizes t') : t'.maxSize = t.maxSize := by
  rw [maxSize, maxSize, resizes.type]

/-- Whatever is done to a table, it fits its limits if it did before. -/
theorem Resizes.fits (resizes : t.Resizes t') (fits : t.Fits) : t'.Fits := by
  rw [Fits, resizes.type, resizes.maxSize_eq]
  exact fits.grown resizes.size

theorem maxSize_lt (t : Table) : t.maxSize < UInt32.size := by
  unfold maxSize
  split
  · decide
  · next max _ => exact max.toNat_lt

theorem maxSize_of_declared {max : UInt32} (declared : t.type.limits.max? = some max) :
    t.maxSize = max.toNat := by
  rw [maxSize, declared]

/-- Limits that are in order leave the size of the table below what it can have. -/
theorem Fits.room (fits : t.Fits) (ordered : t.type.limits.Ordered) : t.size ≤ t.maxSize := by
  refine fits.le ?_ (Nat.le_refl _)
  unfold maxSize
  split
  · exact Nat.le_sub_one_of_lt t.type.limits.min.toNat_lt
  · next max declared => exact ordered max declared

theorem grow_zero (room : t.size ≤ t.maxSize) (v : Value) :
    grow 0 v t = .ok (.ofNat t.size) t := by
  unfold grow
  dsimp only
  rw [Nat.add_zero, if_pos room, Array.replicate_zero, Array.append_empty]

theorem grow_of_full (full : t.maxSize < t.size) (delta : Nat) (v : Value) :
    grow delta v t = .ok (-1) t := by
  unfold grow
  dsimp only
  rw [if_neg (by omega)]

end Table

/-! ## Everything that runs -/

/-- A store all of whose memories and tables fit their limits. -/
structure Store.Fits (s : Store σ) : Prop where
  memories : ∀ m ∈ s.memories, m.Fits
  tables : ∀ t ∈ s.tables, t.Fits

/-- No operation of the store takes a memory or a table out of its limits. -/
theorem StoreM.Op.fits {x : StoreM σ α} (op : Op x) {s : Store σ} (fits : s.Fits) :
    (stateAfter (x s)).Fits := by
  cases op with
  | @gets _ f _ =>
    unfold StoreM.gets
    cases f s <;> exact fits
  | setGlobal addr v =>
    unfold StoreM.setGlobal
    split
    · exact ⟨fits.memories, fits.tables⟩
    · exact fits
  | dropElem addr => exact ⟨fits.memories, fits.tables⟩
  | dropData addr => exact ⟨fits.memories, fits.tables⟩
  | @onTable _ addr y op =>
    rw [stateAfter_onTable]
    cases there : s.tables[addr]? with
    | none => exact fits
    | some t =>
      refine ⟨fits.memories, fun t' mem => ?_⟩
      rcases Array.mem_or_eq_of_mem_setIfInBounds mem with before | rfl
      · exact fits.tables t' before
      · exact (op.resizes t).fits (fits.tables t (Array.mem_of_getElem? there))
  | @onMemory _ addr y op =>
    rw [stateAfter_onMemory]
    cases there : s.memories[addr]? with
    | none => exact fits
    | some m =>
      refine ⟨fun m' mem => ?_, fits.tables⟩
      rcases Array.mem_or_eq_of_mem_setIfInBounds mem with before | rfl
      · exact fits.memories m' before
      · exact (op.resizes m).fits (fits.memories m (Array.mem_of_getElem? there))

/-- What a module defines has its least size. -/
theorem Store.Fits.allocate {s : Store σ} (fits : s.Fits) (module : Module) (inst : Nat)
    (name : String) : (s.allocate module inst name).Fits := by
  constructor
  · intro m mem
    change m ∈ s.memories ++ module.definedMemories.map (Memory.new ·.limits) at mem
    rcases Array.mem_append_list.mp mem with before | new
    · exact fits.memories m before
    · obtain ⟨type, -, rfl⟩ := List.mem_map.mp new
      exact Memory.new_fits type.limits
  · intro t mem
    change t ∈ s.tables ++ module.definedTables.map Table.new at mem
    rcases Array.mem_append_list.mp mem with before | new
    · exact fits.tables t before
    · obtain ⟨type, -, rfl⟩ := List.mem_map.mp new
      exact Table.new_fits type

namespace Machine

variable {m m' : Machine σ}

theorem Evolves.fits {Q : Module → Prop} {G : HostProg σ → Prop} {F : Nat → Prop}
    (evolves : m.Evolves Q G F m') (fits : m.store.Fits) : m'.store.Fits := by
  induction evolves with
  | refl | frames | fuel | world | register | publish => exact fits
  | trans _ _ first second => exact second (first fits)
  | store op m => exact op.fits fits
  | link | fill => exact ⟨fits.memories, fits.tables⟩
  | abandon | allocate => exact fits.allocate _ _ _

end Machine

/-- A machine that is reached fits, since a fresh one does and whatever happens keeps it so. -/
theorem Reached.fits {config : Config} {world : σ} {program : HostProg σ} {task : Task σ}
    {m : Machine σ} (reached : Reached config world program task m) : m.store.Fits := by
  apply reached.later.fits
  exact ⟨fun m mem => absurd mem (Array.not_mem_empty m),
    fun t mem => absurd mem (Array.not_mem_empty t)⟩

/-! ## Growing by nothing -/

theorem Value.toNat_ofSize {n : Nat} (small : n < UInt32.size) :
    (ofSize (some n)).u32.toNat = n := by
  rw [ofSize, u32_ofU32, UInt32.toNat_ofNat_of_lt' small]

namespace StoreM

theorem onMemory_kept {addr : Nat} {x : EStateM Trap Memory α} {s : Store σ} {m : Memory} {a : α}
    (there : s.memories[addr]? = some m) (ran : x m = .ok a m) : onMemory addr x s = .ok a s := by
  obtain ⟨lt, rfl⟩ := Array.getElem?_eq_some_iff.mp there
  rw [onMemory_of_lt lt, ran]
  dsimp only
  rw [Array.set_getElem_self]

theorem onTable_kept {addr : Nat} {x : EStateM Trap Table α} {s : Store σ} {t : Table} {a : α}
    (there : s.tables[addr]? = some t) (ran : x t = .ok a t) : onTable addr x s = .ok a s := by
  obtain ⟨lt, rfl⟩ := Array.getElem?_eq_some_iff.mp there
  rw [onTable_of_lt lt, ran]
  dsimp only
  rw [Array.set_getElem_self]

end StoreM

namespace Machine

/-- Growing the memory at an address by nothing succeeds with its number of pages and changes
nothing but the operands, from outside and in the code of every instance that has the memory. -/
structure KeepsMemory (m : Machine σ) (addr pages : Nat) : Prop where
  access : (Access.memoryGrow addr 0).perform m = (some (some pages), m)
  exec : ∀ (inst : Instance) (idx : MemIdx) (f : Frame) (below : Array Value) (delta : Value),
    inst.memAddr idx = .ok addr → f.stack = below.push delta → delta.u32 = 0 →
    ∃ v : Value, v.u32.toNat = pages ∧ (Instr.memoryGrow idx).exec inst ⟨f, m.store⟩
      = .ok .next ⟨{ f with stack := below.push v }, m.store⟩

/-- Growing the table at an address by nothing succeeds with its size and changes nothing but the
operands, from outside and in the code of every instance that has the table. -/
structure KeepsTable (m : Machine σ) (addr size : Nat) : Prop where
  access : ∀ v, ∃ n : Int32, n.toUInt32.toNat = size ∧
    (Access.tableGrow addr 0 v).perform m = (some n, m)
  exec : ∀ (inst : Instance) (idx : TableIdx) (f : Frame) (below : Array Value)
    (item delta : Value),
    inst.tableAddr idx = .ok addr → f.stack = (below.push item).push delta → delta.u32 = 0 →
    ∃ v : Value, v.u32.toNat = size ∧ (Instr.tableGrow idx).exec inst ⟨f, m.store⟩
      = .ok .next ⟨{ f with stack := below.push v }, m.store⟩

variable {m : Machine σ} {addr : Nat}

theorem keepsMemory {mem : Memory} (there : m.store.memories[addr]? = some mem)
    (room : mem.pages ≤ mem.maxPages) : m.KeepsMemory addr mem.pages := by
  have lt := (Array.getElem?_eq_some_iff.mp there).1
  have kept := StoreM.onMemory_kept there (Memory.grow_zero room)
  have small : mem.pages < UInt32.size :=
    Nat.lt_of_le_of_lt (Nat.le_trans room mem.maxPages_le) (by decide)
  constructor
  · simp only [Access.perform, onMemory?, lt, if_true, onStore_eq, kept, succeeded]
  · intro inst idx f below delta denotes top zero
    refine ⟨.ofSize (some mem.pages), Value.toNat_ofSize small, ?_⟩
    have found : (StoreM.checkMemory addr : StoreM σ Unit) m.store = .ok () m.store := by
      simp only [StoreM.checkMemory, StoreM.gets, lt, if_true]
    change (do
      let addr ← Act.memory inst idx
      let delta ← FrameM.popNat
      FrameM.push (.ofSize (← Act.onMemory addr (Memory.grow delta)))
      return .next : Act σ Flow) _ = _
    have none : (0 : UInt32).toNat = 0 := rfl
    simp [Act.memory, Act.ofExcept, Act.onStore, Act.onFrame, Act.onMemory, FrameM.popNat_eq,
      FrameM.push, denotes, found, top, zero, none, kept]

theorem keepsTable {t : Table} (there : m.store.tables[addr]? = some t)
    (room : t.size ≤ t.maxSize) : m.KeepsTable addr t.size := by
  have lt := (Array.getElem?_eq_some_iff.mp there).1
  have kept (v : Value) := StoreM.onTable_kept there (Table.grow_zero room v)
  have small : t.size < UInt32.size := Nat.lt_of_le_of_lt room t.maxSize_lt
  constructor
  · intro v
    have none : (0 : UInt32).toNat = 0 := rfl
    refine ⟨.ofNat t.size, UInt32.toNat_ofNat_of_lt' small, ?_⟩
    simp only [Access.perform, onTable?, lt, if_true, onStore_eq, none, kept, succeeded]
  · intro inst idx f below item delta denotes top zero
    refine ⟨.ofI32 (.ofNat t.size), Value.toNat_ofSize small, ?_⟩
    have found : (StoreM.checkTable addr : StoreM σ Unit) m.store = .ok () m.store := by
      simp only [StoreM.checkTable, StoreM.gets, lt, if_true]
    change (do
      let addr ← Act.table inst idx
      let delta ← FrameM.popNat
      let v ← FrameM.pop
      FrameM.push (.ofI32 (← Act.onTable addr (Table.grow delta v)))
      return .next : Act σ Flow) _ = _
    have none : (0 : UInt32).toNat = 0 := rfl
    simp [Act.table, Act.ofExcept, Act.onStore, Act.onFrame, Act.onTable, FrameM.popNat_eq,
      FrameM.pop_eq, FrameM.push, denotes, found, top, zero, none, kept]

end Machine

/-! ## Sizes within limits -/

/-- A memory that has no fewer pages than its limits say, no more than any memory can have unless
it has begun with more, and no more than its limits say unless these are out of order. -/
structure Memory.Within (m : Memory) : Prop where
  least : m.limits.min.toNat ≤ m.pages
  cap : m.limits.min.toNat ≤ WasmMachine.maxPages → m.pages ≤ WasmMachine.maxPages
  most : ∀ max, m.limits.max? = some max → m.limits.min ≤ max → m.pages ≤ max.toNat

/-- A table that has no fewer slots than its limits say, and no more unless these are out of
order. -/
structure Table.Within (t : Table) : Prop where
  least : t.type.limits.min.toNat ≤ t.size
  most : ∀ max, t.type.limits.max? = some max → t.type.limits.min ≤ max → t.size ≤ max.toNat

theorem Memory.Fits.within {m : Memory} (fits : m.Fits) : m.Within where
  least := fits.least_le
  cap small := fits.le small m.maxPages_le
  most _ declared ordered := fits.le ordered (maxPages_le_of_declared declared)

theorem Table.Fits.within {t : Table} (fits : t.Fits) : t.Within where
  least := fits.least_le
  most _ declared ordered := fits.le ordered (Nat.le_of_eq (maxSize_of_declared declared))

/-- Whatever is reached, all memories and tables are within their limits; and growing one by
nothing succeeds and gives its size, if its limits are in order and, for a memory, do not begin
with more pages than any can have. -/
theorem Reached.within_limits {config : Config} {world : σ} {program : HostProg σ} {task : Task σ}
    {m : Machine σ} (reached : Reached config world program task m) :
    (∀ (addr : Nat) (mem : Memory), m.store.memories[addr]? = some mem → mem.Within ∧
      (mem.limits.Ordered → mem.limits.min.toNat ≤ maxPages → m.KeepsMemory addr mem.pages)) ∧
    ∀ (addr : Nat) (t : Table), m.store.tables[addr]? = some t → t.Within ∧
      (t.type.limits.Ordered → m.KeepsTable addr t.size) := by
  refine ⟨fun addr mem there => ?_, fun addr t there => ?_⟩
  · have fits := reached.fits.memories mem (Array.mem_of_getElem? there)
    exact ⟨fits.within, fun ordered small => Machine.keepsMemory there (fits.room ordered small)⟩
  · have fits := reached.fits.tables t (Array.mem_of_getElem? there)
    exact ⟨fits.within, fun ordered => Machine.keepsTable there (fits.room ordered)⟩

/-- A memory that has been grown from outside, and a table, with limits that are in order. -/
theorem Reached.within_limits_of_grown :
    let sections : Sections := {
      memories := [⟨.between 0 2⟩], tables := [⟨.funcRef, .between 1 3⟩] }
    ∃ module, sections.build = .ok module ∧ ∃ task m mem t,
      Reached {} () (.enter (.instantiate "a" module {}) fun _ =>
        .access (.memoryGrow 0 1) fun _ =>
        .done default) task m ∧
      m.store.memories[0]? = some mem ∧ mem.limits = .between 0 2 ∧ mem.pages ≤ 2 ∧
      m.KeepsMemory 0 mem.pages ∧
      m.store.tables[0]? = some t ∧ t.type.limits = .between 1 3 ∧ 1 ≤ t.size ∧ t.size ≤ 3 ∧
      m.KeepsTable 0 t.size := by
  intro sections
  refine ⟨_, rfl, ?_⟩
  generalize built : Module.mk _ _ _ _ _ _ _ _ _ _ _ _ = module
  have ended : ((Machine.enter 9 (.instantiate "a" module {}) (Machine.new {} ())).bind fun p =>
      let m := ((Access.memoryGrow 0 1).perform p.2).2
      m.store.memories[0]?.bind fun mem => m.store.tables[0]?.map fun t =>
        (mem.limits, t.type.limits)) = some (.between 0 2, .between 1 3) := by
    subst built
    decide +kernel
  obtain ⟨⟨r, m⟩, run, ended⟩ := Option.bind_eq_some_iff.mp ended
  obtain ⟨mem, there, ended⟩ := Option.bind_eq_some_iff.mp ended
  obtain ⟨t, there', limits⟩ := Option.map_eq_some_iff.mp ended
  obtain ⟨declared, declared'⟩ := Prod.mk.inj limits
  have made : Reached {} () (.enter (.instantiate "a" module {}) fun _ =>
      .access (.memoryGrow 0 1)
    fun _ => .done default) (.host (.access (.memoryGrow 0 1) fun _ => .done default)) m :=
    Reached.begin.entered 9 run
  have grown := made.access
  obtain ⟨memories, tables⟩ := Reached.within_limits grown
  obtain ⟨within, keeps⟩ := memories 0 mem there
  obtain ⟨within', keeps'⟩ := tables 0 t there'
  have ordered : (Limits.between 0 2).Ordered := fun max is => by cases is; decide
  have ordered' : (Limits.between 1 3).Ordered := fun max is => by cases is; decide
  have most := within.most 2 (by rw [declared]; rfl) (by rw [declared]; decide)
  have most' := within'.most 3 (by rw [declared']; rfl) (by rw [declared']; decide)
  have least := within'.least
  rw [declared'] at least
  exact ⟨_, _, mem, t, grown, there, declared, most,
    keeps (declared ▸ ordered) (by rw [declared]; decide), there', declared', least, most',
    keeps' (declared' ▸ ordered')⟩

/-- A module with a table and a memory whose least size exceeds the greatest, and a memory
with more pages than any can have: all of them are made as large, and not one of them can
grow by nothing. -/
theorem Reached.beyond_limits :
    let bytes : List UInt8 := [
      0x00, 0x61, 0x73, 0x6d, 0x01, 0x00, 0x00, 0x00, 0x04, 0x05, 0x01, 0x70, 0x01, 0x03, 0x01,
      0x05, 0x08, 0x02, 0x01, 0x03, 0x01, 0x00, 0x81, 0x80, 0x04]
    ∃ module, Module.decode bytes = .ok module ∧ ∃ task m t mem large,
      Machine.enter 9 (.instantiate "a" module {}) (.new {} ()) = some (.ok 0, m) ∧
      Reached {} () (.enter (.instantiate "a" module {}) fun _ => .done default) task m ∧
      m.store.tables[0]? = some t ∧ t.type.limits = .between 3 1 ∧ 3 ≤ t.size ∧
      Table.grow 0 .null t = .ok (-1) t ∧
      m.store.memories[0]? = some mem ∧ mem.limits = .between 3 1 ∧ 3 ≤ mem.pages ∧
      Memory.grow 0 mem = .ok none mem ∧
      m.store.memories[1]? = some large ∧ large.limits = .atLeast 65537 ∧ 65537 ≤ large.pages ∧
      Memory.grow 0 large = .ok none large := by
  intro bytes
  have ended : ((Module.decode bytes).toOption.bind fun module =>
      (Machine.enter 9 (.instantiate "a" module {}) (Machine.new {} ())).bind fun p =>
        p.1.toOption.bind fun n => p.2.store.tables[0]?.bind fun t =>
          p.2.store.memories[0]?.bind fun mem => p.2.store.memories[1]?.map fun large =>
            (n, t.type.limits, mem.limits, large.limits))
      = some (0, .between 3 1, .between 3 1, .atLeast 65537) := by
    decide +kernel
  obtain ⟨module, decoded, ended⟩ := Option.bind_eq_some_iff.mp ended
  obtain ⟨⟨r, m⟩, run, ended⟩ := Option.bind_eq_some_iff.mp ended
  obtain ⟨n, success, ended⟩ := Option.bind_eq_some_iff.mp ended
  obtain ⟨t, table, ended⟩ := Option.bind_eq_some_iff.mp ended
  obtain ⟨mem, memory, ended⟩ := Option.bind_eq_some_iff.mp ended
  obtain ⟨large, memory', limits⟩ := Option.map_eq_some_iff.mp ended
  simp only [Prod.mk.injEq] at limits
  obtain ⟨rfl, declared, declared', declared''⟩ := limits
  cases (Except.of_toOption success : r = _)
  have reached : Reached {} () (.enter (.instantiate "a" module {}) fun _ => .done default)
    (.host (.done default)) m := Reached.begin.entered 9 run
  -- sizes come from the invariant: the bytes of the last memory are too many to be computed
  have size := (reached.fits.tables t (Array.mem_of_getElem? table)).least_le
  have pages := (reached.fits.memories mem (Array.mem_of_getElem? memory)).least_le
  have pages' := (reached.fits.memories large (Array.mem_of_getElem? memory')).least_le
  rw [declared] at size
  rw [declared'] at pages
  rw [declared''] at pages'
  have most : t.maxSize = 1 := Table.maxSize_of_declared (by rw [declared]; rfl)
  have most' : mem.maxPages = 1 := by rw [Memory.maxPages, declared']; rfl
  have most'' : large.maxPages = 65536 := by rw [Memory.maxPages, declared'']; rfl
  refine ⟨module, Except.of_toOption decoded, _, m, t, mem, large, run, reached, table, declared,
    size, ?_, memory,
    declared', pages, ?_, memory', declared'', pages', ?_⟩
  · exact Table.grow_of_full (most ▸ Nat.lt_of_lt_of_le (by decide) size) 0 .null
  · exact Memory.grow_of_full (most' ▸ Nat.lt_of_lt_of_le (by decide) pages) 0
  · exact Memory.grow_of_full (most'' ▸ Nat.lt_of_lt_of_le (by decide) pages') 0

end WasmMachine
