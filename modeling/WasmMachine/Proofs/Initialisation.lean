import WasmMachine.Proofs.Overlay
import WasmMachine.Proofs.StraightLine

/-!
# Initialisation

What a module without a start function and with straight-line constant expressions makes of the
store when it is instantiated.  First its own globals get their values one after the other, each
of them computed while the later ones are zero.  Then the element segments are gone through, and
then the data segments: an active one is written to its table or memory, over what the earlier
ones have left there, and dropped.  `Store.stage` is the store after some of them.

If all active segments fit, the instantiation succeeds and leaves the last stage; the first one
that does not fit ends it at the stage that it has reached (`Machine.instantiate_overlays`).
-/

namespace WasmMachine

variable {σ : Type}

/-! ## What segments come to -/

/-- The references of an element segment. -/
def Scope.values? (scope : Scope) : ElemItems → Option (List Value)
  | .funcs idxs => idxs.mapM fun idx => Value.funcRef <$> scope.funcs[idx.toNat]?
  | .exprs codes => codes.mapM scope.value?

namespace ElemSegment

/-- What an active segment writes to the table at an address, if this is its table. -/
def patch? (scope : Scope) (addr : Nat) (e : ElemSegment) : Option (Patch Value) :=
  match e.mode with
  | .active table offset =>
    if scope.tables[table.toNat]? = some addr then do
      return ⟨(← scope.value? offset).u32.toNat, ← scope.values? e.items⟩
    else none
  | _ => none

/-- What is kept of a segment: the references of a passive one. -/
def slot? (scope : Scope) (e : ElemSegment) : Option ElemInstance :=
  match e.mode with
  | .passive => ElemInstance.mk e.type <$> scope.values? e.items
  | _ => none

/-- A segment that has been allocated, its references still null. -/
def fresh (e : ElemSegment) : ElemInstance := ⟨e.type, List.replicate e.items.length .null⟩

/-- What an active segment writes lies within its table. -/
def Fits (scope : Scope) (s : Store σ) (e : ElemSegment) : Prop :=
  ∀ a p t, e.patch? scope a = some p → s.tables[a]? = some t → p.pos + p.items.length ≤ t.size

/-- The constant expressions of a segment. -/
def constants (e : ElemSegment) : List Code :=
  (match e.items with | .funcs _ => [] | .exprs codes => codes) ++
    match e.mode with | .active _ offset => [offset] | _ => []

end ElemSegment

namespace DataSegment

/-- What an active segment writes to the memory at an address, if this is its memory. -/
def patch? (scope : Scope) (addr : Nat) (d : DataSegment) : Option (Patch UInt8) :=
  match d.mode with
  | .active mem offset =>
    if scope.memories[mem.toNat]? = some addr then do
      return ⟨(← scope.value? offset).u32.toNat, d.bytes⟩
    else none
  | .passive => none

/-- What is kept of a segment: the bytes of a passive one. -/
def slot? (d : DataSegment) : Option (List UInt8) :=
  match d.mode with
  | .passive => some d.bytes
  | .active .. => none

/-- What an active segment writes lies within its memory. -/
def Fits (scope : Scope) (s : Store σ) (d : DataSegment) : Prop :=
  ∀ a p mem, d.patch? scope a = some p → s.memories[a]? = some mem →
    p.pos + p.items.length ≤ mem.size

/-- The constant expressions of a segment. -/
def constants (d : DataSegment) : List Code :=
  match d.mode with
  | .active _ offset => [offset]
  | .passive => []

end DataSegment

/-! ## Modules whose constant expressions are straight lines -/

namespace Module

/-- The constant expressions of a module. -/
def constants (module : Module) : List Code :=
  module.globalInits ++ module.elems.flatMap (·.constants) ++ module.datas.flatMap (·.constants)

/-- Index spaces as large as those of a module. -/
def scope (module : Module) : Scope where
  funcs := .replicate module.funcs.length 0
  tables := .replicate module.tables.length 0
  memories := .replicate module.memories.length 0
  globals := .replicate module.globals.length .null

/-- A module without a start function whose constant expressions are straight lines that leave one
value and whose indices all denote something. Only memory zero can be written to. -/
structure Straight (module : Module) : Prop where
  globals : ∀ code ∈ module.globalInits, (module.scope.value? code).isSome
  items : ∀ e ∈ module.elems, (module.scope.values? e.items).isSome
  elems : ∀ e ∈ module.elems, ∀ table offset, e.mode = .active table offset →
    table.toNat < module.tables.length ∧ (module.scope.value? offset).isSome
  datas : ∀ d ∈ module.datas, ∀ mem offset, d.mode = .active mem offset →
    (mem.val = 0 ∧ 0 < module.memories.length) ∧ (module.scope.value? offset).isSome
  start : module.start = none

end Module

/-! ## Segments whose indices denote something -/

/-- Everything in an element segment comes to something, in less than a number of steps. -/
structure ElemSegment.Known (scope : Scope) (s : Store σ) (bound : Nat)
    (e : ElemSegment) : Prop where
  items : (scope.values? e.items).isSome
  active : ∀ table offset, e.mode = .active table offset →
    (∃ a t, scope.tables[table.toNat]? = some a ∧ s.tables[a]? = some t) ∧
    (scope.value? offset).isSome
  short : ∀ code ∈ e.constants, code.size < bound

/-- Everything in a data segment comes to something, in less than a number of steps. -/
structure DataSegment.Known (scope : Scope) (s : Store σ) (bound : Nat)
    (d : DataSegment) : Prop where
  active : ∀ mem offset, d.mode = .active mem offset → mem.val = 0 ∧
    (∃ a t, scope.memories[mem.toNat]? = some a ∧ s.memories[a]? = some t) ∧
      (scope.value? offset).isSome
  short : ∀ code ∈ d.constants, code.size < bound

section Fits

variable {scope : Scope} {s : Store σ} {a : Nat} {v : Value}

theorem ElemSegment.patch?_active {e : ElemSegment} {table : TableIdx} {offset : Code}
    {vs : List Value}
    (mode : e.mode = .active table offset) (at_ : scope.tables[table.toNat]? = some a)
    (value : scope.value? offset = some v) (values : scope.values? e.items = some vs) (b : Nat) :
    e.patch? scope b = if a = b then some ⟨v.u32.toNat, vs⟩ else none := by
  rw [patch?, mode]
  simp only [at_, Option.some.injEq, value, values]
  rfl

theorem DataSegment.patch?_active {d : DataSegment} {mem : MemIdx} {offset : Code}
    (mode : d.mode = .active mem offset) (at_ : scope.memories[mem.toNat]? = some a)
    (value : scope.value? offset = some v) (b : Nat) :
    d.patch? scope b = if a = b then some ⟨v.u32.toNat, d.bytes⟩ else none := by
  rw [patch?, mode]
  simp only [at_, Option.some.injEq, value]
  rfl

/-- What is written at one address only lies within what the array has there. -/
theorem Patch.within_iff {α τ : Type} {xs : Array τ} {size : τ → Nat}
    {found : Nat → Option (Patch α)}
    {p : Patch α} {x : τ} (only : ∀ b, found b = if a = b then some p else none)
    (there : xs[a]? = some x) :
    (∀ b q y, found b = some q → xs[b]? = some y → q.pos + q.items.length ≤ size y) ↔
      p.pos + p.items.length ≤ size x := by
  constructor
  · exact fun fits => fits a p x ((only a).trans (if_pos rfl)) there
  · intro within b q y patched there'
    rw [only] at patched
    split at patched
    · next same =>
      cases patched
      cases there.symm.trans (same ▸ there')
      exact within
    · cases patched

theorem ElemSegment.fits_iff {e : ElemSegment} {p : Patch Value} {t : Table}
    (patch : ∀ b, e.patch? scope b = if a = b then some p else none)
    (there : s.tables[a]? = some t) :
    e.Fits scope s ↔ p.pos + p.items.length ≤ t.size :=
  Patch.within_iff patch there

theorem DataSegment.fits_iff {d : DataSegment} {p : Patch UInt8} {mem : Memory}
    (patch : ∀ b, d.patch? scope b = if a = b then some p else none)
    (there : s.memories[a]? = some mem) : d.Fits scope s ↔ p.pos + p.items.length ≤ mem.size :=
  Patch.within_iff patch there

end Fits

/-! ## Stages of an initialisation -/

/-- The store when the own globals of an instance have their values, the segments `es` and `ds`
have been initialised and `es'` and `ds'` have not been yet, where it was `s` before the instance
and `fresh` when everything had been allocated. -/
def Store.stage (s fresh : Store σ) (scope : Scope) (own : List Value) (es es' : List ElemSegment)
    (ds ds' : List DataSegment) : Store σ where
  funcs := fresh.funcs
  tables := fresh.tables.mapIdx fun a t => t.overlay (es.filterMap (·.patch? scope a))
  memories := fresh.memories.mapIdx fun a mem => mem.overlay (ds.filterMap (·.patch? scope a))
  globals := s.globals ++ own
  elems := s.elems ++ (es.map (·.slot? scope) ++ es'.map fun e => some e.fresh)
  datas := s.datas ++ (ds.map (·.slot?) ++ ds'.map fun d => some d.bytes)

section Arrays

variable {α : Type} (xs : Array α) (before after : List α) (x : α)

theorem Array.setIfInBounds_append_list (y : α) :
    (xs ++ (before ++ x :: after)).setIfInBounds (xs.size + before.length) y
      = xs ++ (before ++ y :: after) := by
  apply Array.ext'
  simp [Array.append_list]

theorem Array.modify_append_list (f : α → α) :
    (xs ++ (before ++ x :: after)).modify (xs.size + before.length) f
      = xs ++ (before ++ f x :: after) := by
  rw [← setIfInBounds_append_list xs before after x (f x)]
  have at_ : (xs ++ (before ++ x :: after))[xs.size + before.length]? = some x := by
    rw [Machine.getElem?_append_list, List.getElem?_append_right (Nat.le_refl _), Nat.sub_self]
    rfl
  apply Array.ext_getElem?
  intro k
  rw [Array.getElem?_modify, Array.getElem?_setIfInBounds]
  by_cases here : xs.size + before.length = k
  · subst here
    rw [if_pos rfl, if_pos rfl, at_, if_pos (Array.getElem?_eq_some_iff.mp at_).1]
    rfl
  · rw [if_neg here, if_neg here]

/-- One patch more, at one address, where each element takes the patches that are found for it. -/
theorem Array.mapIdx_filterMap_concat {β γ : Type} (write : List β → α → α)
    (found : γ → Nat → Option β) (cs : List γ) {c : γ} {a : Nat} {p : β} {x : α}
    (only : ∀ b, found c b = if a = b then some p else none) (there : xs[a]? = some x) :
    xs.mapIdx (fun b y => write ((cs ++ [c]).filterMap (found · b)) y) =
      (xs.mapIdx fun b y => write (cs.filterMap (found · b)) y).setIfInBounds a
        (write (cs.filterMap (found · a) ++ [p]) x) := by
  apply Array.ext_getElem?
  intro b
  rw [Array.getElem?_setIfInBounds]
  simp only [Array.getElem?_mapIdx, Array.size_mapIdx, List.filterMap_append]
  by_cases here : a = b
  · subst here
    rw [there, if_pos rfl, if_pos (Array.getElem?_eq_some_iff.mp there).1]
    simp [only]
  · rw [if_neg here]
    simp [only, here]

end Arrays

theorem StoreM.onTable_overlay {s : Store σ} {a : Nat} {t : Table} {ps : List (Patch Value)}
    (there : s.tables[a]? = some (t.overlay ps)) (p : Patch Value) :
    onTable a (Table.write p.pos p.items) s =
      if p.pos + p.items.length ≤ t.size then
        .ok () { s with tables := s.tables.setIfInBounds a (t.overlay (ps ++ [p])) }
      else .error .tableBounds s := by
  obtain ⟨lt, is⟩ := Array.getElem?_eq_some_iff.mp there
  rw [onTable_of_lt lt, is, Table.write_overlay]
  by_cases within : p.pos + p.items.length ≤ t.size
  · simp only [if_pos within, Array.setIfInBounds_def, dif_pos lt]
  · simp only [if_neg within, ← is, Array.set_getElem_self]

theorem StoreM.onMemory_overlay {s : Store σ} {a : Nat} {mem : Memory} {ps : List (Patch UInt8)}
    (there : s.memories[a]? = some (mem.overlay ps)) (p : Patch UInt8) :
    onMemory a (Memory.write p.pos p.items) s =
      if p.pos + p.items.length ≤ mem.size then
        .ok () { s with memories := s.memories.setIfInBounds a (mem.overlay (ps ++ [p])) }
      else .error .memoryBounds s := by
  obtain ⟨lt, is⟩ := Array.getElem?_eq_some_iff.mp there
  rw [onMemory_of_lt lt, is, Memory.write_overlay]
  by_cases within : p.pos + p.items.length ≤ mem.size
  · simp only [if_pos within, Array.setIfInBounds_def, dif_pos lt]
  · simp only [if_neg within, ← is, Array.set_getElem_self]

/-! ## Runs of constant expressions -/

theorem Instance.addrOf_eq {space : IndexSpace} {addrs : Array Nat} {idx : UInt32} {a : Nat}
    (at_ : addrs[idx.toNat]? = some a) : addrOf space addrs idx = .ok a := by
  rw [addrOf, at_]

namespace Run

variable {enter : Enter σ} {bound inst : Nat} {i : Instance} {scope : Scope} {m : Machine σ}

theorem instanceAt_eq (listed : m.instances[inst]? = some i) :
    instanceAt inst m = some (.ok i, m) := by
  rw [instanceAt, get_bind, listed]
  rfl

section Constants

variable (unmetered : m.fuel = none) (listed : m.instances[inst]? = some i)
  (sees : i.Sees m.store scope)
include unmetered listed sees

theorem constants_value {codes : List Code} {vs : List Value}
    (values : codes.mapM scope.value? = some vs) (long : ∀ code ∈ codes, code.size < bound) :
    constants enter bound inst codes m = some (.ok vs, m) := by
  induction codes generalizing vs with
  | nil =>
    cases values
    rfl
  | cons code codes ih =>
    rw [List.mapM_cons] at values
    obtain ⟨v, value, values⟩ := Option.bind_eq_some_iff.mp values
    obtain ⟨rest, others, same⟩ := Option.bind_eq_some_iff.mp values
    cases same
    have here := constant_value enter unmetered listed sees value
      (long code List.mem_cons_self)
    have later := ih others fun code mem => long code (List.mem_cons_of_mem _ mem)
    rw [constants, bind_apply, here]
    dsimp only
    rw [bind_apply, later]
    rfl

theorem elemValues_value {items : ElemItems} {vs : List Value}
    (values : scope.values? items = some vs)
    (long : ∀ codes, items = .exprs codes → ∀ code ∈ codes, code.size < bound) :
    elemValues enter bound inst items m = some (.ok vs, m) := by
  cases items with
  | exprs codes => exact constants_value unmetered listed sees values (long codes rfl)
  | funcs idxs =>
    have refs : ∀ (idxs : List FuncIdx) (vs : List Value),
        scope.values? (.funcs idxs) = some vs →
          (idxs.mapM fun idx => Value.funcRef <$> i.funcAddr idx) = .ok vs := by
      intro idxs
      induction idxs with
      | nil =>
        intro vs values
        cases values
        rfl
      | cons idx idxs ih =>
        intro vs values
        rw [Scope.values?, List.mapM_cons] at values
        obtain ⟨v, value, values⟩ := Option.bind_eq_some_iff.mp values
        obtain ⟨rest, others, same⟩ := Option.bind_eq_some_iff.mp values
        obtain ⟨a, at_, rfl⟩ := Option.map_eq_some_iff.mp value
        cases same
        have here : i.funcAddr idx = .ok a := Instance.addrOf_eq (sees.funcs ▸ at_)
        rw [List.mapM_cons, here, ih rest others]
        rfl
    rw [elemValues, funcRefs, bind_apply, instanceAt_eq listed]
    dsimp only
    rw [refs idxs vs values]
    rfl

theorem offset_value {code : Code} {v : Value} (value : scope.value? code = some v)
    (long : code.size < bound) : offset enter bound inst code m = some (.ok v.u32.toNat, m) := by
  rw [offset, bind_apply, constant_value enter unmetered listed sees value long]
  rfl

end Constants

end Run

/-! ## Globals -/

/-- The values of the imported globals. -/
def Externs.values (e : Externs) (globals : Array Value) : List Value :=
  e.globals.toList.map fun a => globals[a]?.getD .null

section Globals

variable {i : Instance} {e : Externs} {old : Array Value} {count : Nat}
  (spaces : i.globals = e.globals ++ freshAddrs old.size count)
  (real : ∀ a ∈ e.globals, a < old.size)
include spaces real

/-- The indices of an instance denote the values that are given and those that have been
appended. -/
theorem Instance.sees_of_globals {own : List Value} (all : own.length = count) {s : Store σ}
    (stored : s.globals = old ++ own) : i.Sees s (i.scope (e.values old ++ own)) where
  funcs := rfl
  globals k v at_ := by
    have given : (e.values old).length = e.globals.size := by simp [Externs.values]
    change (e.values old ++ own)[k]? = some v at at_
    rw [stored, spaces]
    rcases Nat.lt_or_ge k e.globals.size with import_ | own_
    · rw [List.getElem?_append_left (given ▸ import_), Externs.values, List.getElem?_map] at at_
      obtain ⟨a, here, rfl⟩ := Option.map_eq_some_iff.mp at_
      rw [Array.getElem?_toList] at here
      have there := real a (Array.mem_of_getElem? here)
      refine ⟨a, (Array.getElem?_append_left import_).trans here, ?_⟩
      rw [Array.append_list, Array.getElem?_append_left there, Array.getElem?_eq_getElem there]
      rfl
    · rw [List.getElem?_append_right (given ▸ own_), given] at at_
      have lt := (List.getElem?_eq_some_iff.mp at_).1
      refine ⟨old.size + (k - e.globals.size), ?_, ?_⟩
      · rw [Array.getElem?_append_right own_, Instance.getElem?_freshAddrs (all ▸ lt)]
      · rw [Machine.getElem?_append_list, at_]

/-- The own globals get their values in order; the rest of them is zero meanwhile. -/
theorem Run.initGlobals_value (enter : Enter σ) {bound inst : Nat} {m : Machine σ}
    (unmetered : m.fuel = none) (listed : m.instances[inst]? = some i) {codes : List Code}
    {before : List Value} (all : before.length + codes.length = count)
    (stored : m.store.globals = old ++ (before ++ List.replicate codes.length .null))
    (straight : ∀ code ∈ codes, ∀ own : List Value, own.length = count →
      ((i.scope (e.values old ++ own)).value? code).isSome)
    (long : ∀ code ∈ codes, code.size < bound) : ∃ vs : List Value, vs.length = codes.length ∧
      (∀ k code, codes[k]? = some code → ∃ v, vs[k]? = some v ∧
        (i.scope (e.values old ++ (before ++ vs.take k ++ List.replicate
          (codes.length - k) .null))).value?
          code = some v) ∧
      initGlobals enter bound inst (old.size + before.length) codes m = some (.ok (), { m with
        store := { m.store with globals := old ++ (before ++ vs) } }) := by
  induction codes generalizing m before with
  | nil =>
    refine ⟨[], rfl, fun k code there => (by cases there), ?_⟩
    have same : old ++ (before ++ []) = m.store.globals := stored.symm
    rw [initGlobals, same]
    rfl
  | cons code codes ih =>
    have now : (before ++ List.replicate (codes.length + 1) Value.null).length = count := by
      rw [List.length_append, List.length_replicate, ← all, List.length_cons]
    have sees := Instance.sees_of_globals spaces real now stored
    obtain ⟨v, value⟩ := Option.isSome_iff_exists.mp (straight code List.mem_cons_self _ now)
    have evaluated := constant_value enter unmetered listed sees value
      (long code List.mem_cons_self)
    have there : old.size + before.length < m.store.globals.size := by
      rw [stored, Array.append_list, Array.size_append]
      simp
    let m₁ := { m with store := { m.store with
      globals := old ++ (before ++ [v] ++ List.replicate codes.length Value.null) } }
    have set : store (StoreM.setGlobal (old.size + before.length) v) m = some (.ok (), m₁) := by
      rw [store_eq, StoreM.setGlobal, if_pos there, stored, List.length_cons, List.replicate_succ,
        Array.setIfInBounds_append_list]
      simp [m₁]
    obtain ⟨vs, length, values, ran⟩ := @ih m₁ unmetered listed (before ++ [v])
      (by simp at all ⊢; omega) rfl (fun c mem => straight c (List.mem_cons_of_mem _ mem))
      fun c mem => long c (List.mem_cons_of_mem _ mem)
    refine ⟨v :: vs, by simp [length], fun k c at_ => ?_, ?_⟩
    · cases k with
      | zero =>
        cases at_
        exact ⟨v, rfl, by simpa using value⟩
      | succ k =>
        obtain ⟨w, here, value⟩ := values k c at_
        refine ⟨w, here, ?_⟩
        rw [← value]
        simp
    · rw [initGlobals, bind_apply, evaluated]
      dsimp only
      rw [bind_apply, set]
      dsimp only
      rw [List.length_append, List.length_singleton, ← Nat.add_assoc] at ran
      rw [ran]
      simp [m₁]

end Globals

namespace Run

variable {enter : Enter σ} {bound inst : Nat} {i : Instance} {scope : Scope} {m : Machine σ}
  {s fresh : Store σ} {own : List Value} {es es' : List ElemSegment} {ds ds' : List DataSegment}

/-- Something that goes through a list, from the address `base` on, is at a stage after each
element that takes it from the stage before to that one. -/
theorem loop_through {α : Type} {step : Nat → α → Run σ Unit} (loop : Nat → List α → Run σ Unit)
    (stage : List α → List α → Machine σ) (base : Nat)
    (more : ∀ addr x xs, loop addr (x :: xs) = (do step addr x; loop (addr + 1) xs))
    {todo : List α} (advances : ∀ x ∈ todo, ∀ before after,
      step (base + before.length) x (stage before (x :: after))
        = some (.ok (), stage (before ++ [x]) after)) (before after : List α) :
    loop (base + before.length) (todo ++ after) (stage before (todo ++ after))
      = loop (base + (before ++ todo).length) after (stage (before ++ todo) after) := by
  induction todo generalizing before with
  | nil => rw [List.append_nil, List.nil_append]
  | cons x todo ih =>
    have rest := ih (fun y mem => advances y (List.mem_cons_of_mem _ mem)) (before ++ [x])
    rw [List.append_assoc, List.singleton_append] at rest
    rw [List.cons_append, more, bind_apply, advances x List.mem_cons_self]
    dsimp only
    rw [← rest, List.length_append, List.length_singleton, Nat.add_assoc]

/-! ## Element segments -/

/-- A stage goes on to the next one with an element segment that writes nothing. -/
theorem stage_elem_idle {e : ElemSegment} (idle : ∀ a, e.patch? scope a = none) :
    s.stage fresh scope own (es ++ [e]) es' ds ds' =
      { s.stage fresh scope own es (e :: es') ds ds' with
        elems := s.elems ++ (es.map (·.slot? scope) ++ e.slot? scope ::
          es'.map fun e => some e.fresh) } := by
  simp [Store.stage, List.filterMap_append, idle]

/-- A stage goes on to the next one with an element segment that writes to a table. -/
theorem stage_elem_written {e : ElemSegment} {a : Nat} {t : Table} {p : Patch Value}
    (patch : ∀ b, e.patch? scope b = if a = b then some p else none)
    (there : fresh.tables[a]? = some t) :
    s.stage fresh scope own (es ++ [e]) es' ds ds' =
      { s.stage fresh scope own es (e :: es') ds ds' with
        tables := (s.stage fresh scope own es (e :: es') ds ds').tables.setIfInBounds a
          (t.overlay (es.filterMap (·.patch? scope a) ++ [p]))
        elems := s.elems ++ (es.map (·.slot? scope) ++ e.slot? scope ::
          es'.map fun e => some e.fresh) } := by
  have tables : (s.stage fresh scope own (es ++ [e]) es' ds ds').tables
      = (s.stage fresh scope own es (e :: es') ds ds').tables.setIfInBounds a
          (t.overlay (es.filterMap (·.patch? scope a) ++ [p])) :=
    Array.mapIdx_filterMap_concat fresh.tables Table.overlay
      (fun (e : ElemSegment) a => e.patch? scope a) es patch there
  rw [← tables]
  simp [Store.stage]

/-- An active segment whose references and whose place are known is written and dropped. -/
theorem initElem_active {addr pos a : Nat} {e : ElemSegment} {vs : List Value} {table : TableIdx}
    {code : Code} (mode : e.mode = .active table code)
    (values : elemValues enter bound inst e.items m = some (.ok vs, m))
    (place : offset enter bound inst code m = some (.ok pos, m))
    (listed : m.instances[inst]? = some i) (at_ : i.tables[table.toNat]? = some a) :
    initElem enter bound inst addr e m = (do
      store (StoreM.onTable a (Table.write pos vs))
      store (StoreM.dropElem addr) : Run σ Unit) m := by
  have found : i.tableAddr table = .ok a := Instance.addrOf_eq at_
  rw [initElem, bind_apply, values]
  simp only [mode]
  rw [bind_apply, place]
  dsimp only
  rw [bind_apply, instanceAt_eq listed]
  simp only [found]
  rfl

section Elements

variable (enter) (unmetered : m.fuel = none) (listed : m.instances[inst]? = some i)
  (sees : ∀ S : Store σ, S.globals = s.globals ++ own → i.Sees S scope)
  (tables : scope.tables = i.tables)
include unmetered listed sees tables

/-- An element segment takes a stage to the next one if it fits, and ends in a trap if it does
not. -/
theorem initElem_stage {e : ElemSegment} (known : e.Known scope fresh bound) :
    let now := { m with store := s.stage fresh scope own es (e :: es') ds ds' }
    (e.Fits scope fresh → initElem enter bound inst (s.elems.size + es.length) e now
      = some (.ok (), { m with store := s.stage fresh scope own (es ++ [e]) es' ds ds' })) ∧
    (¬ e.Fits scope fresh → initElem enter bound inst (s.elems.size + es.length) e now
      = some (.error (.trap .tableBounds), now)) := by
  intro now
  obtain ⟨vs, values⟩ := Option.isSome_iff_exists.mp known.items
  have evaluated : elemValues enter bound inst e.items now = some (.ok vs, now) :=
    elemValues_value (m := now) unmetered listed (sees _ rfl) values fun codes exprs code mem =>
      known.short code (by simp [ElemSegment.constants, exprs, mem])
  have elems : now.store.elems = s.elems ++
      (es.map (·.slot? scope) ++ some e.fresh :: es'.map fun e => some e.fresh) := rfl
  have last : s.elems.size + es.length = s.elems.size + (es.map (·.slot? scope)).length := by
    rw [List.length_map]
  cases mode : e.mode with
  | active table code =>
    obtain ⟨⟨a, t, at_, there⟩, comes⟩ := known.active table code mode
    obtain ⟨pos, value⟩ := Option.isSome_iff_exists.mp comes
    have place : offset enter bound inst code now = some (.ok pos.u32.toNat, now) :=
      offset_value (m := now) unmetered listed (sees _ rfl) value
        (known.short code (by simp [ElemSegment.constants, mode]))
    let p : Patch Value := ⟨pos.u32.toNat, vs⟩
    have patch (b : Nat) : e.patch? scope b = if a = b then some p else none :=
      ElemSegment.patch?_active mode at_ value values b
    have current : now.store.tables[a]? = some (t.overlay (es.filterMap (·.patch? scope a))) := by
      change (fresh.tables.mapIdx _)[a]? = _
      rw [Array.getElem?_mapIdx, there]
      rfl
    rw [ElemSegment.fits_iff patch there,
      initElem_active mode evaluated place listed (tables ▸ at_), bind_apply, store_eq,
      StoreM.onTable_overlay current p]
    refine ⟨fun within => ?_, fun beyond => by rw [if_neg beyond]⟩
    rw [if_pos within]
    dsimp only
    rw [store_eq, StoreM.dropElem, stage_elem_written patch there, last]
    dsimp only
    rw [elems, Array.setIfInBounds_append_list, ElemSegment.slot?, mode]
  | declarative =>
    have idle (a : Nat) : e.patch? scope a = none := by rw [ElemSegment.patch?, mode]
    have fits : e.Fits scope fresh := fun a p t patch => by rw [idle] at patch; cases patch
    refine ⟨fun _ => ?_, fun misfit => absurd fits misfit⟩
    rw [initElem, bind_apply, evaluated]
    simp only [mode]
    rw [store_eq, StoreM.dropElem, stage_elem_idle idle, elems, last,
      Array.setIfInBounds_append_list, ElemSegment.slot?, mode]
  | passive =>
    have idle (a : Nat) : e.patch? scope a = none := by rw [ElemSegment.patch?, mode]
    have fits : e.Fits scope fresh := fun a p t patch => by rw [idle] at patch; cases patch
    refine ⟨fun _ => ?_, fun misfit => absurd fits misfit⟩
    rw [initElem, bind_apply, evaluated]
    simp only [mode]
    rw [store_eq, StoreM.fillElem, stage_elem_idle idle, elems, last, Array.modify_append_list,
      ElemSegment.slot?, mode, values]
    rfl

theorem initElems_all (known : ∀ e ∈ es, e.Known scope fresh bound)
    (fit : ∀ e ∈ es, e.Fits scope fresh) :
    initElems enter bound inst s.elems.size es
        { m with store := s.stage fresh scope own [] es ds ds' }
      = some (.ok (), { m with store := s.stage fresh scope own es [] ds ds' }) := by
  have done := loop_through (initElems enter bound inst)
    (fun es es' => { m with store := s.stage fresh scope own es es' ds ds' }) s.elems.size
    (fun _ _ _ => rfl) (fun e mem _ _ =>
      (initElem_stage enter unmetered listed sees tables (known e mem)).1 (fit e mem)) [] []
  rwa [List.append_nil] at done

variable (ds ds') in
theorem initElems_misfit {e : ElemSegment}
    (known : ∀ seg ∈ es ++ e :: es', seg.Known scope fresh bound)
    (fit : ∀ e ∈ es, e.Fits scope fresh) (misfit : ¬ e.Fits scope fresh) :
    initElems enter bound inst s.elems.size (es ++ e :: es')
        { m with store := s.stage fresh scope own [] (es ++ e :: es') ds ds' }
      = some (.error (.trap .tableBounds),
        { m with store := s.stage fresh scope own es (e :: es') ds ds' }) := by
  have before := loop_through (initElems enter bound inst)
    (fun es es' => { m with store := s.stage fresh scope own es es' ds ds' }) s.elems.size
    (fun _ _ _ => rfl) (fun seg mem _ _ => (initElem_stage enter unmetered listed sees tables
      (known seg (List.mem_append_left _ mem))).1 (fit seg mem)) [] (e :: es')
  have here := known e (List.mem_append_right _ List.mem_cons_self)
  refine before.trans ?_
  rw [List.nil_append, initElems, bind_apply,
    (initElem_stage enter unmetered listed sees tables here).2 misfit]

end Elements

/-! ## Data segments -/

/-- A passive data segment stays as it is. -/
theorem stage_data_idle {d : DataSegment} (passive : d.mode = .passive) :
    s.stage fresh scope own es es' (ds ++ [d]) ds' = s.stage fresh scope own es es' ds
      (d :: ds') := by
  have idle (a : Nat) : d.patch? scope a = none := by rw [DataSegment.patch?, passive]
  have kept : d.slot? = some d.bytes := by rw [DataSegment.slot?, passive]
  simp [Store.stage, List.filterMap_append, idle, kept]

/-- A stage goes on to the next one with a data segment that writes to a memory. -/
theorem stage_data_written {d : DataSegment} {a : Nat} {mem : Memory} {p : Patch UInt8}
    (patch : ∀ b, d.patch? scope b = if a = b then some p else none)
    (there : fresh.memories[a]? = some mem) :
    s.stage fresh scope own es es' (ds ++ [d]) ds' =
      { s.stage fresh scope own es es' ds (d :: ds') with
        memories := (s.stage fresh scope own es es' ds (d :: ds')).memories.setIfInBounds a
          (mem.overlay (ds.filterMap (·.patch? scope a) ++ [p]))
        datas := s.datas ++ (ds.map (·.slot?) ++ d.slot? :: ds'.map fun d => some d.bytes) } := by
  have memories : (s.stage fresh scope own es es' (ds ++ [d]) ds').memories
      = (s.stage fresh scope own es es' ds (d :: ds')).memories.setIfInBounds a
          (mem.overlay (ds.filterMap (·.patch? scope a) ++ [p])) :=
    Array.mapIdx_filterMap_concat fresh.memories Memory.overlay
      (fun (d : DataSegment) a => d.patch? scope a) ds patch there
  rw [← memories]
  simp [Store.stage]

/-- An active segment whose place is known is written and dropped. -/
theorem initData_active {addr pos a : Nat} {d : DataSegment} {mem : MemIdx} {code : Code}
    (mode : d.mode = .active mem code) (first : mem.val = 0)
    (place : offset enter bound inst code m = some (.ok pos, m))
    (listed : m.instances[inst]? = some i) (at_ : i.memories[mem.toNat]? = some a) :
    initData enter bound inst addr d m = (do
      store (StoreM.onMemory a (Memory.write pos d.bytes))
      store (StoreM.dropData addr) : Run σ Unit) m := by
  have found : i.memAddr mem = .ok a := by
    rw [Instance.memAddr, if_neg (not_not_intro first), Instance.addrOf_eq at_]
  rw [initData]
  simp only [mode]
  rw [bind_apply, place]
  dsimp only
  rw [bind_apply, instanceAt_eq listed]
  simp only [found]
  rfl

section Datas

variable (enter) (unmetered : m.fuel = none) (listed : m.instances[inst]? = some i)
  (sees : ∀ S : Store σ, S.globals = s.globals ++ own → i.Sees S scope)
  (memories : scope.memories = i.memories)
include unmetered listed sees memories

/-- A data segment takes a stage to the next one if it fits, and ends in a trap if it does not. -/
theorem initData_stage {d : DataSegment} (known : d.Known scope fresh bound) :
    let now := { m with store := s.stage fresh scope own es es' ds (d :: ds') }
    (d.Fits scope fresh → initData enter bound inst (s.datas.size + ds.length) d now
      = some (.ok (), { m with store := s.stage fresh scope own es es' (ds ++ [d]) ds' })) ∧
    (¬ d.Fits scope fresh → initData enter bound inst (s.datas.size + ds.length) d now
      = some (.error (.trap .memoryBounds), now)) := by
  intro now
  have datas : now.store.datas = s.datas ++
      (ds.map (·.slot?) ++ some d.bytes :: ds'.map fun d => some d.bytes) := rfl
  have last : s.datas.size + ds.length = s.datas.size + (ds.map (·.slot?)).length := by
    rw [List.length_map]
  cases mode : d.mode with
  | active mem code =>
    obtain ⟨first, ⟨a, t, at_, there⟩, comes⟩ := known.active mem code mode
    obtain ⟨pos, value⟩ := Option.isSome_iff_exists.mp comes
    have place : offset enter bound inst code now = some (.ok pos.u32.toNat, now) :=
      offset_value (m := now) unmetered listed (sees _ rfl) value
        (known.short code (by simp [DataSegment.constants, mode]))
    let p : Patch UInt8 := ⟨pos.u32.toNat, d.bytes⟩
    have patch (b : Nat) : d.patch? scope b = if a = b then some p else none :=
      DataSegment.patch?_active mode at_ value b
    have current : now.store.memories[a]? =
        some (t.overlay (ds.filterMap (·.patch? scope a))) := by
      change (fresh.memories.mapIdx _)[a]? = _
      rw [Array.getElem?_mapIdx, there]
      rfl
    rw [DataSegment.fits_iff patch there,
      initData_active mode first place listed (memories ▸ at_), bind_apply, store_eq,
      StoreM.onMemory_overlay current p]
    refine ⟨fun within => ?_, fun beyond => by rw [if_neg beyond]⟩
    rw [if_pos within]
    dsimp only
    rw [store_eq, StoreM.dropData, stage_data_written patch there, last]
    dsimp only
    rw [datas, Array.setIfInBounds_append_list, DataSegment.slot?, mode]
  | passive =>
    have idle (a : Nat) : d.patch? scope a = none := by rw [DataSegment.patch?, mode]
    have fits : d.Fits scope fresh := fun a p t patch => by rw [idle] at patch; cases patch
    refine ⟨fun _ => ?_, fun misfit => absurd fits misfit⟩
    rw [initData, stage_data_idle mode]
    simp only [mode]
    rfl

theorem initDatas_all (known : ∀ d ∈ ds, d.Known scope fresh bound)
    (fit : ∀ d ∈ ds, d.Fits scope fresh) :
    initDatas enter bound inst s.datas.size ds
        { m with store := s.stage fresh scope own es es' [] ds }
      = some (.ok (), { m with store := s.stage fresh scope own es es' ds [] }) := by
  have done := loop_through (initDatas enter bound inst)
    (fun ds ds' => { m with store := s.stage fresh scope own es es' ds ds' }) s.datas.size
    (fun _ _ _ => rfl) (fun d mem _ _ =>
      (initData_stage enter unmetered listed sees memories (known d mem)).1 (fit d mem)) [] []
  rwa [List.append_nil] at done

variable (es es') in
theorem initDatas_misfit {d : DataSegment}
    (known : ∀ seg ∈ ds ++ d :: ds', seg.Known scope fresh bound)
    (fit : ∀ d ∈ ds, d.Fits scope fresh) (misfit : ¬ d.Fits scope fresh) :
    initDatas enter bound inst s.datas.size (ds ++ d :: ds')
        { m with store := s.stage fresh scope own es es' [] (ds ++ d :: ds') }
      = some (.error (.trap .memoryBounds),
        { m with store := s.stage fresh scope own es es' ds (d :: ds') }) := by
  have before := loop_through (initDatas enter bound inst)
    (fun ds ds' => { m with store := s.stage fresh scope own es es' ds ds' }) s.datas.size
    (fun _ _ _ => rfl) (fun seg mem _ _ => (initData_stage enter unmetered listed sees memories
      (known seg (List.mem_append_left _ mem))).1 (fit seg mem)) [] (d :: ds')
  have here := known d (List.mem_append_right _ List.mem_cons_self)
  refine before.trans ?_
  rw [List.nil_append, initDatas, bind_apply,
    (initData_stage enter unmetered listed sees memories here).2 misfit]

end Datas

end Run

/-! ## Instantiation -/

theorem List.isSome_mapM {α β : Type} {f : α → Option β} {xs : List α} :
    (xs.mapM f).isSome ↔ ∀ x ∈ xs, (f x).isSome := by
  induction xs with
  | nil => simp
  | cons x xs ih =>
    rw [List.forall_mem_cons, ← ih, List.mapM_cons]
    cases f x <;> cases xs.mapM f <;> simp

/-- Whether an element segment comes to anything depends on how many functions and globals there
are. -/
theorem Scope.values?_isSome_congr {scope other : Scope} {items : ElemItems}
    (funcs : scope.funcs.size = other.funcs.size)
    (globals : scope.globals.length = other.globals.length)
    (known : (scope.values? items).isSome) :
    (other.values? items).isSome := by
  cases items with
  | funcs idxs =>
    refine List.isSome_mapM.mpr fun idx mem => ?_
    exact operand?_isSome_congr funcs globals (.refFunc idx) ▸ List.isSome_mapM.mp known idx mem
  | exprs codes =>
    exact List.isSome_mapM.mpr fun code mem =>
      value?_isSome_congr funcs globals (List.isSome_mapM.mp known code mem)

/-- The first stage: everything has been allocated, and the own globals have their values. -/
theorem Store.allocate_eq_stage (s : Store σ) (module : Module) (number : Nat) (name : String)
    (scope : Scope) (own : List Value) :
    { s.allocate module number name with globals := s.globals ++ own } =
      s.stage (s.allocate module number name) scope own [] module.elems [] module.datas := by
  have tables (t : Table) : t.overlay [] = t := by rw [Table.overlay, overlay_nil]
  have memories (mem : Memory) : mem.overlay [] = mem :=
    Memory.ext rfl rfl (congrArg ByteArray.mk (overlay_nil _))
  have same {α : Type} (xs : Array α) : xs.mapIdx (fun _ x => x) = xs := by
    apply Array.ext_getElem?
    simp
  simp [stage, allocate, tables, memories, same, ElemSegment.fresh]

namespace Machine

variable {m : Machine σ} {module : Module} {e : Externs} {bound : Nat}

section Known

variable (first : module.ImportsFirst) (checked : m.checkImports module e = .ok ()) {number : Nat}
  {name : String} {i : Instance}
  (same : i = { Instance.allocated m.store module number name e with exports := i.exports })
  {own : List Value} (all : own.length = module.globalInits.length)
include first checked same all

/-- The index spaces of an instance are as large as those of its module. -/
theorem scope_sizes :
    module.scope.funcs.size = (i.scope (e.values m.store.globals ++ own)).funcs.size ∧
    module.scope.globals.length = (i.scope (e.values m.store.globals ++ own)).globals.length := by
  constructor
  · change (Array.replicate module.funcs.length 0).size = i.funcs.size
    rw [Array.size_replicate, same, (first.covers checked number name).funcs]
  · change (List.replicate module.globals.length Value.null).length
      = (e.values m.store.globals ++ own).length
    rw [List.length_replicate, List.length_append, all, Externs.values, List.length_map,
      Array.length_toList, (checkImports_counts checked).2.2.2, first.globals]

variable (ordered : module.ImportsInOrder) (straight : module.Straight)
  (long : ∀ code ∈ module.constants, code.size < bound)
include ordered straight long

theorem elem_known {seg : ElemSegment} (mem : seg ∈ module.elems) :
    seg.Known (i.scope (e.values m.store.globals ++ own))
      (m.store.allocate module number name) bound := by
  obtain ⟨funcs, globals⟩ := scope_sizes first checked same all
  refine ⟨Scope.values?_isSome_congr funcs globals (straight.items seg mem),
    fun table offset mode => ?_,
    fun code here => long code ?_⟩
  · obtain ⟨lt, known⟩ := straight.elems seg mem table offset mode
    obtain ⟨a, t, at_, there, -⟩ :=
      allocated_table first ordered checked number name (List.getElem?_eq_getElem lt)
    refine ⟨⟨a, t, ?_, there⟩, Scope.value?_isSome_congr funcs globals known⟩
    change i.tables[table.toNat]? = some a
    rw [same]
    exact at_
  · rw [Module.constants, List.mem_append, List.mem_append]
    exact .inl (.inr (List.mem_flatMap.mpr ⟨seg, mem, here⟩))

theorem data_known {seg : DataSegment} (mem : seg ∈ module.datas) :
    seg.Known (i.scope (e.values m.store.globals ++ own))
      (m.store.allocate module number name) bound := by
  obtain ⟨funcs, globals⟩ := scope_sizes first checked same all
  refine ⟨fun memory offset mode => ?_, fun code here => long code ?_⟩
  · obtain ⟨⟨zero, lt⟩, known⟩ := straight.datas seg mem memory offset mode
    obtain ⟨a, t, at_, there, -⟩ :=
      allocated_memory first ordered checked number name (List.getElem?_eq_getElem lt)
    refine ⟨zero, ⟨a, t, ?_, there⟩, Scope.value?_isSome_congr funcs globals known⟩
    change i.memories[memory.val.toNat]? = some a
    rw [zero, same]
    exact at_
  · rw [Module.constants, List.mem_append]
    exact .inr (List.mem_flatMap.mpr ⟨seg, mem, here⟩)

end Known

/-- The own globals get the values of their initialisers, each of which is computed while its
global and the later ones are zero; the store is at its first stage then. -/
theorem initGlobals_stage {name : String} {i : Instance} (first : module.ImportsFirst)
    (checked : m.checkImports module e = .ok ())
    (same : i =
      { Instance.allocated m.store module m.instances.size name e with exports := i.exports })
    (straight : module.Straight) (unmetered : m.fuel = none)
    (real : ∀ a ∈ e.globals, a < m.store.globals.size)
    (long : ∀ code ∈ module.constants, code.size < bound) :
    ∃ own : List Value, own.length = module.globalInits.length ∧
      (∀ k code, module.globalInits[k]? = some code → ∃ v, own[k]? = some v ∧
        (i.scope (e.values m.store.globals ++
          (own.take k ++ List.replicate (own.length - k) .null))).value? code = some v) ∧
      ∀ scope, Run.initGlobals (Machine.enter bound) bound m.instances.size m.store.globals.size
        module.globalInits (m.adding name module i) = some (.ok (), { m.adding name module i with
          store := m.store.stage (m.store.allocate module m.instances.size name) scope own
            [] module.elems [] module.datas }) := by
  have spaces : i.globals =
      e.globals ++ freshAddrs m.store.globals.size module.globalInits.length := by
    rw [same]
    rfl
  have listed : (m.adding name module i).instances[m.instances.size]? = some i :=
    Array.getElem?_push_size
  have zero : (m.adding name module i).store.globals = m.store.globals ++
      ([] ++ List.replicate module.globalInits.length Value.null) := by
    change m.store.globals ++ module.globalInits.map (fun _ => Value.null) = _
    rw [List.map_const', List.nil_append]
  have known (code) (mem : code ∈ module.globalInits) (own : List Value)
      (all : own.length = module.globalInits.length) :
      ((i.scope (e.values m.store.globals ++ own)).value? code).isSome := by
    obtain ⟨funcs, globals⟩ := scope_sizes first checked same all
    exact Scope.value?_isSome_congr funcs globals (straight.globals code mem)
  obtain ⟨own, all, values, globals⟩ := Run.initGlobals_value spaces real (Machine.enter bound)
    (m := m.adding name module i) unmetered listed (Nat.zero_add _) zero known
    fun code mem => long code (List.mem_append_left _ (List.mem_append_left _ mem))
  refine ⟨own, all, by simpa [all] using values, fun scope => ?_⟩
  have stored := Store.allocate_eq_stage m.store module m.instances.size name scope own
  exact globals.trans
    (congrArg (fun s => some (Except.ok (), { m.adding name module i with store := s })) stored)

/-- Instantiating a module without a start function whose constant expressions are straight lines,
on a machine without a meter that has the globals that are given. Each own global has the value of
its initialiser, computed while it and the later ones are zero. If all active segments fit, the
store is at its last stage and the instance is ready under its name. The first one that does not
fit traps; what the earlier ones have written stays, the later ones are untouched, and there is an
instance that is not ready. -/
theorem instantiate_overlays (name : String) (exporting : module.Exporting)
    (straight : module.Straight)
    (unmetered : m.fuel = none) (checked : m.checkImports module e = .ok ())
    (real : ∀ a ∈ e.globals, a < m.store.globals.size)
    (long : ∀ code ∈ module.constants, code.size < bound) :
    ∃ (i : Instance) (own : List Value),
      (Instance.allocated m.store module m.instances.size name e).addExports module.exports =
        .ok i ∧
      own.length = module.globalInits.length ∧
      (∀ k code, module.globalInits[k]? = some code → ∃ v, own[k]? = some v ∧
        (i.scope (e.values m.store.globals ++
          (own.take k ++ List.replicate (own.length - k) .null))).value? code = some v) ∧
      let scope := i.scope (e.values m.store.globals ++ own)
      let fresh := m.store.allocate module m.instances.size name
      let run := Machine.enter (bound + 1) (.instantiate name module e) m
      ((∀ seg ∈ module.elems, seg.Fits scope fresh) →
        (∀ seg ∈ module.datas, seg.Fits scope fresh) →
        run = some (.ok m.instances.size, { m with
          store := m.store.stage fresh scope own module.elems [] module.datas []
          instances := m.instances.push { i with ready := true }
          names := m.names.insert name m.instances.size })) ∧
      (∀ es seg es', module.elems = es ++ seg :: es' → (∀ seg ∈ es, seg.Fits scope fresh) →
        ¬ seg.Fits scope fresh → run = some (.error (.trap .tableBounds), { m with
          store := m.store.stage fresh scope own es (seg :: es') [] module.datas
          instances := m.instances.push i })) ∧
      ∀ ds seg ds', module.datas = ds ++ seg :: ds' →
      (∀ seg ∈ module.elems, seg.Fits scope fresh) →
        (∀ seg ∈ ds, seg.Fits scope fresh) → ¬ seg.Fits scope fresh →
        run = some (.error (.trap .memoryBounds), { m with
          store := m.store.stage fresh scope own module.elems [] ds (seg :: ds')
          instances := m.instances.push i }) := by
  obtain ⟨s, built⟩ := exporting.built
  have first := Sections.build_importsFirst built
  have ordered := Sections.build_importsInOrder built
  obtain ⟨i, exports⟩ := exporting.addExports_total checked m.instances.size name
  have same := Instance.addExports_eq exports
  have spaces : i.globals =
      e.globals ++ freshAddrs m.store.globals.size module.globalInits.length := by
    rw [same]
    rfl
  let number := m.instances.size
  let fresh := m.store.allocate module number name
  let made : Machine σ := { m with store := fresh, instances := m.instances.push i }
  have listed : made.instances[number]? = some i := Array.getElem?_push_size
  -- the globals
  obtain ⟨own, all, values, globals⟩ :=
    initGlobals_stage first checked same straight unmetered real long
  -- the segments
  let scope := i.scope (e.values m.store.globals ++ own)
  let stage (es es' : List ElemSegment) (ds ds' : List DataSegment) : Machine σ :=
    { made with store := m.store.stage fresh scope own es es' ds ds' }
  have sees (S : Store σ) (stored : S.globals = m.store.globals ++ own) : i.Sees S scope :=
    Instance.sees_of_globals spaces real all stored
  have elems {seg} (mem : seg ∈ module.elems) : seg.Known scope fresh bound :=
    elem_known first checked same all ordered straight long mem
  have datas {seg} (mem : seg ∈ module.datas) : seg.Known scope fresh bound :=
    data_known first checked same all ordered straight long mem
  have ready : Run.initGlobals (Machine.enter bound) bound number m.store.globals.size
      module.globalInits made = some (.ok (), stage [] module.elems [] module.datas) :=
    globals scope
  have run : Machine.enter (bound + 1) (.instantiate name module e) m = (do
      Run.initElems (Machine.enter bound) bound number m.store.elems.size module.elems
      Run.initDatas (Machine.enter bound) bound number m.store.datas.size module.datas
      Run.publish number name
      return number : Run σ Nat) (stage [] module.elems [] module.datas) := by
    change Run.instantiate _ _ name module e m = _
    rw [Run.instantiate_eq_setUp, Run.bind_apply, Run.allocate_eq, checked]
    simp only [exports]
    rw [Run.setUp, Run.bind_apply, ready, straight.start]
    rfl
  have allElems (fit : ∀ seg ∈ module.elems, seg.Fits scope fresh) :
      Run.initElems (Machine.enter bound) bound number m.store.elems.size module.elems
        (stage [] module.elems [] module.datas) =
          some (.ok (), stage module.elems [] [] module.datas) :=
    Run.initElems_all (m := made) _ unmetered listed sees rfl (fun seg mem => elems mem) fit
  refine ⟨i, own, exports, all, values, fun fitE fitD => ?_,
    fun es seg es' whole fit misfit => ?_, fun ds seg ds' whole fitE fit misfit => ?_⟩
  · rw [run, Run.bind_apply, allElems fitE]
    dsimp only
    rw [Run.bind_apply, Run.initDatas_all (m := made) _ unmetered listed sees rfl
      (fun seg mem => datas mem) fitD]
    simp only [Run.publish, Run.modify_bind, made, number, Run.modify_push_size]
    rfl
  · have ended := Run.initElems_misfit (m := made) (Machine.enter bound) [] module.datas unmetered
      listed sees rfl (fun seg mem => elems (whole ▸ mem)) fit misfit
    rw [← whole] at ended
    rw [run, Run.bind_apply, ended]
  · have ended := Run.initDatas_misfit (m := made) (Machine.enter bound) module.elems [] unmetered
      listed sees rfl (fun seg mem => datas (whole ▸ mem)) fit misfit
    rw [← whole] at ended
    rw [run, Run.bind_apply, allElems fitE]
    dsimp only
    rw [Run.bind_apply, ended]

/-- A module with a global that says where the first of two overlapping element segments goes, and
whose second data segment does not fit. -/
theorem instantiate_overlays_until_misfit :
    let sections : Sections := {
      types := [⟨[], []⟩], funcs := [⟨0⟩, ⟨0⟩], bodies := [⟨[], #[.endOf]⟩, ⟨[], #[.endOf]⟩]
      tables := [⟨.funcRef, .atLeast 3⟩], memories := [⟨.atLeast 0⟩]
      globals := [⟨⟨.i32, .const⟩, #[.i32Const 1, .endOf]⟩]
      elems := [⟨.active ⟨0⟩ #[.globalGet ⟨0⟩, .endOf], .funcRef, .funcs [⟨0⟩, ⟨0⟩], 0⟩,
        ⟨.active ⟨0⟩ #[.i32Const 2, .endOf], .funcRef, .funcs [⟨1⟩], 0⟩]
      datas :=
        [⟨.active ⟨0⟩ #[.i32Const 0, .endOf], []⟩, ⟨.active ⟨0⟩ #[.i32Const 1, .endOf], [7]⟩,
        ⟨.passive, [9]⟩] }
    ∃ module, sections.build = .ok module ∧ module.Exporting ∧ module.Straight ∧
      ∃ m', Machine.enter 9 (.instantiate "a" module {}) (Machine.new {} ())
          = some (.error (.trap .memoryBounds), m') ∧
        m'.store.tables.map (·.values) = #[#[.null, .funcRef 0, .funcRef 1]] ∧
        m'.store.datas = #[none, some [7], some [9]] ∧ m'.instances.size = 1 := by
  intro sections
  refine ⟨_, rfl, ?_⟩
  generalize built : Module.mk _ _ _ _ _ _ _ _ _ _ _ _ = module
  have exporting : module.Exporting :=
    ⟨⟨sections, built ▸ rfl⟩, by subst built; exact fun ex mem => absurd mem List.not_mem_nil⟩
  have straight : module.Straight := by
    subst built
    constructor
    case globals => decide
    case items => decide
    case start => rfl
    case elems =>
      intro seg mem table offset mode
      simp only [sections, List.mem_cons, List.not_mem_nil, or_false] at mem
      rcases mem with rfl | rfl <;> cases mode <;> decide
    case datas =>
      intro seg mem memory offset mode
      simp only [sections, List.mem_cons, List.not_mem_nil, or_false] at mem
      rcases mem with rfl | rfl | rfl <;> cases mode <;> decide
  have long : ∀ code ∈ module.constants, code.size < 8 := by
    subst built
    decide
  obtain ⟨i, own, exports, all, values, -, -, misfit⟩ :=
    instantiate_overlays (m := Machine.new {} ()) (e := {}) "a" exporting straight rfl
      (by subst built; rfl) (fun a mem => absurd mem (Array.not_mem_empty a)) long
  -- what the indices of the instance denote
  have same := Instance.addExports_eq exports
  obtain ⟨v, rfl⟩ : ∃ v, own = [v] := List.length_eq_one_iff.mp (all.trans (built ▸ rfl))
  obtain ⟨w, here, value⟩ := values 0 #[.i32Const 1, .endOf] (built ▸ rfl)
  cases here
  cases value
  have scope : i.scope (Externs.values {}
      (Machine.new {} ()).store.globals ++ [.ofU32 (Int32.toUInt32 1)])
      = ⟨#[0, 1], #[0], #[0], [.ofU32 1]⟩ := by
    rw [same, ← built]
    rfl
  have ended : (Machine.enter 9 (.instantiate "a" module {}) (Machine.new {} ())).map
      (fun p => (p.2.store.tables.map (·.values), p.2.store.datas, p.2.instances.size))
        = some (#[#[.null, .funcRef 0, .funcRef 1]], #[none, some [7], some [9]], 1) := by
    subst built
    decide +kernel
  subst built
  have run := misfit [⟨.active ⟨0⟩ #[.i32Const 0, .endOf], []⟩] _ _ rfl ?_ ?_ ?_
  · rw [run] at ended
    simp only [Option.map_some, Option.some.injEq, Prod.mk.injEq] at ended
    exact ⟨exporting, straight, _, run, ended⟩
  all_goals rw [scope]
  · intro seg mem
    simp only [sections, List.mem_cons, List.not_mem_nil, or_false] at mem
    rcases mem with rfl | rfl
    · exact (ElemSegment.fits_iff (ElemSegment.patch?_active rfl rfl rfl rfl) rfl).mpr (by decide)
    · exact (ElemSegment.fits_iff (ElemSegment.patch?_active rfl rfl rfl rfl) rfl).mpr (by decide)
  · intro seg mem
    cases List.mem_singleton.mp mem
    exact (DataSegment.fits_iff (DataSegment.patch?_active rfl rfl rfl) rfl).mpr (by decide)
  · exact (not_congr (DataSegment.fits_iff (DataSegment.patch?_active rfl rfl rfl) rfl)).mpr
      (by decide)

/-- Only memory zero can be initialised, even with nothing, and the initialiser of a global cannot
read an imported one whose address the store does not have. -/
theorem instantiate_straight_fails :
    let second : Sections := {
      memories := [⟨.atLeast 0⟩, ⟨.atLeast 0⟩]
      datas := [⟨.active ⟨1⟩ #[.i32Const 0, .endOf], []⟩] }
    let absent : Sections := {
      imports := [⟨"p", "g", .global ⟨.i32, .const⟩⟩]
      globals := [⟨⟨.i32, .const⟩, #[.globalGet ⟨0⟩, .endOf]⟩] }
    (∃ module m', second.build = .ok module ∧ module.Exporting ∧ module.start = none ∧
      module.memories.length = 2 ∧
      (∀ code ∈ module.constants, (module.scope.value? code).isSome) ∧
      Machine.enter 9 (.instantiate "a" module {}) (Machine.new {} ())
        = some (.error (.trap (.nonzeroMemory 1)), m')) ∧
    ∃ module m', absent.build = .ok module ∧ module.Exporting ∧ module.Straight ∧
      (Machine.new {} ()).checkImports module { globals := #[5] } = .ok () ∧
      Machine.enter 9 (.instantiate "a" module { globals := #[5] }) (Machine.new {} ())
        = some (.error (.trap (.address .global 5)), m') := by
  intro second absent
  have trapped {module : Module} {e : Externs} {t : Trap}
      (ended : (Machine.enter 9 (.instantiate "a" module e) (Machine.new {} ())).bind (fun p =>
        match p.1 with | .error h => some h | .ok _ => none) = some (.trap t)) :
      ∃ m', Machine.enter 9 (.instantiate "a" module e) (Machine.new {} ())
        = some (.error (.trap t), m') := by
    obtain ⟨⟨_ | _, m'⟩, run, same⟩ := Option.bind_eq_some_iff.mp ended <;> cases same
    exact ⟨m', run⟩
  constructor
  · obtain ⟨module, built⟩ : ∃ module, second.build = .ok module := ⟨_, rfl⟩
    obtain ⟨m', run⟩ := @trapped module {} (.nonzeroMemory 1) (by cases built; decide +kernel)
    refine ⟨module, m', built, ⟨⟨second, built⟩, ?_⟩, ?_, ?_, ?_, run⟩ <;> cases built <;> decide
  · obtain ⟨module, built⟩ : ∃ module, absent.build = .ok module := ⟨_, rfl⟩
    obtain ⟨m', run⟩ := @trapped module { globals := #[5] } (.address .global 5)
      (by cases built; decide +kernel)
    have straight : module.Straight := by
      cases built
      exact ⟨by decide, by decide, fun e mem => absurd mem List.not_mem_nil,
        fun e mem => absurd mem List.not_mem_nil, rfl⟩
    refine ⟨module, m', built, ⟨⟨absent, built⟩, ?_⟩, straight, ?_, run⟩ <;> cases built
    · exact fun ex mem => absurd mem List.not_mem_nil
    · rfl

end Machine

end WasmMachine
