import Mathlib.Algebra.Group.Int.Defs
import Mathlib.Algebra.Group.Nat.Defs
import WasmMachine.Proofs.Limits
import WasmMachine.Proofs.Ranges

/-!
# Instructions that work on ranges

Copying to a table or a memory, filling a range of one, and growing a table all come to the same:
the places of one range get items, and no other place changes.  For a table this is
`Store.Refilled`, for a memory `Store.Rewritten`; each tells completely which store is there
afterwards (`Store.Refilled.unique`, `Store.Rewritten.unique`).  What the items are is said of the
store before the instruction, so that ranges may overlap, and two indices may stand for one table.

* `Store.refilled_put`, `Store.refilled_extend`, `Store.rewritten_put`: the ways in which
  ranges get items.
* `Machine.bulk_exact`: each of them does all of this if its ranges are within bounds, and
  nothing if not.
-/

namespace WasmMachine

variable {σ α : Type}

/-! ## Stores -/

namespace Store

/-- The value in a slot of a table, if there is such a slot. -/
def tableSlot? (s : Store σ) (addr k : Nat) : Option Value := s.tables[addr]?.bind (·.get? k)

/-- A store after the slots of one range of one table have got values. All other slots of all
tables are as they were. A slot that no table has has no value, so that this says how long
all tables are. -/
structure Refilled (s : Store σ) (addr pos count : Nat) (item : Nat → Option Value)
    (s' : Store σ) : Prop where
  only : s' = { s with tables := s'.tables }
  types : s'.tables.map Table.type = s.tables.map Table.type
  within (k : Nat) : k < count → s'.tableSlot? addr (pos + k) = item k
  outside (a k : Nat) : (a = addr → k < pos ∨ pos + count ≤ k) →
    s'.tableSlot? a k = s.tableSlot? a k

/-- A store after the bytes of one range of one memory have got values. Everything else of all
memories is as it was. -/
structure Rewritten (s : Store σ) (addr pos count : Nat) (item : Nat → UInt8)
    (s' : Store σ) : Prop where
  only : s' = { s with memories := s'.memories }
  here : s'.memories[addr]?.map Memory.image =
    s.memories[addr]?.map (·.image.replace pos count item)
  others (a : Nat) : a ≠ addr → s'.memories[a]? = s.memories[a]?

variable {s s₁ s₂ : Store σ} {addr pos count : Nat}

/-- A slot of the store is one of the table at its address. -/
theorem tableSlot?_there {t : Table} (there : s.tables[addr]? = some t) (k : Nat) :
    s.tableSlot? addr k = t.get? k := by
  rw [tableSlot?, there, Option.bind_some]

/-- A store is refilled if the one table has its new slots in the range, and its old ones
outside. -/
theorem refilled_of_slots {item : Nat → Option Value} {t t' : Table}
    (there : s.tables[addr]? = some t)
    (type : t'.type = t.type) (within : ∀ k < count, t'.get? (pos + k) = item k)
    (outside : ∀ k, k < pos ∨ pos + count ≤ k → t'.get? k = t.get? k) :
    s.Refilled addr pos count item (s.withTable addr t') := by
  have there' : (s.withTable addr t').tables[addr]? = some t' :=
    Array.getElem?_setIfInBounds_self_of_lt (Array.getElem?_eq_some_iff.mp there).1
  refine ⟨rfl, ?_, fun k lt => ?_, fun a k free => ?_⟩
  · have types : (s.tables.map Table.type)[addr]? = some t'.type := by
      rw [Array.getElem?_map, there, type, Option.map_some]
    change (s.tables.setIfInBounds addr t').map Table.type = _
    rw [Array.map_setIfInBounds, setIfInBounds_there types]
  · rw [tableSlot?_there there', within k lt]
  · by_cases same : a = addr
    · subst same
      rw [tableSlot?_there there', tableSlot?_there there, outside k (free rfl)]
    · have kept : (s.withTable addr t').tables[a]? = s.tables[a]? :=
        Array.getElem?_setIfInBounds_ne (Ne.symm same)
      rw [tableSlot?, tableSlot?, kept]

theorem refilled_put {item : Nat → Option Value} {t : Table} {vs : List Value}
    (there : s.tables[addr]? = some t) (length : vs.length = count) (fits : pos + count ≤ t.size)
    (items : ∀ k < count, vs[k]? = item k) :
    s.Refilled addr pos count item (s.withTable addr (t.put pos vs)) := by
  subst length
  exact refilled_of_slots there rfl
    (fun k lt => (Table.get?_put_within fits lt).trans (items k lt))
    fun k => Table.get?_put_outside

/-- Growing a table refills the range behind its end. -/
theorem refilled_extend {t : Table} (there : s.tables[addr]? = some t) (count : Nat) (v : Value) :
    s.Refilled addr t.size count (fun _ => some v)
      (s.withTable addr { t with values := t.values ++ Array.replicate count v }) := by
  refine refilled_of_slots there rfl (fun k lt => ?_) fun k old => ?_
  · change (t.values ++ Array.replicate count v)[t.values.size + k]? = some v
    rw [Array.getElem?_append_right (Nat.le_add_right ..), Nat.add_sub_cancel_left,
      Array.getElem?_replicate, if_pos lt]
  · change (t.values ++ Array.replicate count v)[k]? = t.values[k]?
    rcases old with before | behind
    · exact Array.getElem?_append_left before
    · have size : (t.values ++ Array.replicate count v).size = t.values.size + count := by
        rw [Array.size_append, Array.size_replicate]
      rw [Array.getElem?_eq_none (size ▸ behind),
        Array.getElem?_eq_none (Nat.le_trans (Nat.le_add_right ..) behind)]

theorem rewritten_put {item : Nat → UInt8} {mem : Memory} {bs : List UInt8}
    (there : s.memories[addr]? = some mem) (length : bs.length = count)
    (fits : pos + count ≤ mem.size)
    (items : ∀ j < count, bs.getD j 0 = item j) :
    s.Rewritten addr pos count item
      { s with memories := s.memories.setIfInBounds addr (mem.put pos bs) } := by
  have there' : (s.memories.setIfInBounds addr (mem.put pos bs))[addr]? = some (mem.put pos bs) :=
    Array.getElem?_setIfInBounds_self_of_lt (Array.getElem?_eq_some_iff.mp there).1
  refine ⟨rfl, ?_, fun a other => Array.getElem?_setIfInBounds_ne (Ne.symm other)⟩
  rw [there', there, Option.map_some, Option.map_some, Memory.image_put fits length items]

/-- Tables are known by their types and their slots. -/
theorem tables_eq_of_slots (types : s₁.tables.map Table.type = s₂.tables.map Table.type)
    (slots : ∀ a k, s₁.tableSlot? a k = s₂.tableSlot? a k) : s₁.tables = s₂.tables := by
  apply Array.ext_getElem?
  intro a
  have type : s₁.tables[a]?.map Table.type = s₂.tables[a]?.map Table.type := by
    rw [← Array.getElem?_map, ← Array.getElem?_map, types]
  cases left : s₁.tables[a]? with
  | none =>
    rw [left] at type
    exact (Option.map_eq_none_iff.mp type.symm).symm
  | some t =>
    rw [left, Option.map_some] at type
    obtain ⟨t', right, type⟩ := Option.map_eq_some_iff.mp type.symm
    have values : t.values = t'.values := Array.ext_getElem? fun k => by
      have slot := slots a k
      rwa [tableSlot?_there left, tableSlot?_there right] at slot
    exact (congrArg some (congrArg₂ Table.mk type.symm values)).trans right.symm

/-- Slots and types are all that there is of tables, so that no two stores are the same one
refilled. -/
theorem Refilled.unique {item : Nat → Option Value} (first : s.Refilled addr pos count item s₁)
    (second : s.Refilled addr pos count item s₂) : s₁ = s₂ := by
  have tables : s₁.tables = s₂.tables := by
    refine tables_eq_of_slots (first.types.trans second.types.symm) fun a k => ?_
    by_cases within : a = addr ∧ pos ≤ k ∧ k < pos + count
    · obtain ⟨rfl, le, lt⟩ := within
      obtain ⟨j, rfl⟩ := Nat.exists_eq_add_of_le le
      rw [first.within j (by omega), second.within j (by omega)]
    · have free : a = addr → k < pos ∨ pos + count ≤ k := by omega
      rw [first.outside a k free, second.outside a k free]
  rw [first.only, second.only, tables]

theorem Rewritten.unique {item : Nat → UInt8} (first : s.Rewritten addr pos count item s₁)
    (second : s.Rewritten addr pos count item s₂) : s₁ = s₂ := by
  have memories : s₁.memories = s₂.memories := by
    apply Array.ext_getElem?
    intro a
    by_cases other : a = addr
    · subst other
      exact Option.map_injective (fun _ _ => Memory.eq_of_image)
        (first.here.trans second.here.symm)
    · rw [first.others a other, second.others a other]
  rw [first.only, second.only, memories]

end Store

/-! ## On a machine -/

/-- An instruction takes its operands. If its ranges are within bounds, then it changes the store
in the one way that is meant, and nothing else; if not, then it traps and changes nothing. -/
structure Machine.AllOrNothing (m : Machine σ) (outer : Array Frame) (f : Frame) (i : Instr)
    (rest : Array Value) (fits : Prop) (out : Trap) (change : Store σ → Prop) : Prop where
  all : fits → ∃ s, change s ∧ (∀ s', change s' → s' = s) ∧
    Run.dispatch i m = some (.ok .next, { m.passed outer f rest with store := s })
  nothing : ¬ fits → Run.dispatch i m = some (.error (.trap out), m.passed outer f rest)

namespace Machine

section Dispatch

variable {m : Machine σ} {outer : Array Frame} {f : Frame} {inst : Instance}

theorem dispatch_of_ok {i : Instr} {stack : Array Value} {s : Store σ}
    (top : m.frames = outer.push f) (found : m.instances[f.inst]? = some inst)
    (ran : i.exec inst ⟨{ f with pc := f.pc + 1 }, m.store⟩
      = .ok .next ⟨{ f with pc := f.pc + 1, stack }, s⟩) :
    Run.dispatch i m = some (.ok .next, { m.passed outer f stack with store := s }) := by
  rw [Run.dispatch_within i top found, ran]
  rfl

theorem dispatch_of_error {i : Instr} {stack : Array Value} {t : Trap}
    (top : m.frames = outer.push f) (found : m.instances[f.inst]? = some inst)
    (ran : i.exec inst ⟨{ f with pc := f.pc + 1 }, m.store⟩
      = .error t ⟨{ f with pc := f.pc + 1, stack }, m.store⟩) :
    Run.dispatch i m = some (.error (.trap t), m.passed outer f stack) := by
  rw [Run.dispatch_within i top found, ran]
  rfl

/-- What an instruction does to the frame and the store, it does to the machine. -/
theorem allOrNothing {i : Instr} {rest : Array Value} {fits : Prop} [Decidable fits] {out : Trap}
    {change : Store σ → Prop} {s : Store σ} (top : m.frames = outer.push f)
    (found : m.instances[f.inst]? = some inst)
    (ran : i.exec inst ⟨{ f with pc := f.pc + 1 }, m.store⟩ =
      if fits then .ok .next ⟨{ f with pc := f.pc + 1, stack := rest }, s⟩
      else .error out ⟨{ f with pc := f.pc + 1, stack := rest }, m.store⟩)
    (unique : ∀ {s₁ s₂}, change s₁ → change s₂ → s₁ = s₂) (changed : fits → change s) :
    m.AllOrNothing outer f i rest fits out change where
  all within := ⟨s, changed within, fun _ other => unique other (changed within),
    dispatch_of_ok top found (ran.trans (if_pos within))⟩
  nothing without := dispatch_of_error top found (ran.trans (if_neg without))

end Dispatch

/-- What instructions on ranges do to a machine whose innermost frame runs in an instance.
Operands are read as numbers of 32 bits, and sums of them do not wrap around. -/
structure BulkExact (m : Machine σ) (outer : Array Frame) (f : Frame)
    (inst : Instance) : Prop where
  /-- Slots get what other slots have had before, be these in another table or in the same one. -/
  tableCopy {i j : TableIdx} {a b : Nat} {t u : Table} {rest : Array Value} {d s n : Value} :
    inst.tableAddr i = .ok a → inst.tableAddr j = .ok b → m.store.tables[a]? = some t →
    m.store.tables[b]? = some u → f.stack = ((rest.push d).push s).push n →
    m.AllOrNothing outer f (.tableCopy i j) rest
      (d.u32.toNat + n.u32.toNat ≤ t.size ∧ s.u32.toNat + n.u32.toNat ≤ u.size) .tableBounds
      (m.store.Refilled a d.u32.toNat n.u32.toNat fun k => m.store.tableSlot? b (s.u32.toNat + k))
  tableInit {seg : ElemIdx} {i : TableIdx} {a b : Nat} {e : ElemInstance} {t : Table}
    {rest : Array Value} {d s n : Value} :
    inst.elemAddr seg = .ok b → m.store.elems[b]?.join = some e → inst.tableAddr i = .ok a →
    m.store.tables[a]? = some t → f.stack = ((rest.push d).push s).push n →
    m.AllOrNothing outer f (.tableInit seg i) rest
      (s.u32.toNat + n.u32.toNat ≤ e.values.length ∧ d.u32.toNat + n.u32.toNat ≤ t.size)
        .tableBounds
      (m.store.Refilled a d.u32.toNat n.u32.toNat fun k => e.values[s.u32.toNat + k]?)
  /-- A segment that has been dropped is not read at all, not even a range without length. -/
  tableInit_dropped {seg : ElemIdx} {i : TableIdx} {b : Nat} {rest : Array Value}
    {d s n : Value} :
    inst.elemAddr seg = .ok b → m.store.elems[b]?.join = none →
    f.stack = ((rest.push d).push s).push n →
    Run.dispatch (.tableInit seg i) m
      = some (.error (.trap (.elemDropped seg.toNat)), m.passed outer f rest)
  tableFill {i : TableIdx} {a : Nat} {t : Table} {rest : Array Value} {d v n : Value} :
    inst.tableAddr i = .ok a → m.store.tables[a]? = some t →
    f.stack = ((rest.push d).push v).push n →
    m.AllOrNothing outer f (.tableFill i) rest (d.u32.toNat + n.u32.toNat ≤ t.size) .tableBounds
      (m.store.Refilled a d.u32.toNat n.u32.toNat fun _ => some v)
  /-- The slots behind those that there are get the value, and the result is the length before. -/
  tableGrow {i : TableIdx} {a : Nat} {t : Table} {rest : Array Value} {v n : Value} :
    inst.tableAddr i = .ok a → m.store.tables[a]? = some t → f.stack = (rest.push v).push n →
    t.size + n.u32.toNat ≤ t.maxSize → ∃ (old : UInt32) (s : Store σ), old.toNat = t.size ∧
      m.store.Refilled a t.size n.u32.toNat (fun _ => some v) s ∧
      Run.dispatch (.tableGrow i) m
        = some (.ok .next, { m.passed outer f (rest.push (.ofU32 old)) with store := s })
  /-- A table that cannot grow so far does not grow, and the result is -1. -/
  tableGrow_refused {i : TableIdx} {a : Nat} {t : Table} {rest : Array Value} {v n : Value} :
    inst.tableAddr i = .ok a → m.store.tables[a]? = some t → f.stack = (rest.push v).push n →
    t.maxSize < t.size + n.u32.toNat →
    Run.dispatch (.tableGrow i) m = some (.ok .next, m.passed outer f (rest.push (.ofU32 (-1))))
  memoryInit {seg : DataIdx} {i : MemIdx} {a b : Nat} {bytes : List UInt8} {mem : Memory}
    {rest : Array Value} {d s n : Value} :
    inst.dataAddr seg = .ok b → m.store.datas[b]?.join = some bytes → inst.memAddr i = .ok a →
    m.store.memories[a]? = some mem → f.stack = ((rest.push d).push s).push n →
    m.AllOrNothing outer f (.memoryInit seg i) rest
      (s.u32.toNat + n.u32.toNat ≤ bytes.length ∧ d.u32.toNat + n.u32.toNat ≤ mem.size)
        .memoryBounds
      (m.store.Rewritten a d.u32.toNat n.u32.toNat fun k => bytes.getD (s.u32.toNat + k) 0)
  memoryInit_dropped {seg : DataIdx} {i : MemIdx} {a b : Nat} {rest : Array Value}
    {d s n : Value} :
    inst.dataAddr seg = .ok b → m.store.datas[b]?.join = none → inst.memAddr i = .ok a →
    f.stack = ((rest.push d).push s).push n →
    Run.dispatch (.memoryInit seg i) m
      = some (.error (.trap (.dataDropped seg.toNat)), m.passed outer f rest)
  memoryFill {i : MemIdx} {a : Nat} {mem : Memory} {rest : Array Value} {d v n : Value} :
    inst.memAddr i = .ok a → m.store.memories[a]? = some mem →
    f.stack = ((rest.push d).push v).push n →
    m.AllOrNothing outer f (.memoryFill i) rest
      (d.u32.toNat + n.u32.toNat ≤ mem.size) .memoryBounds
      (m.store.Rewritten a d.u32.toNat n.u32.toNat fun _ => v.lo.toUInt8)
  memoryCopy {i j : MemIdx} {a b : Nat} {mem : Memory} {rest : Array Value} {d s n : Value} :
    inst.memAddr i = .ok a → inst.memAddr j = .ok b → m.store.memories[a]? = some mem →
    f.stack = ((rest.push d).push s).push n →
    m.AllOrNothing outer f (.memoryCopy i j) rest
      (d.u32.toNat + n.u32.toNat ≤ mem.size ∧ s.u32.toNat + n.u32.toNat ≤ mem.size) .memoryBounds
      (m.store.Rewritten a d.u32.toNat n.u32.toNat fun k => mem.image.byte (s.u32.toNat + k))

/-- An instruction on ranges puts at each place of one range what it should, or does nothing. -/
theorem bulk_exact {m : Machine σ} {outer : Array Frame} {f : Frame} {inst : Instance}
    (top : m.frames = outer.push f) (found : m.instances[f.inst]? = some inst) :
    m.BulkExact outer f inst where
  tableCopy known known' there there' operands := by
    have ran :=
      Instr.exec_tableCopy known known' there there' (f := { f with pc := f.pc + 1 }) operands
    refine allOrNothing top found ran Store.Refilled.unique fun ⟨fits, within⟩ =>
      Store.refilled_put there (Table.length_slice within) fits fun k lt => ?_
    rw [Table.getElem?_slice within lt, Store.tableSlot?_there there']
  tableInit source live known there operands := by
    have held := Option.join_eq_some_iff.mp live
    have ran :=
      Instr.exec_tableInit source held known there (f := { f with pc := f.pc + 1 }) operands
    exact allOrNothing top found ran Store.Refilled.unique fun ⟨within, fits⟩ =>
      Store.refilled_put there (length_sublist within) fits fun k lt => getElem?_sublist lt
  tableInit_dropped {_ i _ _ _ _ _} source dropped operands :=
    dispatch_of_error top found
      (Instr.exec_tableInit_dropped source dropped (f := { f with pc := f.pc + 1 }) operands i)
  tableFill known there operands := by
    have ran := Instr.exec_tableFill known there (f := { f with pc := f.pc + 1 }) operands
    refine allOrNothing top found ran Store.Refilled.unique fun fits =>
      Store.refilled_put there List.length_replicate fits fun k lt => ?_
    rw [List.getElem?_replicate, if_pos lt]
  tableGrow {_ _ t _ _ _} known there operands room := by
    have small : t.size < UInt32.size := by
      have most := t.maxSize_lt
      omega
    have ran := Instr.exec_tableGrow known there (f := { f with pc := f.pc + 1 }) operands
    exact ⟨.ofNat t.size, _, UInt32.toNat_ofNat_of_lt' small, Store.refilled_extend there _ _,
      dispatch_of_ok top found (ran.trans (if_pos room))⟩
  tableGrow_refused known there operands full := by
    have ran := Instr.exec_tableGrow known there (f := { f with pc := f.pc + 1 }) operands
    exact dispatch_of_ok top found (ran.trans (if_neg (Nat.not_le_of_lt full)))
  memoryInit source live known there operands := by
    have held := Option.join_eq_some_iff.mp live
    have ran :=
      Instr.exec_memoryInit source held known there (f := { f with pc := f.pc + 1 }) operands
    refine allOrNothing top found ran Store.Rewritten.unique fun ⟨within, fits⟩ =>
      Store.rewritten_put there (length_sublist within) fits fun k lt => ?_
    rw [List.getD_eq_getElem?_getD, getElem?_sublist lt, List.getD_eq_getElem?_getD]
  memoryInit_dropped source dropped known operands :=
    dispatch_of_error top found
      (Instr.exec_memoryInit_dropped source dropped known
        (f := { f with pc := f.pc + 1 }) operands)
  memoryFill known there operands := by
    have ran := Instr.exec_memoryFill known there (f := { f with pc := f.pc + 1 }) operands
    refine allOrNothing top found ran Store.Rewritten.unique fun fits =>
      Store.rewritten_put there List.length_replicate fits fun k lt => ?_
    rw [List.getD_eq_getElem?_getD, List.getElem?_replicate, if_pos lt, Option.getD_some]
  memoryCopy known known' there operands := by
    have ran := Instr.exec_memoryCopy known known' there (f := { f with pc := f.pc + 1 }) operands
    exact allOrNothing top found ran Store.Rewritten.unique fun ⟨fits, within⟩ =>
      Store.rewritten_put there (Memory.Image.length_range _ _ _) fits fun k lt =>
        getD_map_range lt _ _

/-- The frame of an instruction that moves three items up by one place. -/
def movingUp : Frame := { (default : Frame) with stack := #[.ofU32 1, .ofU32 0, .ofU32 3] }

/-- A machine with a table that two indices stand for. -/
def aliased : Machine Unit :=
  { Machine.new {} () with
    store :=
      { tables := #[⟨⟨.funcRef, .atLeast 4⟩, #[.funcRef 5, .funcRef 6, .funcRef 7, .funcRef 8]⟩] }
    instances := #[{ (default : Instance) with tables := #[0, 0] }]
    frames := #[movingUp] }

/-- Slots of a table are copied from one of its indices to the other, and the ranges overlap. -/
theorem bulk_exact_aliased : ∃ s,
    Run.dispatch (.tableCopy ⟨0⟩ ⟨1⟩) aliased
      = some (.ok .next, { aliased.passed #[] movingUp #[] with store := s }) ∧
    [0, 1, 2, 3, 4].map (s.tableSlot? 0)
      = [some (.funcRef 5), some (.funcRef 5), some (.funcRef 6), some (.funcRef 7), none] := by
  have operands : movingUp.stack
      = (((#[] : Array Value).push (.ofU32 1)).push (.ofU32 0)).push (.ofU32 3) := rfl
  have top : aliased.frames = (#[] : Array Frame).push movingUp := rfl
  obtain ⟨s, copied, -, run⟩ :=
    ((bulk_exact top rfl).tableCopy (i := ⟨0⟩) (j := ⟨1⟩) rfl rfl rfl rfl
    operands).all (by decide)
  have below : s.tableSlot? 0 0 = some (.funcRef 5) :=
    copied.outside 0 0 fun _ => .inl (by decide)
  have first : s.tableSlot? 0 1 = some (.funcRef 5) := copied.within 0 (by decide)
  have second : s.tableSlot? 0 2 = some (.funcRef 6) := copied.within 1 (by decide)
  have third : s.tableSlot? 0 3 = some (.funcRef 7) := copied.within 2 (by decide)
  have above : s.tableSlot? 0 4 = none := copied.outside 0 4 fun _ => .inr (by decide)
  refine ⟨s, run, ?_⟩
  simp only [List.map, below, first, second, third, above]

end Machine

end WasmMachine
