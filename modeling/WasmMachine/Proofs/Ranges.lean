import WasmMachine.Proofs.MemoryAccess

/-!
# Ranges of tables and memories

The instructions that copy to a range of a table or a memory, or that fill one, pop where the
range begins and how long it is, and look whether it lies within its bounds before they write.
Each of them therefore comes to an `if`: its ranges fit, and then it is known which items stand in
the range afterwards, or it traps and leaves the store as it was.

* `Table.copy_eq`: what a copy within one table writes is what has been there before.
* `Instr.exec_tableCopy` and those after it: what each of the instructions does to the frame
  and the store.
-/

namespace WasmMachine

variable {σ α : Type}

/-! ## Tables -/

namespace Table

variable {t : Table} {pos count k : Nat} {vs : List Value}

/-- A table with other values from a position on. -/
def put (pos : Nat) (vs : List Value) (t : Table) : Table :=
  { t with values := overwriteItems t.values pos vs }

/-- The values of a range. -/
def slice (t : Table) (pos count : Nat) : List Value :=
  (t.values.extract pos (pos + count)).toList

theorem length_slice (fits : pos + count ≤ t.size) : (t.slice pos count).length = count := by
  rw [slice, Array.length_toList, Array.size_extract]
  change min (pos + count) t.size - pos = count
  omega

/-- A slice that lies within its table has the values of the table, counted from where it
begins. -/
theorem getElem?_slice (fits : pos + count ≤ t.size) (lt : k < count) :
    (t.slice pos count)[k]? = t.get? (pos + k) := by
  rw [slice, Array.getElem?_toList, Array.getElem?_extract, if_pos, get?]
  change k < min (pos + count) t.size - pos
  omega

/-- A place of a table after a write: where the written values reach, theirs, and elsewhere its
own. A place that the table does not have is not made. -/
theorem get?_put (t : Table) (pos : Nat) (vs : List Value) (k : Nat) :
    (t.put pos vs).get? k = (t.get? k).map fun v => (Patch.at? ⟨pos, vs⟩ k).getD v :=
  getElem?_overwriteItems t.values pos vs k

/-- What stands in a range after it has been written. -/
theorem get?_put_within (fits : pos + vs.length ≤ t.size) (lt : k < vs.length) :
    (t.put pos vs).get? (pos + k) = vs[k]? := by
  have inside : pos + k < t.values.size := Nat.lt_of_lt_of_le (by omega) fits
  have there : t.get? (pos + k) = some t.values[pos + k] := Array.getElem?_eq_getElem inside
  have covered : Patch.at? ⟨pos, vs⟩ (pos + k) = vs[k]? := by
    rw [Patch.at?, if_pos (Nat.le_add_right pos k), Nat.add_sub_cancel_left]
  rw [get?_put, there, covered, List.getElem?_eq_getElem lt]
  rfl

/-- What stands outside of a range is not written. -/
theorem get?_put_outside (outside : k < pos ∨ pos + vs.length ≤ k) :
    (t.put pos vs).get? k = t.get? k := by
  have bare : Patch.at? ⟨pos, vs⟩ k = none := by
    rw [Patch.at?]
    rcases outside with before | behind
    · exact if_neg (Nat.not_le_of_lt before)
    · have past : vs[k - pos]? = none := List.getElem?_eq_none (by omega)
      dsimp only
      rw [past, ite_self]
  rw [get?_put, bare]
  exact Option.map_id_apply

/-- Filling a range is writing to it one value so many times, with the same bounds. -/
theorem fill_eq_write (pos : Nat) (v : Value) (count : Nat) :
    fill pos v count = write pos (List.replicate count v) := by
  funext t
  rw [fill, write, List.length_replicate]
  split <;> rfl

/-- Both ranges of a copy are looked at, so that one that does not fit is enough for a trap,
before anything is written. -/
theorem copy_of_bounds {dst src count : Nat} (out : t.size < dst + count ∨ t.size < src + count) :
    copy dst src count t = .error .tableBounds t := by
  unfold copy
  split
  · have fails : read src count t = .error .tableBounds t := if_neg (by omega)
    change EStateM.bind (read src count) (write dst) t = _
    rw [EStateM.bind, fails]
  · rfl

/-- A copy within one table writes what the source range holds before it. So its ranges may
overlap, and its direction does not matter. -/
theorem copy_eq (dst src count : Nat) (t : Table) : copy dst src count t =
    if dst + count ≤ t.size ∧ src + count ≤ t.size then .ok () (t.put dst (t.slice src count))
    else .error .tableBounds t := by
  by_cases fits : dst + count ≤ t.size ∧ src + count ≤ t.size
  · obtain ⟨room, there⟩ := fits
    have reads : read src count t = .ok (t.slice src count) t := if_pos there
    have writes : write dst (t.slice src count) t = .ok () (t.put dst (t.slice src count)) :=
      if_pos (by rwa [length_slice there])
    rw [copy, if_pos room, if_pos ⟨room, there⟩]
    change EStateM.bind (read src count) (write dst) t = _
    rw [EStateM.bind, reads]
    exact writes
  · rw [if_neg fits, copy_of_bounds (by omega)]

end Table

/-! ## Stores -/

namespace Store

/-- A store with another table at an address. -/
def withTable (s : Store σ) (addr : Nat) (t : Table) : Store σ :=
  { s with tables := s.tables.setIfInBounds addr t }

theorem withTable_there {s : Store σ} {addr : Nat} {t : Table}
    (there : s.tables[addr]? = some t) :
    s.withTable addr t = s := by
  rw [withTable, setIfInBounds_there there]

end Store

/-! ## The instructions -/

theorem length_sublist {xs : List α} {pos count : Nat} (within : pos + count ≤ xs.length) :
    ((xs.drop pos).take count).length = count := by
  rw [List.length_take, List.length_drop]
  omega

theorem getElem?_sublist {xs : List α} {pos count k : Nat} (lt : k < count) :
    ((xs.drop pos).take count)[k]? = xs[pos + k]? := by
  rw [List.getElem?_take_of_lt lt, List.getElem?_drop]

section Exec

variable {inst : Instance} {f : Frame} {st : Store σ} {a b : Nat} {rest : Array Value}
    {d s n v : Value}

namespace Act

/-- The three operands of an instruction on ranges, of which the count is on top. Each is read as
a number of 32 bits. -/
theorem popBulk_push (operands : f.stack = ((rest.push d).push s).push n) (st : Store σ) :
    popBulk ⟨f, st⟩ =
      .ok ⟨d.u32.toNat, s.u32.toNat, n.u32.toNat⟩ ⟨{ f with stack := rest }, st⟩ := by
  simp [popBulk, onFrame, FrameM.popNat_eq, operands]

/-- An operation on a table that is there changes the store at the address of that table only,
whether it ends well or not. -/
theorem onTable_there {x : EStateM Trap Table α} {t : Table} (there : st.tables[a]? = some t)
    (f : Frame) :
    onTable a x ⟨f, st⟩ = match x t with
      | .ok y t => .ok y ⟨f, st.withTable a t⟩
      | .error e t => .error e ⟨f, st.withTable a t⟩ := by
  obtain ⟨lt, rfl⟩ := Array.getElem?_eq_some_iff.mp there
  have here (t : Table) : st.tables.set a t = st.tables.setIfInBounds a t := by
    rw [Array.setIfInBounds, dif_pos lt]
  rw [onTable, onStore, StoreM.onTable_of_lt lt]
  cases x st.tables[a] <;> simp only [here, Store.withTable]

/-- Reading a range gives a slice, or traps, and changes nothing. -/
theorem onTable_slice {t : Table} (there : st.tables[a]? = some t) (f : Frame) (pos count : Nat) :
    onTable a (Table.read pos count) ⟨f, st⟩ =
      if pos + count ≤ t.size then
        .ok (t.slice pos count) ⟨f, st⟩ else .error .tableBounds ⟨f, st⟩ := by
  rw [onTable_there there, Table.read]
  by_cases fits : pos + count ≤ t.size
  · rw [if_pos fits, if_pos fits]
    dsimp only
    rw [Store.withTable_there there, Table.slice]
  · rw [if_neg fits, if_neg fits]
    dsimp only
    rw [Store.withTable_there there]

/-- Writing to a range takes place as a whole or not at all. -/
theorem onTable_write {t : Table} (there : st.tables[a]? = some t) {count : Nat} {vs : List Value}
    (length : vs.length = count) (f : Frame) (pos : Nat) :
    onTable a (Table.write pos vs) ⟨f, st⟩ =
      if pos + count ≤ t.size then .ok () ⟨f, st.withTable a (t.put pos vs)⟩
      else .error .tableBounds ⟨f, st⟩ := by
  rw [onTable_there there, Table.write, length]
  by_cases fits : pos + count ≤ t.size
  · rw [if_pos fits, if_pos fits]
    rfl
  · rw [if_neg fits, if_neg fits]
    dsimp only
    rw [Store.withTable_there there]

theorem onTable_set {t : Table} (there : st.tables[a]? = some t) (f : Frame) (k : Nat)
    (v : Value) :
    onTable a (Table.set k v) ⟨f, st⟩ =
      if k < t.size then
        .ok () ⟨f, st.withTable a { t with values := t.values.setIfInBounds k v }⟩
      else .error .tableBounds ⟨f, st⟩ := by
  rw [onTable_there there, Table.set]
  by_cases lt : k < t.size
  · rw [if_pos lt, if_pos lt]
  · rw [if_neg lt, if_neg lt]
    dsimp only
    rw [Store.withTable_there there]

theorem table_there {i : TableIdx} {t : Table} (known : inst.tableAddr i = .ok a)
    (there : st.tables[a]? = some t) (f : Frame) : table inst i ⟨f, st⟩ = .ok a ⟨f, st⟩ := by
  have lt := (Array.getElem?_eq_some_iff.mp there).1
  simp [table, known, ofExcept, onStore, StoreM.checkTable, StoreM.gets, lt]

theorem memory_there {i : MemIdx} {mem : Memory} (known : inst.memAddr i = .ok a)
    (there : st.memories[a]? = some mem) (f : Frame) : memory inst i ⟨f, st⟩ = .ok a ⟨f, st⟩ := by
  have lt := (Array.getElem?_eq_some_iff.mp there).1
  simp [memory, known, ofExcept, onStore, StoreM.checkMemory, StoreM.gets, lt]

end Act

namespace Instr

theorem exec_tableSet {i : TableIdx} {t : Table} (known : inst.tableAddr i = .ok a)
    (there : st.tables[a]? = some t) (operands : f.stack = (rest.push d).push v) :
    (Instr.tableSet i).exec inst ⟨f, st⟩ =
      if d.u32.toNat < t.size then
        .ok .next ⟨{ f with stack := rest },
          st.withTable a { t with values := t.values.setIfInBounds d.u32.toNat v }⟩
      else .error .tableBounds ⟨{ f with stack := rest }, st⟩ := by
  have written := Act.onTable_set there { f with stack := rest } d.u32.toNat v
  by_cases lt : d.u32.toNat < t.size <;>
    simp [exec, Act.table_there known there, Act.onFrame, FrameM.popNat_eq, FrameM.pop_eq,
      operands, written, lt]

/-- Copying within a table goes another way than copying from one table to another one, to the
same end. -/
theorem exec_tableCopy {i j : TableIdx} {t u : Table} (known : inst.tableAddr i = .ok a)
    (known' : inst.tableAddr j = .ok b) (there : st.tables[a]? = some t)
    (there' : st.tables[b]? = some u) (operands : f.stack = ((rest.push d).push s).push n) :
    (Instr.tableCopy i j).exec inst ⟨f, st⟩ =
      if d.u32.toNat + n.u32.toNat ≤ t.size ∧ s.u32.toNat + n.u32.toNat ≤ u.size then
        .ok .next ⟨{ f with stack := rest },
          st.withTable a (t.put d.u32.toNat (u.slice s.u32.toNat n.u32.toNat))⟩
      else .error .tableBounds ⟨{ f with stack := rest }, st⟩ := by
  have popped := Act.popBulk_push operands st
  -- which way is taken depends on the addresses, and these may be the same for two indices
  by_cases same : a = b
  · subst same
    cases there.symm.trans there'
    have copied := Act.onTable_there (x := Table.copy d.u32.toNat s.u32.toNat n.u32.toNat) there
      { f with stack := rest }
    rw [Table.copy_eq] at copied
    by_cases fits : d.u32.toNat + n.u32.toNat ≤ t.size ∧ s.u32.toNat + n.u32.toNat ≤ t.size
    · rw [if_pos fits] at copied
      simp [exec, Act.tableCopy, popped, known, known', Act.ofExcept, copied, fits]
    · rw [if_neg fits] at copied
      simp [exec, Act.tableCopy, popped, known, known', Act.ofExcept, copied, fits,
        Store.withTable_there there]
  · have read := Act.onTable_slice there' { f with stack := rest } s.u32.toNat n.u32.toNat
    by_cases within : s.u32.toNat + n.u32.toNat ≤ u.size
    · have written := Act.onTable_write there (Table.length_slice within) { f with stack := rest }
        d.u32.toNat
      by_cases fits : d.u32.toNat + n.u32.toNat ≤ t.size <;>
        simp [exec, Act.tableCopy, popped, known, known', Act.ofExcept, same, read, written,
          within, fits]
    · simp [exec, Act.tableCopy, popped, known, known', Act.ofExcept, same, read, within]

theorem exec_tableFill {i : TableIdx} {t : Table} (known : inst.tableAddr i = .ok a)
    (there : st.tables[a]? = some t) (operands : f.stack = ((rest.push d).push v).push n) :
    (Instr.tableFill i).exec inst ⟨f, st⟩ =
      if d.u32.toNat + n.u32.toNat ≤ t.size then
        .ok .next ⟨{ f with stack := rest },
          st.withTable a (t.put d.u32.toNat (List.replicate n.u32.toNat v))⟩
      else .error .tableBounds ⟨{ f with stack := rest }, st⟩ := by
  have filled := Act.onTable_write there (List.length_replicate (n := n.u32.toNat) (a := v))
    { f with stack := rest } d.u32.toNat
  rw [← Table.fill_eq_write] at filled
  by_cases fits : d.u32.toNat + n.u32.toNat ≤ t.size <;>
    simp [exec, Act.table_there known there, Act.onFrame, FrameM.popNat_eq, FrameM.pop_eq,
      operands, filled, fits]

/-- Elements are written as a whole or not at all: the range of the segment is looked at first,
then the range of the table. -/
theorem exec_tableInit {seg : ElemIdx} {i : TableIdx} {e : ElemInstance} {t : Table}
    (source : inst.elemAddr seg = .ok b) (held : st.elems[b]? = some (some e))
    (known : inst.tableAddr i = .ok a) (there : st.tables[a]? = some t)
    (operands : f.stack = ((rest.push d).push s).push n) :
    (Instr.tableInit seg i).exec inst ⟨f, st⟩ =
      if s.u32.toNat + n.u32.toNat ≤ e.values.length ∧ d.u32.toNat + n.u32.toNat ≤ t.size then
        .ok .next ⟨{ f with stack := rest },
          st.withTable a (t.put d.u32.toNat ((e.values.drop s.u32.toNat).take n.u32.toNat))⟩
      else .error .tableBounds ⟨{ f with stack := rest }, st⟩ := by
  have popped := Act.popBulk_push operands st
  by_cases within : s.u32.toNat + n.u32.toNat ≤ e.values.length
  · have written :=
      Act.onTable_write there (length_sublist within) { f with stack := rest } d.u32.toNat
    by_cases fits : d.u32.toNat + n.u32.toNat ≤ t.size <;>
      simp [exec, Act.tableInit, popped, source, known, Act.ofExcept, Act.onStore, StoreM.gets,
        held, sublist?, written, within, fits]
  · simp [exec, Act.tableInit, popped, source, Act.ofExcept, Act.onStore, StoreM.gets, held,
      sublist?, within]

/-- The same for the bytes of a segment and a memory. -/
theorem exec_memoryInit {seg : DataIdx} {i : MemIdx} {bytes : List UInt8} {mem : Memory}
    (source : inst.dataAddr seg = .ok b) (held : st.datas[b]? = some (some bytes))
    (known : inst.memAddr i = .ok a) (there : st.memories[a]? = some mem)
    (operands : f.stack = ((rest.push d).push s).push n) :
    (Instr.memoryInit seg i).exec inst ⟨f, st⟩ =
      if s.u32.toNat + n.u32.toNat ≤ bytes.length ∧ d.u32.toNat + n.u32.toNat ≤ mem.size then
        .ok .next ⟨{ f with stack := rest }, { st with
          memories := st.memories.setIfInBounds a
            (mem.put d.u32.toNat ((bytes.drop s.u32.toNat).take n.u32.toNat)) }⟩
      else .error .memoryBounds ⟨{ f with stack := rest }, st⟩ := by
  have popped := Act.popBulk_push operands st
  by_cases within : s.u32.toNat + n.u32.toNat ≤ bytes.length
  · have written :=
      Act.onMemory_write there (length_sublist within) { f with stack := rest } d.u32.toNat
    by_cases fits : d.u32.toNat + n.u32.toNat ≤ mem.size <;>
      simp [exec, Act.memoryInit, popped, source, known, Act.ofExcept, Act.onStore, StoreM.gets,
        held, sublist?, written, within, fits]
  · simp [exec, Act.memoryInit, popped, source, known, Act.ofExcept, Act.onStore, StoreM.gets,
      held, sublist?, within]

/-- Filling writes the lowest byte of the operand. -/
theorem exec_memoryFill {i : MemIdx} {mem : Memory} (known : inst.memAddr i = .ok a)
    (there : st.memories[a]? = some mem) (operands : f.stack = ((rest.push d).push v).push n) :
    (Instr.memoryFill i).exec inst ⟨f, st⟩ =
      if d.u32.toNat + n.u32.toNat ≤ mem.size then
        .ok .next ⟨{ f with stack := rest }, { st with
          memories := st.memories.setIfInBounds a
            (mem.put d.u32.toNat (List.replicate n.u32.toNat v.lo.toUInt8)) }⟩
      else .error .memoryBounds ⟨{ f with stack := rest }, st⟩ := by
  have filled :=
    Act.onMemory_write there (List.length_replicate (n := n.u32.toNat) (a := v.lo.toUInt8))
    { f with stack := rest } d.u32.toNat
  rw [← Memory.fill_eq_write] at filled
  by_cases fits : d.u32.toNat + n.u32.toNat ≤ mem.size <;>
    simp [exec, Act.memory_there known there, Act.onFrame, FrameM.popNat_eq, FrameM.pop_eq,
      operands, filled, fits]

/-- There is one memory, so that a copy reads and writes the same; what it writes is what the
source range holds before it. -/
theorem exec_memoryCopy {i j : MemIdx} {mem : Memory} (known : inst.memAddr i = .ok a)
    (known' : inst.memAddr j = .ok b) (there : st.memories[a]? = some mem)
    (operands : f.stack = ((rest.push d).push s).push n) :
    (Instr.memoryCopy i j).exec inst ⟨f, st⟩ =
      if d.u32.toNat + n.u32.toNat ≤ mem.size ∧ s.u32.toNat + n.u32.toNat ≤ mem.size then
        .ok .next ⟨{ f with stack := rest }, { st with
          memories := st.memories.setIfInBounds a
            (mem.put d.u32.toNat (mem.image.range s.u32.toNat n.u32.toNat)) }⟩
      else .error .memoryBounds ⟨{ f with stack := rest }, st⟩ := by
  have popped := Act.popBulk_push operands st
  have copied := Act.onMemory_there (x := Memory.copy d.u32.toNat s.u32.toNat n.u32.toNat) there
    (f := { f with stack := rest })
  rw [Memory.copy_eq_write] at copied
  by_cases within : s.u32.toNat + n.u32.toNat ≤ mem.size
  · rw [if_pos within, Memory.write, Memory.Image.length_range] at copied
    by_cases fits : d.u32.toNat + n.u32.toNat ≤ mem.size
    · simp only [fits, if_true] at copied
      simp [exec, Act.memory_there known there, known', Act.ofExcept, popped, copied,
        within, fits]
    · simp only [fits, if_false] at copied
      simp [exec, Act.memory_there known there, known', Act.ofExcept, popped, copied, fits,
        setIfInBounds_there there]
  · rw [if_neg within] at copied
    simp [exec, Act.memory_there known there, known', Act.ofExcept, popped, copied, within,
      setIfInBounds_there there]

/-- A segment that has been dropped is reported as such, even for an empty range. -/
theorem exec_tableInit_dropped {seg : ElemIdx} (source : inst.elemAddr seg = .ok b)
    (dropped : st.elems[b]?.join = none) (operands : f.stack = ((rest.push d).push s).push n)
    (i : TableIdx) : (Instr.tableInit seg i).exec inst ⟨f, st⟩ =
      .error (.elemDropped seg.toNat) ⟨{ f with stack := rest }, st⟩ := by
  have popped := Act.popBulk_push operands st
  rcases Option.join_eq_none_iff.mp dropped with absent | empty
  · simp [exec, Act.tableInit, popped, source, Act.ofExcept, Act.onStore, StoreM.gets, absent]
  · simp [exec, Act.tableInit, popped, source, Act.ofExcept, Act.onStore, StoreM.gets, empty]

/-- The same for a data segment. -/
theorem exec_memoryInit_dropped {seg : DataIdx} {i : MemIdx} (source : inst.dataAddr seg = .ok b)
    (dropped : st.datas[b]?.join = none) (known : inst.memAddr i = .ok a)
    (operands : f.stack = ((rest.push d).push s).push n) :
    (Instr.memoryInit seg i).exec inst ⟨f, st⟩ =
      .error (.dataDropped seg.toNat) ⟨{ f with stack := rest }, st⟩ := by
  have popped := Act.popBulk_push operands st
  rcases Option.join_eq_none_iff.mp dropped with absent | empty
  · simp [exec, Act.memoryInit, popped, source, known, Act.ofExcept, Act.onStore,
      StoreM.gets, absent]
  · simp [exec, Act.memoryInit, popped, source, known, Act.ofExcept, Act.onStore,
      StoreM.gets, empty]

/-- Growing gives the size from before, or minus one when there is no room; it never traps. -/
theorem exec_tableGrow {i : TableIdx} {t : Table} (known : inst.tableAddr i = .ok a)
    (there : st.tables[a]? = some t) (operands : f.stack = (rest.push v).push n) :
    (Instr.tableGrow i).exec inst ⟨f, st⟩ =
      if t.size + n.u32.toNat ≤ t.maxSize then
        .ok .next ⟨{ f with stack := rest.push (.ofI32 (.ofNat t.size)) },
          st.withTable a { t with values := t.values ++ Array.replicate n.u32.toNat v }⟩
      else .ok .next ⟨{ f with stack := rest.push (.ofI32 (-1)) }, st⟩ := by
  have grown := Act.onTable_there (x := Table.grow n.u32.toNat v) there { f with stack := rest }
  rw [Table.grow] at grown
  by_cases room : t.size + n.u32.toNat ≤ t.maxSize
  · simp only [room, if_true] at grown
    simp [exec, Act.table_there known there, Act.onFrame, FrameM.popNat_eq, FrameM.pop_eq,
      FrameM.push, operands, grown, room]
  · simp only [room, if_false] at grown
    simp [exec, Act.table_there known there, Act.onFrame, FrameM.popNat_eq, FrameM.pop_eq,
      FrameM.push, operands, grown, room, Store.withTable_there there]

end Instr

end Exec

end WasmMachine
