import WasmMachine.Trap

/-!
# Tables

A table is an array of references, null at first, with limits on its length.  An access to a
range either lies within the table or fails and changes nothing.
-/

namespace WasmMachine

/-- Replace the items from a position on. -/
def overwriteItems {α : Type} (a : Array α) (pos : Nat) : List α → Array α
  | [] => a
  | x :: xs => overwriteItems (a.setIfInBounds pos x) (pos + 1) xs

@[simp] theorem size_overwriteItems {α : Type} (a : Array α) (pos : Nat) (xs : List α) :
    (overwriteItems a pos xs).size = a.size := by
  induction xs generalizing a pos with
  | nil => rfl
  | cons x xs ih => rw [overwriteItems, ih, Array.size_setIfInBounds]

/-- A table. -/
structure Table where
  type : TableType
  values : Array Value
  deriving Inhabited

namespace Table

/-- A table of the least size, all null. -/
def new (type : TableType) : Table := ⟨type, Array.replicate type.limits.min.toNat .null⟩

/-- The number of slots. -/
def size (t : Table) : Nat := t.values.size

@[simp] theorem size_new (type : TableType) : (new type).size = type.limits.min.toNat := by
  simp [new, size]

/-- The most slots that the table may have. -/
def maxSize (t : Table) : Nat :=
  match t.type.limits.max? with
  | none => UInt32.size - 1
  | some max => max.toNat

/-- The value of a slot. -/
def get? (t : Table) (idx : Nat) : Option Value := t.values[idx]?

/-- Set a slot. -/
def set (idx : Nat) (value : Value) : EStateM Trap Table Unit := fun t =>
  if idx < t.size then .ok () { t with values := t.values.setIfInBounds idx value }
  else .error .tableBounds t

/-- Add slots with a value, and give the size before, as a number of 32 bits; -1 if there would be
too many. -/
def grow (delta : Nat) (value : Value) : EStateM Trap Table Int32 := fun t =>
  let old := t.size
  if old + delta ≤ t.maxSize then
    .ok (.ofNat old) { t with values := t.values ++ Array.replicate delta value }
  else
    .ok (-1) t

/-- The values of a range. -/
def read (pos count : Nat) : EStateM Trap Table (List Value) := fun t =>
  if pos + count ≤ t.size then .ok (t.values.extract pos (pos + count)).toList t
  else .error .tableBounds t

/-- Replace the values of a range. -/
def write (pos : Nat) (values : List Value) : EStateM Trap Table Unit := fun t =>
  if pos + values.length ≤ t.size then
    .ok () { t with values := overwriteItems t.values pos values }
  else
    .error .tableBounds t

/-- Set every slot of a range. -/
def fill (pos : Nat) (value : Value) (count : Nat) : EStateM Trap Table Unit := fun t =>
  if pos + count ≤ t.size then write pos (List.replicate count value) t
  else .error .tableBounds t

/-- Replace a range by the values of another one, which it may overlap. -/
def copy (dst src count : Nat) : EStateM Trap Table Unit := fun t =>
  if dst + count ≤ t.size then (do write dst (← read src count)) t
  else .error .tableBounds t

end Table

end WasmMachine
