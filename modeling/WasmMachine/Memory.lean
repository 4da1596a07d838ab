import WasmMachine.Trap

/-!
# Linear memories

A memory counts its pages, with limits on their number, and stores as many bytes as they have
(`Memory.whole`).  Every access names a range of bytes, which is checked against the pages, and
either lies within the memory or fails and changes nothing (`Memory.read`, `Memory.write`,
`Memory.fill`, `Memory.copy`); only `Memory.grow` changes the size.  Reading and writing go
through lists of bytes, so that a copy between overlapping ranges moves the bytes that were there
before.
-/

namespace WasmMachine

/-- The number of bytes in a page. -/
def pageSize : Nat := 65536

/-- The most pages that any memory can have. -/
def maxPages : Nat := 65536

/-- Append zero bytes. -/
def pushZeros : Nat → ByteArray → ByteArray
  | 0, b => b
  | n + 1, b => pushZeros n (b.push 0)

/-- Bring bytes to a size, with zeros behind them or without the last of them. -/
def resizeBytes (n : Nat) (b : ByteArray) : ByteArray :=
  if n < b.size then b.extract 0 n else pushZeros (n - b.size) b

/-- The `n` bytes from a position on, in front of `acc`. -/
def sliceBytes (b : ByteArray) (pos : Nat) : Nat → List UInt8 → List UInt8
  | 0, acc => acc
  | n + 1, acc => sliceBytes b pos n (b.get! (pos + n) :: acc)

/-- Replace the bytes from a position on. -/
def overwrite (b : ByteArray) (pos : Nat) : List UInt8 → ByteArray
  | [] => b
  | x :: xs => overwrite (b.set! pos x) (pos + 1) xs

@[simp] theorem size_pushZeros (n : Nat) (b : ByteArray) :
    (pushZeros n b).size = b.size + n := by
  induction n generalizing b with
  | zero => rfl
  | succ n ih =>
    rw [pushZeros, ih, ByteArray.size_push]
    omega

@[simp] theorem size_resizeBytes (n : Nat) (b : ByteArray) : (resizeBytes n b).size = n := by
  unfold resizeBytes
  split
  · rw [ByteArray.size_extract]
    omega
  · rw [size_pushZeros]
    omega

@[simp] theorem size_overwrite (b : ByteArray) (pos : Nat) (xs : List UInt8) :
    (overwrite b pos xs).size = b.size := by
  induction xs generalizing b pos with
  | nil => rfl
  | cons x xs ih => rw [overwrite, ih, ByteArray.size_set!]

/-- A linear memory. -/
@[ext] structure Memory where
  limits : Limits
  /-- The number of pages. -/
  pages : Nat
  bytes : ByteArray
  /-- The bytes fill the pages. -/
  whole : bytes.size = pages * pageSize

namespace Memory

/-- A memory of the least size, filled with zeros. -/
def new (limits : Limits) : Memory where
  limits
  pages := limits.min.toNat
  bytes := pushZeros (limits.min.toNat * pageSize) ByteArray.empty
  whole := by rw [size_pushZeros, ByteArray.size_empty, Nat.zero_add]

instance : Inhabited Memory := ⟨new default⟩

/-- The number of bytes that the pages have. -/
def size (m : Memory) : Nat := m.pages * pageSize

@[simp] theorem size_new (limits : Limits) :
    (new limits).size = limits.min.toNat * pageSize := rfl

@[simp] theorem pages_new (limits : Limits) : (new limits).pages = limits.min.toNat := rfl

/-- The most pages that the memory may have. -/
def maxPages (m : Memory) : Nat :=
  match m.limits.max? with
  | none => WasmMachine.maxPages
  | some max => min max.toNat WasmMachine.maxPages

/-- A memory with another number of pages, and zeros on those that are new. -/
def resize (pages : Nat) (m : Memory) : Memory :=
  { m with pages, bytes := resizeBytes (pages * pageSize) m.bytes, whole := size_resizeBytes _ _ }

@[simp] theorem resize_pages (m : Memory) : m.resize m.pages = m := by
  have bytes : resizeBytes (m.pages * pageSize) m.bytes = m.bytes := by
    rw [← m.whole, resizeBytes, if_neg (Nat.lt_irrefl _), Nat.sub_self, pushZeros]
  simp only [resize, bytes]

/-- A memory with other bytes from a position on. -/
def put (pos : Nat) (bs : List UInt8) (m : Memory) : Memory :=
  { m with bytes := overwrite m.bytes pos bs, whole := (size_overwrite _ _ _).trans m.whole }

@[simp] theorem size_put (pos : Nat) (bs : List UInt8) (m : Memory) :
    (m.put pos bs).size = m.size := rfl

/-- Add pages of zeros, and give the number of pages before; none if there would be too many. -/
def grow (delta : Nat) : EStateM Trap Memory (Option Nat) := fun m =>
  let old := m.pages
  if old + delta ≤ m.maxPages then .ok (some old) (m.resize (old + delta))
  else .ok none m

/-- The bytes of a range. -/
def read (pos count : Nat) : EStateM Trap Memory (List UInt8) := fun m =>
  if pos + count ≤ m.size then .ok (sliceBytes m.bytes pos count []) m
  else .error .memoryBounds m

/-- Replace the bytes of a range. -/
def write (pos : Nat) (bs : List UInt8) : EStateM Trap Memory Unit := fun m =>
  if pos + bs.length ≤ m.size then .ok () (m.put pos bs)
  else .error .memoryBounds m

/-- Set every byte of a range. -/
def fill (value : UInt8) (pos count : Nat) : EStateM Trap Memory Unit := fun m =>
  if pos + count ≤ m.size then write pos (List.replicate count value) m
  else .error .memoryBounds m

/-- Replace a range by the bytes of another one, which it may overlap. -/
def copy (dst src count : Nat) : EStateM Trap Memory Unit := fun m =>
  if dst + count ≤ m.size then (do write dst (← read src count)) m
  else .error .memoryBounds m

end Memory

end WasmMachine
