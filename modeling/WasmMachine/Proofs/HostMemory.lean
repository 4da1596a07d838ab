import Mathlib.Algebra.Group.Int.Defs
import Mathlib.Algebra.Group.Nat.Defs
import WasmMachine.Proofs.Accesses
import WasmMachine.Proofs.Isolation
import WasmMachine.Proofs.MemoryAccess

/-!
# What host and guest share

A host program works on the first memory of the store, through bytes (`Access.readBytes`,
`Access.writeBytes`) or native words (`HostM.load`, `HostM.store`), and a typed host function
takes native words as arguments.  The guest gets at the same memory and passes the same arguments
as values.  Both agree since a native word and a value are the same digits to the base 256
(`Native.Lawful`).

* `Native.dispatch_load`, `Native.dispatch_store`: an instruction does what the host's
  operation does.
* `HostBody.Applies.call_eq`: what a call of a typed host function does to its caller.
* `HostBoundary.transparent`: host and guest see the same memory and the same values.
-/

namespace WasmMachine

variable {σ α β : Type}

/-! ## Native words -/

/-- The load that takes a value of a type from memory as it is. -/
def ValType.load? : ValType → Option LoadOp
  | .i32 => some .i32
  | .i64 => some .i64
  | .f32 => some .f32
  | .f64 => some .f64
  | _ => none

/-- The store that puts a value of a type into memory as it is. -/
def ValType.store? : ValType → Option StoreOp
  | .i32 => some .i32
  | .i64 => some .i64
  | .f32 => some .f32
  | .f64 => some .f64
  | _ => none

namespace Native

/-- A native type of numbers: its words are as wide as what is loaded and stored of its type of
values, and they have all bits that fit. -/
class Lawful (α : Type) [Native α] : Prop where
  load_size : (valType α).load?.map LoadOp.size = some (size α)
  store_size : (valType α).store?.map StoreOp.size = some (size α)
  toNat_toWord (w : UInt64) : (toWord (ofWord w : α)).toNat = w.toNat % 256 ^ size α

instance : Lawful UInt32 := ⟨rfl, rfl, fun w => by
  change w.toUInt32.toUInt64.toNat = _
  rw [UInt32.toNat_toUInt64, UInt64.toNat_toUInt32]
  rfl⟩

instance : Lawful Int32 := ⟨rfl, rfl, fun w => by
  change w.toUInt32.toInt32.toUInt32.toUInt64.toNat = _
  rw [UInt32.toUInt32_toInt32, UInt32.toNat_toUInt64, UInt64.toNat_toUInt32]
  rfl⟩

instance : Lawful UInt64 := ⟨rfl, rfl, fun w => (Nat.mod_eq_of_lt w.toNat_lt).symm⟩

instance : Lawful Int64 := ⟨rfl, rfl, fun w => by
  change w.toInt64.toUInt64.toNat = _
  rw [UInt64.toUInt64_toInt64]
  exact (Nat.mod_eq_of_lt w.toNat_lt).symm⟩

instance : Lawful F32 := ⟨rfl, rfl, fun w => by
  change w.toUInt32.toUInt64.toNat = _
  rw [UInt32.toNat_toUInt64, UInt64.toNat_toUInt32]
  rfl⟩

instance : Lawful F64 := ⟨rfl, rfl, fun w => (Nat.mod_eq_of_lt w.toNat_lt).symm⟩

variable [Native α]

theorem toValue_eq (x : α) : toValue x = .ofNat (toWord x).toNat := by
  refine (Value.ofNat_toNat _).symm.trans (congrArg Value.ofNat ?_)
  change 0 * UInt64.size + (toWord x).toNat = _
  rw [Nat.zero_mul, Nat.zero_add]

variable [Lawful α]

theorem size_le : size α ≤ 8 := by
  obtain ⟨op, -, same⟩ := Option.map_eq_some_iff.mp (Lawful.load_size (α := α))
  exact same ▸ op.size_le

/-- A value that is read at a native type keeps the bits that the type has. -/
theorem toValue_ofValue (v : Value) :
    toValue (ofValue v : α) = .ofNat (v.toNat % 256 ^ size α) := by
  rw [toValue_eq, ofValue, Lawful.toNat_toWord, v.toNat_mod size_le]

/-- The word that bytes spell is the number that they spell. -/
theorem toValue_ofBytes {bs : List UInt8} (length : bs.length = size α) :
    toValue (ofBytes bs : α) = .ofNat (leNat bs) := by
  have bound := leNat_lt bs
  rw [one_shiftLeft_bytes, length] at bound
  rw [toValue_eq, ofBytes, Lawful.toNat_toWord, toNat_ofLeBytes_of_le (length ▸ size_le),
    Nat.mod_eq_of_lt bound]

/-- The bytes of a value that is read at a native type are its low digits. -/
theorem toBytes_ofValue (v : Value) : toBytes (ofValue v : α) = digits (size α) v.toNat := by
  refine eq_digits (length_toBytes _) ?_
  rw [toBytes, leNat_leBytes, one_shiftLeft_bytes, ofValue, Lawful.toNat_toWord, Nat.mod_mod,
    v.toNat_mod size_le]

/-- An instruction that loads values of the type as they are. -/
theorem exists_load :
    ∃ op, (valType α).load? = some op ∧ op.size = size α ∧ op.extended = id := by
  obtain ⟨op, full, same⟩ := Option.map_eq_some_iff.mp (Lawful.load_size (α := α))
  have unsigned : op.sign = .unsigned := by
    cases type : valType α <;> rw [type] at full <;> cases full <;> rfl
  refine ⟨op, full, same, funext fun n => ?_⟩
  rw [LoadOp.extended, unsigned, id]

end Native

/-! ## What a host program does to memory -/

/-- Load a native word from the first memory of a machine. -/
def Machine.loadAs (α : Type) [Native α] (pos : Nat) (m : Machine σ) :
    Except Trap α × Machine σ :=
  let (r, m) := (Access.readBytes pos (Native.size α)).perform m
  (r.map Native.ofBytes, m)

/-- Store a native word to the first memory of a machine. -/
def Machine.storeAs [Native α] (pos : Nat) (x : α) (m : Machine σ) :
    Except Trap Unit × Machine σ :=
  (Access.writeBytes pos (Native.toBytes x)).perform m

/-- A part of a host program goes on with a value on another machine, or traps. -/
def HostM.Runs (enter : Enter σ) (act : HostM σ α) (m : Machine σ)
    (r : Except Trap α × Machine σ) :
    Prop := ∀ k, Run.host enter (act k) m = match r with
    | (.ok x, m) => Run.host enter (k x) m
    | (.error t, m) => some (.error (.trap t), m)

theorem HostM.load_runs [Native α] (enter : Enter σ) (pos : Nat) (m : Machine σ) :
    (HostM.load α pos).Runs enter m (m.loadAs α pos) := by
  intro k
  change Run.host enter (.access (.readBytes pos (Native.size α)) fun reply =>
    orTrap reply fun bs => k (Native.ofBytes bs)) m = _
  dsimp only [Run.host, Machine.loadAs]
  generalize (Access.readBytes pos (Native.size α)).perform m = replied
  obtain ⟨r, m'⟩ := replied
  cases r <;> rfl

theorem HostM.store_runs [Native α] (enter : Enter σ) (pos : Nat) (x : α) (m : Machine σ) :
    (HostM.store pos x).Runs enter m (m.storeAs pos x) := by
  intro k
  change Run.host enter (.access (.writeBytes pos (Native.toBytes x)) fun reply =>
    orTrap reply k) m = _
  dsimp only [Run.host, Machine.storeAs]
  generalize (Access.writeBytes pos (Native.toBytes x)).perform m = replied
  obtain ⟨r, m'⟩ := replied
  cases r <;> rfl

/-! ## The first memory -/

namespace Machine

variable {m m' : Machine σ} {mem : Memory}

theorem onFirstMemory_there (there : m.store.memories[0]? = some mem)
    (x : EStateM Trap Memory β) :
    m.onFirstMemory x = match x mem with
      | .ok a mem => (.ok a, m.withMemory 0 mem)
      | .error t mem => (.error t, m.withMemory 0 mem) := by
  have lt := (Array.getElem?_eq_some_iff.mp there).1
  have some : ¬ m.store.memories.isEmpty := by
    rw [Array.isEmpty_iff_size_eq_zero]
    omega
  rw [onFirstMemory, if_neg some, onStore_eq, StoreM.onMemory_there there]
  cases x mem <;> rfl

theorem withMemory_there (there : m.store.memories[0]? = some mem) : m.withMemory 0 mem = m := by
  rw [withMemory, setIfInBounds_there there]

theorem readBytes_there (there : m.store.memories[0]? = some mem) (pos count : Nat) :
    (Access.readBytes pos count).perform m =
      (if pos + count ≤ mem.size then .ok (mem.image.range pos count)
        else .error .memoryBounds, m) := by
  rw [Access.perform, onFirstMemory_there there]
  by_cases fits : pos + count ≤ mem.size
  · rw [Memory.read_of_le fits, if_pos fits]
    exact congrArg (Prod.mk _) (withMemory_there there)
  · rw [Memory.read, if_neg fits, if_neg fits]
    exact congrArg (Prod.mk _) (withMemory_there there)

theorem writeBytes_there (there : m.store.memories[0]? = some mem) (pos : Nat) (bs : List UInt8) :
    (Access.writeBytes pos bs).perform m =
      if pos + bs.length ≤ mem.size then
        (.ok (), m.withMemory 0 (mem.put pos bs))
      else (.error .memoryBounds, m) := by
  rw [Access.perform, onFirstMemory_there there, Memory.write]
  by_cases fits : pos + bs.length ≤ mem.size
  · rw [if_pos fits, if_pos fits]
  · rw [if_neg fits, if_neg fits]
    exact congrArg (Prod.mk _) (withMemory_there there)

/-- Without any memory nothing is read or written. -/
theorem onFirstMemory_absent (absent : m.store.memories[0]? = none) (x : EStateM Trap Memory β) :
    m.onFirstMemory x = (.error .noMemory, m) := by
  have none : m.store.memories.isEmpty := by
    rw [Array.isEmpty_iff_size_eq_zero]
    exact Nat.le_zero.mp (Array.getElem?_eq_none_iff.mp absent)
  rw [onFirstMemory, if_pos none]

/-- What has been written to a range is read from it. -/
theorem readBytes_written {pos : Nat} {bs : List UInt8}
    (written : (Access.writeBytes pos bs).perform m = (.ok (), m')) :
    (Access.readBytes pos bs.length).perform m' = (.ok bs, m') := by
  cases there : m.store.memories[0]? with
  | none =>
    rw [Access.perform, onFirstMemory_absent there] at written
    cases written
  | some mem =>
    rw [writeBytes_there there] at written
    by_cases fits : pos + bs.length ≤ mem.size
    · rw [if_pos fits] at written
      cases written
      have there' := memory_withMemory there (mem.put pos bs)
      rw [readBytes_there there', mem.size_put, if_pos fits, Memory.range_put fits]
    · rw [if_neg fits] at written
      cases written

/-- Reading changes nothing. -/
theorem readBytes_same (m : Machine σ) (pos count : Nat) :
    ((Access.readBytes pos count).perform m).2 = m := by
  cases there : m.store.memories[0]? with
  | none => rw [Access.perform, onFirstMemory_absent there]
  | some mem => rw [readBytes_there there]

/-- A write that fails changes nothing. -/
theorem writeBytes_failed {pos : Nat} {bs : List UInt8} {t : Trap}
    (failed : (Access.writeBytes pos bs).perform m = (.error t, m')) : m' = m := by
  cases there : m.store.memories[0]? with
  | none =>
    rw [Access.perform, onFirstMemory_absent there] at failed
    cases failed
    rfl
  | some mem =>
    rw [writeBytes_there there] at failed
    by_cases fits : pos + bs.length ≤ mem.size
    · rw [if_pos fits] at failed
      cases failed
    · rw [if_neg fits] at failed
      cases failed
      rfl

end Machine

/-! ## Loads and stores of host and guest -/

namespace Native

variable [Native α] [Lawful α] {m m' : Machine σ}

/-- The guest's load pushes the value of what the host loads, and traps if the host cannot. -/
theorem dispatch_load : ∃ op, (valType α).load? = some op ∧
    ∀ {m : Machine σ} {outer : Array Frame} {f : Frame} {mem : Memory} {rest : Array Value}
      {base : Value}, m.Facing outer f 0 mem → f.stack = rest.push base → ∀ arg : MemArg,
      Run.dispatch (.load op arg) m = match m.loadAs α (arg.pos base) with
        | (.ok x, m') => some (.ok .next, m'.passed outer f (rest.push (toValue x)))
        | (.error t, m') => some (.error (.trap t), m'.passed outer f rest) := by
  obtain ⟨op, full, size, plain⟩ := exists_load (α := α)
  refine ⟨op, full, fun {m outer f mem rest base} facing operand arg => ?_⟩
  have length := mem.image.length_range (arg.pos base) (Native.size α)
  rw [(Instr.Loads.scalar op arg).yields base mem facing operand, Memory.loaded, size, plain, id,
    Machine.loadAs, Machine.readBytes_there facing.there]
  by_cases fits : arg.pos base + Native.size α ≤ mem.size
  · simp only [fits, if_true, Except.map, toValue_ofBytes length]
    rfl
  · simp only [fits, if_false, Except.map]

/-- The guest's store leaves the memory that the host's store leaves, and traps if the host
cannot. -/
theorem dispatch_store : ∃ op, (valType α).store? = some op ∧
    ∀ {m : Machine σ} {outer : Array Frame} {f : Frame} {mem : Memory} {rest : Array Value}
      {base v : Value}, m.Facing outer f 0 mem → f.stack = (rest.push base).push v →
      ∀ arg : MemArg,
      Run.dispatch (.store op arg) m = match m.storeAs (arg.pos base) (ofValue v : α) with
        | (.ok (), m') => some (.ok .next, m'.passed outer f rest)
        | (.error t, m') => some (.error (.trap t), m'.passed outer f rest) := by
  obtain ⟨op, full, size⟩ := Option.map_eq_some_iff.mp (Lawful.store_size (α := α))
  refine ⟨op, full, fun {m outer f mem rest base v} facing operands arg => ?_⟩
  rw [(Instr.Stores.scalar op arg).dispatch_eq facing operands, size, Machine.storeAs,
    Machine.writeBytes_there facing.there, length_toBytes, toBytes_ofValue]
  by_cases fits : arg.pos base + Native.size α ≤ mem.size
  · rw [if_pos fits, if_pos fits]
    rfl
  · rw [if_neg fits, if_neg fits]

omit [Lawful α] in
theorem loadAs_same (m : Machine σ) (pos : Nat) : (m.loadAs α pos).2 = m := m.readBytes_same _ _

omit [Lawful α] in
/-- What has been stored is loaded. -/
theorem loadAs_stored {pos : Nat} {x : α} (stored : m.storeAs pos x = (.ok (), m')) :
    m'.loadAs α pos = (.ok x, m') := by
  have read := Machine.readBytes_written stored
  rw [length_toBytes] at read
  rw [Machine.loadAs, read]
  exact congrArg (fun x => (Except.ok x, m')) (ofBytes_toBytes x)

end Native

/-! ## Typed host functions -/

/-- A function of native arguments is given values, each read at the type of its argument, and a
program is left of it. -/
inductive HostBody.Applies {ρ : Type} [HostResult ρ] :
    {φ : Type} → [HostBody σ φ] → φ → List Value → HostM σ ρ → Prop
  | done (act : HostM σ ρ) : Applies act [] act
  | next {α φ : Type} [Native α] [HostBody σ φ] {fn : α → φ} {v : Value} {vs : List Value}
    {act : HostM σ ρ} : Applies (fn (Native.ofValue v)) vs act → Applies fn (v :: vs) act

/-- A type of results that gives as many as it says. -/
class HostResult.Lawful (ρ : Type) [HostResult ρ] : Prop where
  size_values (x : ρ) : (HostResult.values x).size = (HostResult.types ρ).length

instance : HostResult.Lawful Unit := ⟨fun _ => rfl⟩

instance [Native α] : HostResult.Lawful α := ⟨fun _ => rfl⟩

namespace HostBody.Applies

variable {ρ φ : Type} [HostResult ρ] [HostBody σ φ] {fn : φ} {vs : List Value} {act : HostM σ ρ}

theorem types (applies : Applies fn vs act) : (HostBody.params σ φ).length = vs.length ∧
    HostBody.results σ φ = HostResult.types ρ := by
  induction applies with
  | done act => exact ⟨rfl, rfl⟩
  | next _ ih => exact ⟨congrArg (· + 1) ih.1, ih.2⟩

/-- The arguments are read off the locals, in order. -/
theorem run_eq (applies : Applies fn vs act) {idx : Nat} {frame : Frame}
    (args : ∀ j < vs.length, frame.locals[idx + j]? = vs[j]?) (k : Array Value → HostProg σ) :
    HostBody.run fn idx frame k = act fun x => k (HostResult.values x) := by
  induction applies generalizing idx with
  | done act => rfl
  | @next α φ _ _ fn v vs act _ ih =>
    have first : frame.locals[idx]? = some v := args 0 (Nat.zero_lt_succ _)
    have others (j : Nat) (lt : j < vs.length) : frame.locals[idx + 1 + j]? = vs[j]? := by
      rw [Nat.add_assoc, Nat.add_comm 1]
      exact args (j + 1) (Nat.succ_lt_succ lt)
    have taken : (HostBody.run fn idx frame : HostM σ (Array Value))
        = HostBody.run (fn (Native.ofValue v)) (idx + 1) frame := by
      simp only [HostBody.run, first]
    rw [taken]
    exact ih others

/-- A call takes the arguments off the caller, and pushes the results. -/
theorem call_eq [HostResult.Lawful ρ] (applies : Applies fn vs act) {enter : Enter σ}
    {m m' : Machine σ}
    {outer : Array Frame} {f : Frame} {addr : Nat} {module name : String}
    {rest : Array Value} {x : ρ}
    (found : m.store.funcs[addr]? = some (.host (.typed module name fn)))
    (top : m.frames = outer.push f)
    (room : outer.size + 1 < m.config.maxCallDepth) (operands : f.stack = rest ++ vs.toArray)
    (runs : act.Runs enter { m with frames := outer.push { f with stack := rest } } (.ok x, m'))
    (stays : m'.frames = outer.push { f with stack := rest }) : Run.call enter addr m =
      some (.ok (), { m' with
        frames := outer.push { f with stack := rest ++ HostResult.values x } }) := by
  obtain ⟨params, results⟩ := applies.types
  let g : HostFunc σ := .typed module name fn
  have count : g.numArgs = vs.toArray.size := params
  have arity : g.arity = (HostResult.values x).size := by
    rw [HostResult.Lawful.size_values, ← results]
    rfl
  -- the body starts from a frame that holds the arguments and nothing else
  let frame := Run.hostFrame addr g f.inst vs.toArray outer.size
  have args (j : Nat) (_ : j < vs.length) : frame.locals[0 + j]? = vs[j]? := by
    rw [Nat.zero_add]
    exact List.getElem?_toArray
  let left : Frame := { frame with stack := frame.stack ++ HostResult.values x }
  have body : Run.host enter (g.body frame)
      { m with frames := outer.push { f with stack := rest } }
      = some (.ok left, m') := by
    have ends : g.body frame = _ :=
      applies.run_eq args fun values => .done { frame with stack := frame.stack ++ values }
    rw [ends, runs]
    rfl
  have results : left.top? left.arity = some (HostResult.values x) := by
    change left.top? g.arity = _
    rw [arity]
    exact Frame.top?_append rfl
  rw [Run.call_eq enter addr top, if_neg (Nat.not_le.mpr room), found]
  dsimp only
  rw [count, Frame.top?_append operands, Frame.without_append operands]
  dsimp only
  rw [Run.bind_apply, body]
  dsimp only
  rw [Run.handBack_eq left stays, results]

end HostBody.Applies

/-! ## Host and guest -/

/-- What host programs and guest code see of each other: one memory, and the values that a call
passes. -/
structure HostBoundary (σ : Type) : Prop where
  /-- Host programs load and store as the machine does that they run on. -/
  program {α : Type} [Native α] (enter : Enter σ) (pos : Nat) (x : α) (m : Machine σ) :
    (HostM.load α pos).Runs enter m (m.loadAs α pos) ∧
      (HostM.store pos x).Runs enter m (m.storeAs pos x)
  /-- The guest loads what the host loads, and traps if the host cannot. -/
  load {α : Type} [Native α] [Native.Lawful α] : ∃ op, (Native.valType α).load? = some op ∧
    ∀ {m : Machine σ} {outer : Array Frame} {f : Frame} {mem : Memory} {rest : Array Value}
      {base : Value}, m.Facing outer f 0 mem → f.stack = rest.push base → ∀ arg : MemArg,
      Run.dispatch (.load op arg) m = match m.loadAs α (arg.pos base) with
        | (.ok x, m') => some (.ok .next, m'.passed outer f (rest.push (Native.toValue x)))
        | (.error t, m') => some (.error (.trap t), m'.passed outer f rest)
  /-- The guest leaves the memory that the host leaves when it stores, and traps if the host
  cannot. -/
  store {α : Type} [Native α] [Native.Lawful α] : ∃ op, (Native.valType α).store? = some op ∧
    ∀ {m : Machine σ} {outer : Array Frame} {f : Frame} {mem : Memory} {rest : Array Value}
      {base v : Value}, m.Facing outer f 0 mem → f.stack = (rest.push base).push v →
      ∀ arg : MemArg,
      Run.dispatch (.store op arg) m = match m.storeAs (arg.pos base) (Native.ofValue v : α) with
        | (.ok (), m') => some (.ok .next, m'.passed outer f rest)
        | (.error t, m') => some (.error (.trap t), m'.passed outer f rest)
  /-- What has been stored is loaded. -/
  stored {α : Type} [Native α] {m m' : Machine σ} {pos : Nat} {x : α} :
    m.storeAs pos x = (.ok (), m') → m'.loadAs α pos = (.ok x, m')
  /-- What has been written is read. -/
  written {m m' : Machine σ} {pos : Nat} {bs : List UInt8} :
    (Access.writeBytes pos bs).perform m = (.ok (), m') →
      (Access.readBytes pos bs.length).perform m' = (.ok bs, m')
  /-- Neither reading nor loading changes anything. -/
  read {α : Type} [Native α] (m : Machine σ) (pos count : Nat) :
    ((Access.readBytes pos count).perform m).2 = m ∧ (m.loadAs α pos).2 = m
  /-- If writing or storing fails, it changes nothing. -/
  failed {α : Type} [Native α] {m m' : Machine σ} {pos : Nat} {bs : List UInt8} {x : α}
    {t : Trap} :
    (Access.writeBytes pos bs).perform m = (.error t, m') ∨
    m.storeAs pos x = (.error t, m') → m' = m
  /-- An argument has the bits of the value that its type has, and a result has all bits of its
  word. -/
  bits {α : Type} [Native α] [Native.Lawful α] (v : Value) (x : α) :
    Native.toValue (Native.ofValue v : α) = .ofNat (v.toNat % 256 ^ Native.size α) ∧
      HostResult.values x = #[⟨Native.toWord x, 0⟩]
  /-- A call of a typed function takes its arguments off the caller in the order in which they
  were pushed, whatever their number, and pushes its results. -/
  call {ρ φ : Type} [HostResult ρ] [HostResult.Lawful ρ] [HostBody σ φ] {fn : φ} {vs : List Value}
    {act : HostM σ ρ} {enter : Enter σ} {m m' : Machine σ} {outer : Array Frame} {f : Frame}
      {addr : Nat}
    {module name : String} {rest : Array Value} {x : ρ} : HostBody.Applies fn vs act →
    m.store.funcs[addr]? = some (.host (.typed module name fn)) → m.frames = outer.push f →
    outer.size + 1 < m.config.maxCallDepth → f.stack = rest ++ vs.toArray →
    act.Runs enter { m with frames := outer.push { f with stack := rest } } (.ok x, m') →
    m'.frames = outer.push { f with stack := rest } →
    Run.call enter addr m = some (.ok (), { m' with
      frames := outer.push { f with stack := rest ++ HostResult.values x } })

/-- Host programs and guest code see the same memory and the same values. -/
theorem HostBoundary.transparent (σ : Type) : HostBoundary σ where
  program enter pos x m := ⟨HostM.load_runs enter pos m, HostM.store_runs enter pos x m⟩
  load := Native.dispatch_load
  store := Native.dispatch_store
  stored := Native.loadAs_stored
  written := Machine.readBytes_written
  read m pos count := ⟨m.readBytes_same pos count, Native.loadAs_same m pos⟩
  failed fails := fails.elim Machine.writeBytes_failed Machine.writeBytes_failed
  bits v _ := ⟨Native.toValue_ofValue v, rfl⟩
  call applies found top room operands runs stays :=
    applies.call_eq found top room operands runs stays

/-- What a host program stores into the last bytes of a page, the guest loads from there; and a
function that gives the second one of two numbers takes both off its caller and pushes that
one. -/
theorem HostBoundary.transparent_at_end :
    (∃ m' : Machine Unit,
      (Machine.onePage (.ofU32 7) (.ofU32 65528)).storeAs 65532 (-2 : Int32) = (.ok (), m') ∧
      Run.dispatch (.load .i32 ⟨2, 4⟩) m' = some (.ok .next,
        m'.passed #[] { (default : Frame) with stack := #[.ofU32 7, .ofU32 65528] }
          #[.ofU32 7, .ofU32 0xfffffffe])) ∧
    ∃ m : Machine Unit, m.frames = #[{ (default : Frame) with stack := #[.ofU32 5, .ofU64 6] }] ∧
      m.store.funcs[0]? = some (.host (.typed "env" "second" fun (_ : Int32) (y : UInt64) =>
        (pure y : HostM Unit UInt64))) ∧
      Run.call (fun _ => Run.trap .noMemory) 0 m = some (.ok (),
        { m with frames := #[{ (default : Frame) with stack := #[.ofU64 6] }] }) := by
  constructor
  · have operand : #[.ofU32 7, .ofU32 65528] = (#[.ofU32 7] : Array Value).push (.ofU32 65528) :=
      rfl
    have pos : (MemArg.mk 2 4).pos (.ofU32 65528) = 65532 := rfl
    have facing := Machine.onePage_facing (.ofU32 7) (.ofU32 65528)
    have stored := Machine.writeBytes_there facing.there 65532 (Native.toBytes (-2 : Int32))
    rw [if_pos (by rw [Memory.size_new, Native.length_toBytes]; decide)] at stored
    obtain ⟨op, full, load⟩ := (HostBoundary.transparent Unit).load (α := Int32)
    cases full
    refine ⟨_, stored, ?_⟩
    rw [load (facing.withMemory _) operand, pos, (HostBoundary.transparent Unit).stored stored]
    rfl
  · let second : Int32 → UInt64 → HostM Unit UInt64 := fun _ y => pure y
    let m :=
      ((Machine.onePage (.ofU32 5) (.ofU64 6)).addFunc (.host (.typed "env" "second" second))).2
    let f : Frame := { (default : Frame) with stack := #[.ofU32 5, .ofU64 6] }
    let m' := { m with frames := #[].push { f with stack := #[] } }
    have applies : HostBody.Applies second [.ofU32 5, .ofU64 6] (second 5 6) :=
      .next (.next (.done _))
    have found : m.store.funcs[0]? = some (.host (.typed "env" "second" second)) := rfl
    have top : m.frames = #[].push f := rfl
    have room : (#[] : Array Frame).size + 1 < m.config.maxCallDepth := by decide
    have operands : f.stack = #[] ++ [.ofU32 5, .ofU64 6].toArray := rfl
    have runs : (second 5 6).Runs (fun _ => Run.trap .noMemory) m' (.ok 6, m') := fun _ => rfl
    have called := (HostBoundary.transparent Unit).call applies found top room operands runs rfl
    exact ⟨m, top, found, called⟩

end WasmMachine
