import WasmMachine.Exec

/-!
# Plain instructions

All but ten instructions leave the control of their frame alone: they move operands and locals,
and they change the store through a fixed set of operations.  `Act.Plain` says so once, as the
way in which such an act is put together, so that a property of all plain instructions is an
induction on it and never a case split over the instructions.

* `Instr.exec_plain`: every instruction that is not a control instruction is plain.
* `Instr.exec_next`: an instruction that is not a call goes on to the next one.
* `Act.Plain.operandwise`: a plain act sees of its frame the operands and the locals, and changes
  nothing else of it.
-/

namespace WasmMachine

/-! ## Instructions by what they do to control -/

/-- The instructions that move the position of their frame or change its labels. -/
def Instr.isControl : Instr → Bool
  | .block .. | .loop .. | .ifThen .. | .elseArm _ | .endOf => true
  | .br _ | .brIf _ | .brTable .. | .ret => true
  | _ => false

/-- The instructions that open, divide or close a construct. -/
def Instr.isStructural : Instr → Bool
  | .block .. | .loop .. | .ifThen .. | .elseArm _ | .endOf => true
  | _ => false

/-- The instructions that call a function. -/
def Instr.isCall : Instr → Bool
  | .call _ | .callIndirect .. => true
  | _ => false

/-- The traps that have to do with the position of a frame or its labels. -/
def Trap.isControl : Trap → Bool
  | .labelUnderflow | .unknownLabel _ | .codeEnd _ => true
  | _ => false

variable {σ α β : Type}

/-- A result that is no trap of control. -/
def Except.Plain (r : Except Trap α) : Prop := ∀ t, r = .error t → t.isControl = false

theorem Except.Plain.ok (a : α) : Except.Plain (.ok a) := by
  intro t failed
  cases failed

theorem Except.Plain.error {t : Trap} (plain : t.isControl = false) :
    Except.Plain (.error t : Except Trap α) := by
  intro t' failed
  cases failed
  exact plain

theorem Except.Plain.ite {c : Prop} [Decidable c] {r r' : Except Trap α} (yes : Except.Plain r)
    (no : Except.Plain r') : Except.Plain (if c then r else r') := by
  split
  · exact yes
  · exact no

theorem Except.Plain.map (g : α → β) {r : Except Trap α} (plain : Except.Plain r) :
    Except.Plain (g <$> r) := by
  cases r with
  | ok a => exact .ok (g a)
  | error t => exact .error (plain t rfl)

/-- Results that are not traps of control, one after the other. -/
theorem Except.Plain.bind {r : Except Trap α} {k : α → Except Trap β} (first : Except.Plain r)
    (rest : ∀ a, Except.Plain (k a)) : Except.Plain (r >>= k) := by
  cases r with
  | ok a => exact rest a
  | error t => exact .error (first t rfl)

/-! ## Index spaces -/

namespace Instance

theorem addrOf_plain (space : IndexSpace) (addrs : Array Nat) (idx : UInt32) :
    Except.Plain (addrOf space addrs idx) := by
  unfold addrOf
  split
  · exact .ok _
  · exact .error rfl

variable (inst : Instance)

theorem memAddr_plain (idx : MemIdx) : Except.Plain (inst.memAddr idx) :=
  .ite (.error rfl) (addrOf_plain _ _ _)

theorem funcType_plain (idx : TypeIdx) : Except.Plain (inst.funcType idx) := by
  unfold funcType
  split
  · exact .ok _
  · exact .error rfl

theorem blockArity_plain (type : BlockType) : Except.Plain (inst.blockArity type) := by
  cases type with
  | empty => exact .ok _
  | val type => exact .ok _
  | typeIndex idx => exact (inst.funcType_plain idx).bind fun t => .ok _

theorem externVal_plain (desc : ExportDesc) : Except.Plain (inst.externVal desc) := by
  cases desc with
  | func idx => exact (addrOf_plain _ _ _).map _
  | table idx => exact (addrOf_plain _ _ _).map _
  | mem idx => exact (inst.memAddr_plain idx).map _
  | global idx => exact (addrOf_plain _ _ _).map _

end Instance

/-! ## Operations on the store -/

/-- The operations that instructions carry out on a table. -/
inductive Table.Op : {α : Type} → EStateM Trap Table α → Prop
  | look {α : Type} (f : Table → α) : Table.Op (do return f (← get))
  | set (idx : Nat) (v : Value) : Table.Op (Table.set idx v)
  | grow (delta : Nat) (v : Value) : Table.Op (Table.grow delta v)
  | read (pos count : Nat) : Table.Op (Table.read pos count)
  | write (pos : Nat) (vs : List Value) : Table.Op (Table.write pos vs)
  | fill (pos : Nat) (v : Value) (count : Nat) : Table.Op (Table.fill pos v count)
  | copy (dst src count : Nat) : Table.Op (Table.copy dst src count)

/-- The operations that instructions carry out on a memory. -/
inductive Memory.Op : {α : Type} → EStateM Trap Memory α → Prop
  | look {α : Type} (f : Memory → α) : Memory.Op (do return f (← get))
  | grow (delta : Nat) : Memory.Op (Memory.grow delta)
  | read (pos count : Nat) : Memory.Op (Memory.read pos count)
  | write (pos : Nat) (bs : List UInt8) : Memory.Op (Memory.write pos bs)
  | fill (v : UInt8) (pos count : Nat) : Memory.Op (Memory.fill v pos count)
  | copy (dst src count : Nat) : Memory.Op (Memory.copy dst src count)

/-- The operations that instructions carry out on the store. None of them adds a function, or
changes one. -/
inductive StoreM.Op : {α : Type} → StoreM σ α → Prop
  | gets {α : Type} {f : Store σ → Except Trap α} :
    (∀ s, Except.Plain (f s)) → StoreM.Op (StoreM.gets f)
  | setGlobal (addr : Nat) (v : Value) : StoreM.Op (StoreM.setGlobal addr v)
  | dropElem (addr : Nat) : StoreM.Op (StoreM.dropElem addr)
  | dropData (addr : Nat) : StoreM.Op (StoreM.dropData addr)
  | onTable {α : Type} (addr : Nat) {x : EStateM Trap Table α} :
    Table.Op x → StoreM.Op (StoreM.onTable addr x)
  | onMemory {α : Type} (addr : Nat) {x : EStateM Trap Memory α} :
    Memory.Op x → StoreM.Op (StoreM.onMemory addr x)

/-- What an operation leaves of its state, whether it fails or not. -/
def stateAfter {ε S : Type} : EStateM.Result ε S α → S
  | .ok _ s => s
  | .error _ s => s

theorem StoreM.funcs_onMemory (addr : Nat) (x : EStateM Trap Memory α) (s : Store σ) :
    (stateAfter (StoreM.onMemory addr x s)).funcs = s.funcs := by
  rcases Nat.lt_or_ge addr s.memories.size with lt | le
  · rw [StoreM.onMemory_of_lt lt]
    cases x s.memories[addr] <;> rfl
  · rw [StoreM.onMemory_of_le le]
    rfl

theorem StoreM.funcs_onTable (addr : Nat) (x : EStateM Trap Table α) (s : Store σ) :
    (stateAfter (StoreM.onTable addr x s)).funcs = s.funcs := by
  rcases Nat.lt_or_ge addr s.tables.size with lt | le
  · rw [StoreM.onTable_of_lt lt]
    cases x s.tables[addr] <;> rfl
  · rw [StoreM.onTable_of_le le]
    rfl

/-- The operations of the store leave the functions alone. -/
theorem StoreM.Op.funcs_eq {x : StoreM σ α} (op : StoreM.Op x) (s : Store σ) :
    (stateAfter (x s)).funcs = s.funcs := by
  cases op with
  | gets =>
    unfold StoreM.gets
    split <;> rfl
  | setGlobal addr v =>
    unfold StoreM.setGlobal
    split <;> rfl
  | dropElem addr => rfl
  | dropData addr => rfl
  | onTable addr op => exact StoreM.funcs_onTable addr _ s
  | onMemory addr op => exact StoreM.funcs_onMemory addr _ s

/-! ### Operations that fail -/

@[simp] theorem Table.read_unchanged (pos count : Nat) (t : Table) :
    stateAfter (Table.read pos count t) = t := by
  unfold Table.read
  split <;> rfl

@[simp] theorem Memory.read_unchanged (pos count : Nat) (m : Memory) :
    stateAfter (Memory.read pos count m) = m := by
  unfold Memory.read
  split <;> rfl

section Failing

variable {t : Trap}

/-- A range that does not fit traps, and the table is what it was. -/
theorem Table.read_of_error {pos count : Nat} {s s' : Table}
    (run : Table.read pos count s = .error t s') : t = .tableBounds ∧ s' = s := by
  unfold Table.read at run
  split at run <;> cases run
  exact ⟨rfl, rfl⟩

theorem Table.write_of_error {pos : Nat} {vs : List Value} {s s' : Table}
    (run : Table.write pos vs s = .error t s') : t = .tableBounds ∧ s' = s := by
  unfold Table.write at run
  split at run <;> cases run
  exact ⟨rfl, rfl⟩

/-- An operation on a table that fails has written nothing, however much of its range is there. -/
theorem Table.Op.of_error {x : EStateM Trap Table α} (op : Table.Op x) {s s' : Table}
    (run : x s = .error t s') : t = .tableBounds ∧ s' = s := by
  cases op with
  | look f => cases run
  | grow delta v =>
    unfold Table.grow at run
    dsimp only at run
    split at run <;> cases run
  | set idx v =>
    unfold Table.set at run
    split at run <;> cases run
    exact ⟨rfl, rfl⟩
  | read pos count => exact Table.read_of_error run
  | write pos vs => exact Table.write_of_error run
  | fill pos v count =>
    unfold Table.fill at run
    split at run
    · exact Table.write_of_error run
    · cases run
      exact ⟨rfl, rfl⟩
  | copy dst src count =>
    have kept := Table.read_unchanged src count s
    unfold Table.copy at run
    split at run
    · change EStateM.bind (Table.read src count) (Table.write dst) s = _ at run
      unfold EStateM.bind at run
      split at run
      · next ran =>
        rw [ran] at kept
        cases (kept : _ = s)
        exact Table.write_of_error run
      · next failed =>
        cases run
        exact Table.read_of_error failed
    · cases run
      exact ⟨rfl, rfl⟩

theorem Memory.read_of_error {pos count : Nat} {s s' : Memory}
    (run : Memory.read pos count s = .error t s') : t = .memoryBounds ∧ s' = s := by
  unfold Memory.read at run
  split at run <;> cases run
  exact ⟨rfl, rfl⟩

theorem Memory.write_of_error {pos : Nat} {bs : List UInt8} {s s' : Memory}
    (run : Memory.write pos bs s = .error t s') : t = .memoryBounds ∧ s' = s := by
  unfold Memory.write at run
  split at run <;> cases run
  exact ⟨rfl, rfl⟩

/-- An operation on a memory that fails has written nothing, however much of its range is
there. -/
theorem Memory.Op.of_error {x : EStateM Trap Memory α} (op : Memory.Op x) {s s' : Memory}
    (run : x s = .error t s') : t = .memoryBounds ∧ s' = s := by
  cases op with
  | look f => cases run
  | grow delta =>
    unfold Memory.grow at run
    dsimp only at run
    split at run <;> cases run
  | read pos count => exact Memory.read_of_error run
  | write pos bs => exact Memory.write_of_error run
  | fill v pos count =>
    unfold Memory.fill at run
    split at run
    · exact Memory.write_of_error run
    · cases run
      exact ⟨rfl, rfl⟩
  | copy dst src count =>
    have kept := Memory.read_unchanged src count s
    unfold Memory.copy at run
    split at run
    · change EStateM.bind (Memory.read src count) (Memory.write dst) s = _ at run
      unfold EStateM.bind at run
      split at run
      · next ran =>
        rw [ran] at kept
        cases (kept : _ = s)
        exact Memory.write_of_error run
      · next failed =>
        cases run
        exact Memory.read_of_error failed
    · cases run
      exact ⟨rfl, rfl⟩

/-- An operation on the store that fails has changed nothing, and does not fail for want of a
label. -/
theorem StoreM.Op.of_error {x : StoreM σ α} (op : StoreM.Op x) {s s' : Store σ}
    (run : x s = .error t s') : t.isControl = false ∧ s' = s := by
  cases op with
  | gets plain =>
    unfold StoreM.gets at run
    split at run
    · cases run
    · next failed =>
      cases run
      exact ⟨plain s t failed, rfl⟩
  | setGlobal addr v =>
    unfold StoreM.setGlobal at run
    split at run <;> cases run
    exact ⟨rfl, rfl⟩
  | dropElem addr => cases run
  | dropData addr => cases run
  | onTable addr op =>
    rcases Nat.lt_or_ge addr s.tables.size with there | absent
    · rw [StoreM.onTable_of_lt there] at run
      split at run
      · cases run
      · next failed =>
        cases run
        obtain ⟨rfl, rfl⟩ := op.of_error failed
        exact ⟨rfl, by rw [Array.set_getElem_self]⟩
    · rw [StoreM.onTable_of_le absent] at run
      cases run
      exact ⟨rfl, rfl⟩
  | onMemory addr op =>
    rcases Nat.lt_or_ge addr s.memories.size with there | absent
    · rw [StoreM.onMemory_of_lt there] at run
      split at run
      · cases run
      · next failed =>
        cases run
        obtain ⟨rfl, rfl⟩ := op.of_error failed
        exact ⟨rfl, by rw [Array.set_getElem_self]⟩
    · rw [StoreM.onMemory_of_le absent] at run
      cases run
      exact ⟨rfl, rfl⟩

end Failing

namespace StoreM.Op

theorem getGlobal (addr : Nat) : Op (StoreM.getGlobal addr : StoreM σ Value) := by
  refine .gets fun s => ?_
  split
  · exact .ok _
  · exact .error rfl

theorem getFunc (addr : Nat) : Op (StoreM.getFunc addr : StoreM σ (StoreFunc σ)) := by
  refine .gets fun s => ?_
  split
  · exact .ok _
  · exact .error rfl

theorem checkMemory (addr : Nat) : Op (StoreM.checkMemory addr : StoreM σ Unit) := by
  refine .gets fun s => ?_
  split
  · exact .ok _
  · exact .error rfl

theorem checkTable (addr : Nat) : Op (StoreM.checkTable addr : StoreM σ Unit) := by
  refine .gets fun s => ?_
  split
  · exact .ok _
  · exact .error rfl

end StoreM.Op

/-! ## Numeric instructions -/

/-- Arithmetic traps for zero divisors and for overflow only. -/
theorem IntBinary.eval_plain {n : Nat} (a b : BitVec n) (op : IntBinary) :
    Except.Plain (op.eval a b) := by
  cases op with
  | div sign =>
    cases sign with
    | signed => exact .ite (.error rfl) (.ite (.error rfl) (.ok _))
    | unsigned => exact .ite (.error rfl) (.ok _)
  | rem sign => cases sign <;> exact .ite (.error rfl) (.ok _)
  | shr sign => cases sign <;> exact .ok _
  | _ => exact .ok _

theorem FloatBits.truncate_plain {w : Width} (n : Nat) (sign : Sign) (x : FloatBits w) :
    Except.Plain (FloatBits.truncate n sign x) := by
  unfold FloatBits.truncate
  exact .ite (.error rfl) (.ite (.ok _) (.error rfl))

/-- A numeric instruction raises no trap of control. -/
def NumericFunc.Plain : NumericFunc → Prop
  | .unary f => ∀ a, Except.Plain (f a)
  | .binary f => ∀ a b, Except.Plain (f a b)

/-- No numeric instruction raises a trap of control. -/
theorem NumericOp.func_plain (op : NumericOp) : op.func.Plain := by
  cases op with
  | intBinary w op => exact fun a b => (IntBinary.eval_plain _ _ op).map _
  | truncate dest source sign => exact fun a => (FloatBits.truncate_plain _ sign _).map _
  | intCompare | floatCompare | floatBinary => exact fun a b => .ok _
  | _ => exact fun a => .ok _

/-! ## Plain acts -/

/-- Acts put together from operations on operands, locals and the store. -/
inductive Act.Plain : {α : Type} → Act σ α → Prop
  | pure {α : Type} (a : α) : Act.Plain (Pure.pure a)
  | throw {α : Type} {t : Trap} : t.isControl = false → Act.Plain (MonadExcept.throw t : Act σ α)
  | bind {α β : Type} {x : Act σ α} {k : α → Act σ β} :
    Act.Plain x → (∀ a, Act.Plain (k a)) → Act.Plain (x >>= k)
  | ofExcept {α : Type} {r : Except Trap α} : Except.Plain r → Act.Plain (Act.ofExcept r)
  | push (v : Value) : Act.Plain (Act.onFrame (FrameM.push v))
  | pop : Act.Plain (Act.onFrame FrameM.pop)
  | peek : Act.Plain (Act.onFrame FrameM.peek)
  | getLocal (idx : Nat) : Act.Plain (Act.onFrame (FrameM.getLocal idx))
  | setLocal (idx : Nat) (v : Value) : Act.Plain (Act.onFrame (FrameM.setLocal idx v))
  | onStore {α : Type} {x : StoreM σ α} : StoreM.Op x → Act.Plain (Act.onStore x)

namespace Act.Plain

variable {inst : Instance}

theorem addrOf (space : IndexSpace) (addrs : Array Nat) (idx : UInt32) :
    (Act.ofExcept (Instance.addrOf space addrs idx) : Act σ Nat).Plain :=
  .ofExcept (Instance.addrOf_plain space addrs idx)

theorem memAddr (idx : MemIdx) : (Act.ofExcept (inst.memAddr idx) : Act σ Nat).Plain :=
  .ofExcept (inst.memAddr_plain idx)

theorem funcType (idx : TypeIdx) : (Act.ofExcept (inst.funcType idx) : Act σ FuncType).Plain :=
  .ofExcept (inst.funcType_plain idx)

/-- A number on top is an operand like any other. -/
theorem popNat : Act.Plain (Act.onFrame FrameM.popNat : Act σ Nat) := by
  have split : (Act.onFrame FrameM.popNat : Act σ Nat)
      = Act.onFrame FrameM.pop >>= fun v => Pure.pure v.u32.toNat := by
    funext ⟨f, s⟩
    simp only [Act.onFrame, FrameM.popNat, Bind.bind, EStateM.bind]
    cases FrameM.pop f <;> rfl
  rw [split]
  exact .bind .pop fun v => .pure _

theorem onTable (addr : Nat) {x : EStateM Trap Table α} (op : Table.Op x) :
    (Act.onTable addr x : Act σ α).Plain :=
  .onStore (.onTable addr op)

theorem onMemory (addr : Nat) {x : EStateM Trap Memory α} (op : Memory.Op x) :
    (Act.onMemory addr x : Act σ α).Plain :=
  .onStore (.onMemory addr op)

theorem table (idx : TableIdx) : (Act.table inst idx : Act σ Nat).Plain :=
  .bind (.addrOf _ _ _) fun _ => .bind (.onStore (.checkTable _)) fun _ => .pure _

theorem memory (idx : MemIdx) : (Act.memory inst idx : Act σ Nat).Plain :=
  .bind (.memAddr _) fun _ => .bind (.onStore (.checkMemory _)) fun _ => .pure _

theorem popAddr (arg : MemArg) : (Act.popAddr arg : Act σ Nat).Plain :=
  .bind .popNat fun _ => .pure _

theorem read (pos count : Nat) : (Act.read inst pos count : Act σ (List UInt8)).Plain :=
  .bind (.memAddr _) fun _ => .onMemory _ (.read _ _)

theorem write (pos : Nat) (bs : List UInt8) : (Act.write inst pos bs : Act σ Unit).Plain :=
  .bind (.memAddr _) fun _ => .onMemory _ (.write _ _)

theorem popBulk : (Act.popBulk : Act σ Act.Bulk).Plain :=
  .bind .popNat fun _ => .bind .popNat fun _ => .bind .popNat fun _ => .pure _

theorem bitwise (f : UInt64 → UInt64 → UInt64) : (Act.bitwise f : Act σ Unit).Plain :=
  .bind .pop fun _ => .bind .pop fun _ => .push _

theorem numeric (op : NumericOp) : (Act.numeric op : Act σ Unit).Plain := by
  have plain := op.func_plain
  unfold Act.numeric
  cases func : op.func with
  | unary f =>
    rw [func] at plain
    exact .bind .pop fun a => .bind (.ofExcept (plain a)) fun _ => .push _
  | binary f =>
    rw [func] at plain
    exact .bind .pop fun b => .bind .pop fun a => .bind (.ofExcept (plain a b)) fun _ => .push _

/-- A vector instruction reads and writes memory, and computes; nothing else is done by
those that there are. -/
theorem vector (op : UInt32) (imm : VectorImm) : (Act.vector inst op imm : Act σ Unit).Plain := by
  unfold Act.vector
  split
  · exact .bind (.popAddr _) fun _ => .bind (.read _ _) fun _ => .push _
  · exact .bind .pop fun _ => .bind (.popAddr _) fun _ => .write _ _
  · exact .push _
  · exact .bind .pop fun _ => .push _
  · exact .bind .pop fun _ => .push _
  · exact .bind .pop fun _ => .push _
  · exact .bitwise _
  · exact .bitwise _
  · exact .bitwise _
  · exact .bitwise _
  · exact .throw rfl

/-- Finding the function of an indirect call takes a table, a slot and a type. That it is called
is left to the machine. -/
theorem indirect (type : TypeIdx) (table : TableIdx) :
    (Act.indirect inst type table : Act σ Nat).Plain := by
  refine .bind (.funcType _) fun expected => .bind (.table _) fun addr =>
    .bind .popNat fun slot =>
    .bind (.onTable _ (.look fun t => t.get? slot)) fun found => ?_
  cases found with
  | none => exact .throw rfl
  | some v =>
    dsimp only
    split
    · exact .throw rfl
    · refine .bind (.onStore (.getFunc _)) fun func => ?_
      split
      · exact .bind (.throw rfl) fun _ => .pure _
      · exact .pure _

theorem tableCopy (dst src : TableIdx) : (Act.tableCopy inst dst src : Act σ Unit).Plain := by
  refine .bind .popBulk fun b => .bind (.addrOf _ _ _) fun dstAddr =>
    .bind (.addrOf _ _ _) fun srcAddr => ?_
  split
  · exact .onTable _ (.copy _ _ _)
  · exact .bind (.onTable _ (.read _ _)) fun _ => .onTable _ (.write _ _)

theorem tableInit (segment : ElemIdx) (table : TableIdx) :
    (Act.tableInit inst segment table : Act σ Unit).Plain := by
  refine .bind .popBulk fun b => .bind (.addrOf _ _ _) fun addr =>
    .bind (.onStore (.gets fun s => ?_)) fun _ =>
      .bind (.addrOf _ _ _) fun _ => .onTable _ (.write _ _)
  cases s.elems[addr]? with
  | none => exact .error rfl
  | some e =>
    cases e with
    | none => exact .error rfl
    | some e =>
      dsimp only
      split
      · exact .ok _
      · exact .error rfl

theorem memoryInit (segment : DataIdx) (mem : MemIdx) :
    (Act.memoryInit inst segment mem : Act σ Unit).Plain := by
  refine .bind .popBulk fun b => .bind (.memAddr _) fun _ => .bind (.addrOf _ _ _) fun addr =>
    .bind (.onStore (.gets fun s => ?_)) fun _ => .onMemory _ (.write _ _)
  cases s.datas[addr]? with
  | none => exact .error rfl
  | some d =>
    cases d with
    | none => exact .error rfl
    | some d =>
      dsimp only
      split
      · exact .ok _
      · exact .error rfl

/-- A plain act that is followed by the next instruction. -/
theorem next {x : Act σ α} (plain : x.Plain) :
    (do let _ ← x; return Flow.next : Act σ Flow).Plain :=
  .bind plain fun _ => .pure _

end Act.Plain

/-- An instruction that is not a control instruction is plain. -/
theorem Instr.exec_plain (inst : Instance) {i : Instr} (plain : i.isControl = false) :
    (i.exec inst : Act σ Flow).Plain := by
  cases i with
  | block | loop | ifThen | elseArm | endOf | br | brIf | brTable | ret => cases plain
  | unreachable => exact .throw rfl
  | nop => exact .pure _
  | call f => exact .bind (.addrOf _ _ _) fun _ => .pure _
  | callIndirect type table => exact .bind (.indirect _ _) fun _ => .pure _
  | refNull type => exact .next (.push _)
  | refIsNull => exact .bind .pop fun _ => .next (.push _)
  | refFunc f => exact .bind (.addrOf _ _ _) fun _ => .next (.push _)
  | drop => exact .next .pop
  | select => exact .bind .popNat fun _ => .bind .pop fun _ => .bind .pop fun _ => .next (.push _)
  | selectTyped types =>
    exact .bind .popNat fun _ => .bind .pop fun _ => .bind .pop fun _ => .next (.push _)
  | localGet i => exact .bind (.getLocal _) fun _ => .next (.push _)
  | localSet i => exact .bind .pop fun _ => .next (.setLocal _ _)
  | localTee i => exact .bind .peek fun _ => .next (.setLocal _ _)
  | globalGet i =>
    exact .bind (.addrOf _ _ _) fun _ => .bind (.onStore (.getGlobal _)) fun _ => .next (.push _)
  | globalSet i =>
    exact .bind (.addrOf _ _ _) fun _ => .bind .pop fun _ => .next (.onStore (.setGlobal _ _))
  | tableGet t =>
    refine .bind (.table _) fun addr => .bind .popNat fun slot =>
      .bind (.onTable _ (.look fun t => t.get? slot)) fun found => ?_
    cases found with
    | none => exact .next (.throw rfl)
    | some v => exact .next (.push _)
  | tableSet t =>
    exact .bind (.table _) fun _ => .bind .pop fun _ => .bind .popNat fun _ =>
      .next (.onTable _ (.set _ _))
  | tableInit segment t => exact .next (.tableInit _ _)
  | elemDrop segment => exact .bind (.addrOf _ _ _) fun _ => .next (.onStore (.dropElem _))
  | tableCopy dst src => exact .next (.tableCopy _ _)
  | tableGrow t =>
    exact .bind (.table _) fun _ => .bind .popNat fun _ => .bind .pop fun _ =>
      .bind (.onTable _ (.grow _ _)) fun _ => .next (.push _)
  | tableSize t =>
    exact .bind (.table _) fun _ => .bind (.onTable _ (.look Table.size)) fun _ => .next (.push _)
  | tableFill t =>
    exact .bind (.table _) fun _ => .bind .popNat fun _ => .bind .pop fun _ =>
      .bind .popNat fun _ =>
      .next (.onTable _ (.fill _ _ _))
  | load op arg => exact .bind (.popAddr _) fun _ => .bind (.read _ _) fun _ => .next (.push _)
  | store op arg => exact .bind .pop fun _ => .bind (.popAddr _) fun _ => .next (.write _ _)
  | memorySize m =>
    exact .bind (.memory _) fun _ => .bind (.onMemory _ (.look Memory.pages)) fun _ =>
      .next (.push _)
  | memoryGrow m =>
    exact .bind (.memory _) fun _ => .bind .popNat fun _ => .bind (.onMemory _ (.grow _)) fun _ =>
      .next (.push _)
  | memoryInit segment m => exact .next (.memoryInit _ _)
  | dataDrop segment => exact .bind (.addrOf _ _ _) fun _ => .next (.onStore (.dropData _))
  | memoryCopy dst src =>
    exact .bind (.memAddr _) fun _ => .bind (.memory _) fun _ => .bind .popBulk fun _ =>
      .next (.onMemory _ (.copy _ _ _))
  | memoryFill m =>
    exact .bind (.memory _) fun _ => .bind .popNat fun _ => .bind .pop fun _ =>
      .bind .popNat fun _ =>
      .next (.onMemory _ (.fill _ _ _))
  | i32Const v => exact .next (.push _)
  | i64Const v => exact .next (.push _)
  | f32Const v => exact .next (.push _)
  | f64Const v => exact .next (.push _)
  | numeric op => exact .next (.numeric _)
  | vector op imm => exact .next (.vector _ _)

/-! ## Where an instruction goes on -/

/-- An act that can only ask for the next instruction. -/
def Act.GoesOn (x : Act σ Flow) : Prop :=
  ∀ a b flow, x a = .ok flow b → flow = .next

theorem Act.GoesOn.pure : (Pure.pure Flow.next : Act σ Flow).GoesOn := by
  intro a b flow run
  cases run
  rfl

theorem Act.GoesOn.throw (t : Trap) : (MonadExcept.throw t : Act σ Flow).GoesOn := by
  intro a b flow run
  cases run

/-- It is the last part of an action that decides how it goes on. -/
theorem Act.GoesOn.bind {x : Act σ α} {k : α → Act σ Flow} (tail : ∀ v, (k v).GoesOn) :
    (x >>= k).GoesOn := by
  intro a b flow run
  change EStateM.bind x k a = _ at run
  unfold EStateM.bind at run
  split at run
  · exact tail _ _ _ _ run
  · cases run

/-- An instruction that is not a call goes on to the next one. -/
theorem Instr.exec_next (inst : Instance) {i : Instr} (noCall : i.isCall = false)
    {a b : Activation σ} {flow : Flow} (run : i.exec inst a = .ok flow b) : flow = .next := by
  have goesOn : (i.exec inst : Act σ Flow).GoesOn := by
    cases i with
    | call | callIndirect => cases noCall
    | _ =>
      unfold Instr.exec
      dsimp only
      repeat' first
        | exact Act.GoesOn.pure
        | exact Act.GoesOn.throw _
        | refine Act.GoesOn.bind fun _ => ?_
        | split
  exact goesOn a b flow run

/-! ## What a plain act sees -/

/-- The part of an activation that plain acts see. -/
structure Workspace (σ : Type) where
  locals : Array Value
  stack : Array Value
  store : Store σ

/-- Work in a frame. -/
def Workspace.inFrame (w : Workspace σ) (f : Frame) : Activation σ :=
  ⟨{ f with locals := w.locals, stack := w.stack }, w.store⟩

/-- The workspace of an activation. -/
def Activation.workspace (a : Activation σ) : Workspace σ :=
  ⟨a.frame.locals, a.frame.stack, a.store⟩

/-- Apply a function to the state that an operation leaves. -/
def mapState {ε S T : Type} (g : S → T) : EStateM.Result ε S α → EStateM.Result ε T α
  | .ok x s => .ok x (g s)
  | .error e s => .error e (g s)

/-- An act on a workspace alone, carried out in an empty frame. -/
def Act.onWorkspace (x : Act σ α) : EStateM Trap (Workspace σ) α := fun w =>
  mapState Activation.workspace (x (w.inFrame (.entry 0 #[])))

/-- An act whose effect in any frame is its effect on the workspace. -/
def Act.Operandwise (x : Act σ α) : Prop :=
  ∀ f w, x (w.inFrame f) = mapState (·.inFrame f) (x.onWorkspace w)

/-- What sees nothing of a frame but its operands and locals may be put together. -/
theorem Act.Operandwise.bind {x : Act σ α} {k : α → Act σ β} (head : x.Operandwise)
    (tail : ∀ v, (k v).Operandwise) : (x >>= k).Operandwise := by
  intro f w
  have onFrame : ∀ g, (x >>= k) (w.inFrame g) = match x.onWorkspace w with
      | .ok v w => mapState (·.inFrame g) ((k v).onWorkspace w)
      | .error t w => .error t (w.inFrame g) := by
    intro g
    change EStateM.bind x k _ = _
    unfold EStateM.bind
    rw [head]
    cases x.onWorkspace w with
    | ok v w => exact tail v g w
    | error t w => rfl
  have alone : (x >>= k).onWorkspace w
      = mapState Activation.workspace ((x >>= k) (w.inFrame (.entry 0 #[]))) := rfl
  rw [alone, onFrame, onFrame]
  cases x.onWorkspace w with
  | ok v w =>
    dsimp only
    cases (k v).onWorkspace w <;> rfl
  | error t w => rfl

/-- Plain actions see nothing of their frame but its operands and locals, so that they do the same
in any other one. -/
theorem Act.Plain.operandwise {x : Act σ α} (plain : x.Plain) : x.Operandwise := by
  induction plain with
  | pure a => exact fun _ _ => rfl
  | throw => exact fun _ _ => rfl
  | bind _ _ head tail => exact .bind head tail
  | @ofExcept _ r _ => cases r <;> exact fun _ _ => rfl
  | push v => exact fun _ _ => rfl
  | pop =>
    intro f w
    by_cases some : 0 < w.stack.size <;>
      simp [Act.onFrame, FrameM.pop, Act.onWorkspace, Workspace.inFrame, some, mapState,
        Activation.workspace]
  | peek =>
    intro f w
    by_cases some : 0 < w.stack.size <;>
      simp [Act.onFrame, FrameM.peek, Act.onWorkspace, Workspace.inFrame, some, mapState,
        Activation.workspace]
  | getLocal idx =>
    intro f w
    cases found : w.locals[idx]? <;>
      simp [Act.onFrame, FrameM.getLocal, Act.onWorkspace, Workspace.inFrame, found, mapState,
        Activation.workspace]
  | setLocal idx v =>
    intro f w
    by_cases found : idx < w.locals.size <;>
      simp [Act.onFrame, FrameM.setLocal, Act.onWorkspace, Workspace.inFrame, found, mapState,
        Activation.workspace]
  | onStore =>
    intro f w
    simp only [Act.onStore, Workspace.inFrame, Act.onWorkspace]
    split <;> rfl

/-- A plain act changes the workspace of its frame and nothing else of it. -/
theorem Act.Plain.after_eq_inFrame {x : Act σ α} (plain : x.Plain) (a : Activation σ) :
    stateAfter (x a) = (stateAfter (x.onWorkspace a.workspace)).inFrame a.frame := by
  have effect : x a = mapState (·.inFrame a.frame) (x.onWorkspace a.workspace) :=
    plain.operandwise a.frame a.workspace
  rw [effect]
  cases x.onWorkspace a.workspace <;> rfl

/-- A plain act raises no trap of control. -/
theorem Act.Plain.trap_plain {x : Act σ α} (plain : x.Plain) {a b : Activation σ} {t : Trap}
    (run : x a = .error t b) : t.isControl = false := by
  induction plain generalizing a b with
  | pure | push => cases run
  | throw other =>
    cases run
    exact other
  | @bind _ _ x k _ _ head tail =>
    change EStateM.bind x k a = _ at run
    unfold EStateM.bind at run
    split at run
    · exact tail _ run
    · next first =>
      cases run
      exact head first
  | @ofExcept _ r other =>
    cases r with
    | ok v => cases run
    | error t' =>
      cases run
      exact other t rfl
  | pop =>
    simp only [Act.onFrame, FrameM.pop] at run
    by_cases some : 0 < a.frame.stack.size <;> simp [some] at run
    rw [← run.1]
    rfl
  | peek =>
    simp only [Act.onFrame, FrameM.peek] at run
    by_cases some : 0 < a.frame.stack.size <;> simp [some] at run
    rw [← run.1]
    rfl
  | getLocal idx =>
    simp only [Act.onFrame, FrameM.getLocal] at run
    cases found : a.frame.locals[idx]? <;> simp [found] at run
    rw [← run.1]
    rfl
  | setLocal idx =>
    simp only [Act.onFrame, FrameM.setLocal] at run
    by_cases found : idx < a.frame.locals.size <;> simp [found] at run
    rw [← run.1]
    rfl
  | @onStore _ x op =>
    simp only [Act.onStore] at run
    split at run
    · cases run
    · next failed =>
      cases run
      exact (op.of_error failed).1

/-- A plain act leaves the functions of the store alone. -/
theorem Act.Plain.funcs_eq {x : Act σ α} (plain : x.Plain) (a : Activation σ) :
    (stateAfter (x a)).store.funcs = a.store.funcs := by
  induction plain generalizing a with
  | pure | throw | push => rfl
  | @bind _ _ x k _ _ head tail =>
    have first := head a
    change (stateAfter (EStateM.bind x k a)).store.funcs = _
    unfold EStateM.bind
    cases result : x a with
    | ok v b =>
      rw [result] at first
      exact (tail v b).trans first
    | error t b =>
      rw [result] at first
      exact first
  | @ofExcept _ r _ => cases r <;> rfl
  | pop =>
    simp only [Act.onFrame, FrameM.pop]
    by_cases some : 0 < a.frame.stack.size <;> simp [some, stateAfter]
  | peek =>
    simp only [Act.onFrame, FrameM.peek]
    by_cases some : 0 < a.frame.stack.size <;> simp [some, stateAfter]
  | getLocal idx =>
    simp only [Act.onFrame, FrameM.getLocal]
    cases found : a.frame.locals[idx]? <;> simp [stateAfter]
  | setLocal idx v =>
    simp only [Act.onFrame, FrameM.setLocal]
    by_cases found : idx < a.frame.locals.size <;> simp [found, stateAfter]
  | @onStore _ x op =>
    have kept := op.funcs_eq a.store
    simp only [Act.onStore]
    cases result : x a.store <;> rw [result] at kept <;> exact kept

end WasmMachine
