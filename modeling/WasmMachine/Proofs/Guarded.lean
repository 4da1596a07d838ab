import WasmMachine.Proofs.Ranges

/-!
# Instructions that trap

An instruction does all that can fail before its first write.  Its acts are therefore of two
kinds: those that only look around and move operands and labels (`Act.Looks`), and those that may
write, but not if they fail (`Act.Guarded`).  A guarded act is a sequence of looks with one write
at its end, behind which nothing can fail; every instruction is one (`Instr.exec_guarded`).

* `Run.dispatch_guarded`: an instruction that traps leaves the machine as it was, up to the
  position, operands and labels of its frame, and no instruction touches another frame.
* `Instr.Overruns.traps`: an instruction that would leave the bounds of a memory, a table or a
  segment traps, however much of its range is within them.
-/

namespace WasmMachine

variable {σ α β : Type}

/-! ## Operations that change nothing -/

namespace StoreM

/-- An operation that leaves its table as it is leaves the store as it is. -/
theorem onTable_unchanged (addr : Nat) {x : EStateM Trap Table α} {s : Store σ}
    (kept : ∀ t, stateAfter (x t) = t) : stateAfter (onTable addr x s) = s := by
  rcases Nat.lt_or_ge addr s.tables.size with there | absent
  · have same := kept s.tables[addr]
    rw [onTable_of_lt there]
    cases ran : x s.tables[addr] <;> rw [ran] at same <;>
      simp only [stateAfter] at same ⊢ <;> rw [same, Array.set_getElem_self]
  · rw [onTable_of_le absent]
    rfl

theorem onMemory_unchanged (addr : Nat) {x : EStateM Trap Memory α} {s : Store σ}
    (kept : ∀ m, stateAfter (x m) = m) : stateAfter (onMemory addr x s) = s := by
  rcases Nat.lt_or_ge addr s.memories.size with there | absent
  · have same := kept s.memories[addr]
    rw [onMemory_of_lt there]
    cases ran : x s.memories[addr] <;> rw [ran] at same <;>
      simp only [stateAfter] at same ⊢ <;> rw [same, Array.set_getElem_self]
  · rw [onMemory_of_le absent]
    rfl

end StoreM

/-! ## Looking and writing -/

/-- An activation with the same store and the same locals. -/
structure Activation.Intact (a b : Activation σ) : Prop where
  store : b.store = a.store
  locals : b.frame.locals = a.frame.locals

theorem Activation.Intact.refl (a : Activation σ) : a.Intact a := ⟨rfl, rfl⟩

/-- What is intact after both is so after the first. -/
theorem Activation.Intact.trans {a b c : Activation σ} (first : a.Intact b)
    (second : b.Intact c) :
    a.Intact c :=
  ⟨second.store.trans first.store, second.locals.trans first.locals⟩

namespace Act

/-- An act that writes neither to the store nor to the locals. -/
def Looks (x : Act σ α) : Prop := ∀ a : Activation σ, a.Intact (stateAfter (x a))

/-- An act that has written neither to the store nor to the locals if it fails. -/
def Guarded (x : Act σ α) : Prop :=
  ∀ ⦃a : Activation σ⦄ ⦃t : Trap⦄ ⦃b : Activation σ⦄, x a = .error t b → a.Intact b

/-- An act that cannot fail. -/
def Sure (x : Act σ α) : Prop := ∀ a, ∃ v b, x a = .ok v b

/-- An action that only looks is guarded, since it changes nothing even if it succeeds. -/
theorem Looks.guarded {x : Act σ α} (looks : x.Looks) : x.Guarded := by
  intro a t b run
  have kept := looks a
  rwa [run] at kept

namespace Looks

theorem pure (a : α) : (Pure.pure a : Act σ α).Looks := fun a => .refl a

theorem throw (t : Trap) : (MonadExcept.throw t : Act σ α).Looks := fun a => .refl a

/-- Looking at one thing after the other. -/
theorem bind {x : Act σ α} {k : α → Act σ β} (first : x.Looks) (next : ∀ v, (k v).Looks) :
    (x >>= k).Looks := by
  intro a
  have kept := first a
  rw [bind_apply]
  cases ran : x a with
  | ok v b =>
    rw [ran] at kept
    exact kept.trans (next v b)
  | error t b =>
    rw [ran] at kept
    exact kept

theorem ofExcept (r : Except Trap α) : (Act.ofExcept r : Act σ α).Looks := by
  intro a
  cases r <;> exact .refl a

/-- An act on the frame that leaves its locals alone. -/
theorem onFrame {x : FrameM α} (kept : ∀ f, (stateAfter (x f)).locals = f.locals) :
    (Act.onFrame x : Act σ α).Looks := by
  intro a
  have locals := kept a.frame
  simp only [Act.onFrame]
  cases ran : x a.frame <;> rw [ran] at locals <;> exact ⟨rfl, locals⟩

/-- An act on the store that leaves it alone. -/
theorem onStore {x : StoreM σ α} (kept : ∀ s, stateAfter (x s) = s) : (Act.onStore x).Looks := by
  intro a
  have store := kept a.store
  simp only [Act.onStore]
  cases ran : x a.store <;> rw [ran] at store <;> exact ⟨store, rfl⟩

theorem push (v : Value) : (Act.onFrame (FrameM.push v) : Act σ Unit).Looks :=
  onFrame fun _ => rfl

/-- Popping changes the stack, which may be changed by an instruction that traps. -/
theorem pop : (Act.onFrame FrameM.pop : Act σ Value).Looks := onFrame fun f => by
  rw [FrameM.pop_eq]
  cases f.stack.back? <;> rfl

theorem popNat : (Act.onFrame FrameM.popNat : Act σ Nat).Looks := onFrame fun f => by
  rw [FrameM.popNat_eq]
  cases f.stack.back? <;> rfl

theorem peek : (Act.onFrame FrameM.peek : Act σ Value).Looks := onFrame fun f => by
  unfold FrameM.peek
  split <;> rfl

theorem getLocal (idx : Nat) : (Act.onFrame (FrameM.getLocal idx) : Act σ Value).Looks :=
  onFrame fun f => by
    unfold FrameM.getLocal
    split <;> rfl

theorem pushLabel (arity target params : Nat) :
    (Act.onFrame (FrameM.pushLabel arity target params) : Act σ Unit).Looks := onFrame fun f => by
  unfold FrameM.pushLabel
  split <;> rfl

theorem popLabel : (Act.onFrame FrameM.popLabel : Act σ Unit).Looks := onFrame fun f => by
  unfold FrameM.popLabel
  split <;> rfl

theorem branch (depth : Nat) : (Act.onFrame (FrameM.branch depth) : Act σ Unit).Looks :=
  onFrame fun f => by
    unfold FrameM.branch
    split
    · rfl
    · split <;> rfl

theorem ret : (Act.onFrame FrameM.ret : Act σ Unit).Looks := by
  intro a
  unfold FrameM.ret
  by_cases outside : a.frame.labels.isEmpty
  · simp only [Act.onFrame, outside, if_true]
    exact .refl a
  · have kept := branch (σ := σ) (a.frame.labels.length - 1) a
    simp only [Act.onFrame, outside] at kept ⊢
    exact kept

theorem jump (pc : Nat) : (Act.onFrame (FrameM.jump pc) : Act σ Unit).Looks :=
  onFrame fun _ => rfl

theorem gets (f : Store σ → Except Trap α) : (Act.onStore (StoreM.gets f)).Looks :=
  onStore fun s => by
    unfold StoreM.gets
    split <;> rfl

theorem onTable (addr : Nat) {x : EStateM Trap Table α} (kept : ∀ t, stateAfter (x t) = t) :
    (Act.onTable addr x : Act σ α).Looks :=
  onStore fun _ => StoreM.onTable_unchanged addr kept

theorem onMemory (addr : Nat) {x : EStateM Trap Memory α} (kept : ∀ m, stateAfter (x m) = m) :
    (Act.onMemory addr x : Act σ α).Looks :=
  onStore fun _ => StoreM.onMemory_unchanged addr kept

variable (inst : Instance)

theorem table (idx : TableIdx) : (Act.table inst idx : Act σ Nat).Looks :=
  bind (.ofExcept _) fun _ => bind (.gets _) fun _ => .pure _

theorem memory (idx : MemIdx) : (Act.memory inst idx : Act σ Nat).Looks :=
  bind (.ofExcept _) fun _ => bind (.gets _) fun _ => .pure _

theorem popAddr (arg : MemArg) : (Act.popAddr arg : Act σ Nat).Looks :=
  bind .popNat fun _ => .pure _

theorem read (pos count : Nat) : (Act.read inst pos count : Act σ (List UInt8)).Looks :=
  bind (.ofExcept _) fun _ => onMemory _ (Memory.read_unchanged pos count)

theorem popBulk : (Act.popBulk : Act σ Bulk).Looks :=
  bind .popNat fun _ => bind .popNat fun _ => bind .popNat fun _ => .pure _

theorem bitwise (f : UInt64 → UInt64 → UInt64) : (Act.bitwise f : Act σ Unit).Looks :=
  bind .pop fun _ => bind .pop fun _ => .push _

theorem numeric (op : NumericOp) : (Act.numeric op : Act σ Unit).Looks := by
  unfold Act.numeric
  cases op.func with
  | unary f => exact bind .pop fun a => bind (.ofExcept (f a)) fun _ => .push _
  | binary f =>
    exact bind .pop fun b => bind .pop fun a => bind (.ofExcept (f a b)) fun _ => .push _

/-- An indirect call looks for its function, and changes nothing but operands. -/
theorem indirect (type : TypeIdx) (table : TableIdx) :
    (Act.indirect inst type table : Act σ Nat).Looks := by
  refine bind (.ofExcept _) fun expected => bind (.table inst table) fun addr =>
    bind .popNat fun slot => bind (onTable _ fun _ => rfl) fun found => ?_
  cases found with
  | none => exact .throw _
  | some v =>
    dsimp only
    split
    · exact .throw _
    · refine bind (.gets _) fun func => ?_
      split
      · exact bind (.throw _) fun _ => .pure _
      · exact .pure _

/-- A look that is followed by the next instruction. -/
theorem next {x : Act σ α} (looks : x.Looks) :
    (do let _ ← x; return Flow.next : Act σ Flow).Looks :=
  bind looks fun _ => .pure _

end Looks

namespace Guarded

/-- What is written last is written behind looks alone. -/
theorem bind {x : Act σ α} {k : α → Act σ β} (first : x.Looks) (next : ∀ v, (k v).Guarded) :
    (x >>= k).Guarded := by
  intro a t b run
  have kept := first a
  rw [bind_apply] at run
  cases ran : x a with
  | ok v c =>
    rw [ran] at run kept
    exact kept.trans (next v run)
  | error t c =>
    rw [ran] at run kept
    cases run
    exact kept

/-- Behind a write nothing may fail. -/
theorem andThen {x : Act σ α} {k : α → Act σ β} (write : x.Guarded) (rest : ∀ v, (k v).Sure) :
    (x >>= k).Guarded := by
  intro a t b run
  rw [bind_apply] at run
  cases ran : x a with
  | ok v c =>
    obtain ⟨w, d, sure⟩ := rest v c
    rw [ran] at run
    cases run.symm.trans sure
  | error t c =>
    rw [ran] at run
    cases run
    exact write ran

/-- A write that is followed by the next instruction. -/
theorem next {x : Act σ α} (write : x.Guarded) :
    (do let _ ← x; return Flow.next : Act σ Flow).Guarded :=
  andThen write fun _ a => ⟨_, a, rfl⟩

/-- A write whose result is pushed before the next instruction. -/
theorem pushed {x : Act σ α} (write : x.Guarded) (g : α → Value) :
    (do let v ← x; Act.onFrame (FrameM.push (g v)); return Flow.next : Act σ Flow).Guarded :=
  andThen write fun _ _ => ⟨_, _, rfl⟩

theorem setLocal (idx : Nat) (v : Value) :
    (Act.onFrame (FrameM.setLocal idx v) : Act σ Unit).Guarded := by
  intro a t b run
  simp only [Act.onFrame, FrameM.setLocal] at run
  by_cases there : idx < a.frame.locals.size <;> simp only [there, if_true, if_false] at run <;>
    cases run
  exact .refl a

/-- An operation of the store that fails has changed nothing. -/
theorem onStore {x : StoreM σ α} (op : StoreM.Op x) : (Act.onStore x).Guarded := by
  intro a t b run
  simp only [Act.onStore] at run
  cases ran : x a.store <;> rw [ran] at run <;> cases run
  exact ⟨(op.of_error ran).2, rfl⟩

theorem onTable (addr : Nat) {x : EStateM Trap Table α} (op : Table.Op x) :
    (Act.onTable addr x : Act σ α).Guarded :=
  onStore (.onTable addr op)

theorem onMemory (addr : Nat) {x : EStateM Trap Memory α} (op : Memory.Op x) :
    (Act.onMemory addr x : Act σ α).Guarded :=
  onStore (.onMemory addr op)

variable (inst : Instance)

/-- A write to memory looks at its bounds first. -/
theorem write (pos : Nat) (bs : List UInt8) : (Act.write inst pos bs : Act σ Unit).Guarded :=
  bind (.ofExcept _) fun _ => onMemory _ (.write _ _)

theorem vector (op : UInt32) (imm : VectorImm) :
    (Act.vector inst op imm : Act σ Unit).Guarded := by
  have splat (g : Value → Value) :
      (do let v ← Act.onFrame FrameM.pop; Act.onFrame (FrameM.push (g v)) : Act σ Unit).Looks :=
    .bind .pop fun _ => .push _
  unfold Act.vector
  split
  · exact Looks.guarded (.bind (.popAddr _) fun _ => .bind (.read _ _ _) fun _ => .push _)
  · exact bind .pop fun _ => bind (.popAddr _) fun _ => write _ _ _
  · exact Looks.guarded (.push _)
  · exact (splat _).guarded
  · exact (splat _).guarded
  · exact (splat _).guarded
  · exact (Looks.bitwise _).guarded
  · exact (Looks.bitwise _).guarded
  · exact (Looks.bitwise _).guarded
  · exact (Looks.bitwise _).guarded
  · exact (Looks.throw _).guarded

/-- A copy reads all that it is going to write first. -/
theorem tableCopy (dst src : TableIdx) : (Act.tableCopy inst dst src : Act σ Unit).Guarded := by
  refine bind .popBulk fun b => bind (.ofExcept _) fun dstAddr =>
    bind (.ofExcept _) fun srcAddr => ?_
  split
  · exact onTable _ (.copy _ _ _)
  · exact bind (.onTable _ (Table.read_unchanged _ _)) fun _ => onTable _ (.write _ _)

theorem tableInit (segment : ElemIdx) (table : TableIdx) :
    (Act.tableInit inst segment table : Act σ Unit).Guarded :=
  bind .popBulk fun _ => bind (.ofExcept _) fun _ => bind (.gets _) fun _ =>
    bind (.ofExcept _) fun _ => onTable _ (.write _ _)

theorem memoryInit (segment : DataIdx) (mem : MemIdx) :
    (Act.memoryInit inst segment mem : Act σ Unit).Guarded :=
  bind .popBulk fun _ => bind (.ofExcept _) fun _ => bind (.ofExcept _) fun _ =>
    bind (.gets _) fun _ => onMemory _ (.write _ _)

end Guarded

end Act

/-! ## All instructions -/

open Act in
/-- An instruction that fails has written neither to the store nor to the locals. -/
theorem Instr.exec_guarded (inst : Instance) (i : Instr) :
    (i.exec inst : Act σ Flow).Guarded := by
  cases i with
  | unreachable => exact (Looks.throw _).guarded
  | nop => exact (Looks.pure _).guarded
  | block | loop =>
    exact Looks.guarded (.bind (.ofExcept _) fun _ => .next (.pushLabel _ _ _))
  | ifThen type target elseTarget =>
    refine Looks.guarded (.bind .popNat fun cond => .bind (.ofExcept _) fun arity => ?_)
    dsimp only
    split
    · exact .next (.pushLabel _ _ _)
    · split
      · exact .next (.jump _)
      · exact .bind (.pushLabel _ _ _) fun _ => .next (.jump _)
  | elseArm target => exact Looks.guarded (.bind .popLabel fun _ => .next (.jump _))
  | endOf => exact Looks.guarded (.next .popLabel)
  | br l => exact Looks.guarded (.next (.branch _))
  | brIf l =>
    refine Looks.guarded (.bind .popNat fun cond => ?_)
    split
    · exact .next (.branch _)
    · exact .pure _
  | brTable ls fallback => exact Looks.guarded (.bind .popNat fun _ => .next (.branch _))
  | ret => exact Looks.guarded (.next .ret)
  | call f => exact Looks.guarded (.bind (.ofExcept _) fun _ => .pure _)
  | callIndirect type table => exact Looks.guarded (.bind (.indirect _ _ _) fun _ => .pure _)
  | refNull type => exact Looks.guarded (.next (.push _))
  | refIsNull => exact Looks.guarded (.bind .pop fun _ => .next (.push _))
  | refFunc f => exact Looks.guarded (.bind (.ofExcept _) fun _ => .next (.push _))
  | drop => exact Looks.guarded (.next .pop)
  | select | selectTyped =>
    exact Looks.guarded (.bind .popNat fun _ => .bind .pop fun _ => .bind .pop fun _ =>
      .next (.push _))
  | localGet i => exact Looks.guarded (.bind (.getLocal _) fun _ => .next (.push _))
  | localSet i => exact .bind .pop fun _ => .next (.setLocal _ _)
  | localTee i => exact .bind .peek fun _ => .next (.setLocal _ _)
  | globalGet i =>
    exact Looks.guarded (.bind (.ofExcept _) fun _ => .bind (.gets _) fun _ => .next (.push _))
  | globalSet i =>
    exact .bind (.ofExcept _) fun _ => .bind .pop fun _ => .next (.onStore (.setGlobal _ _))
  | tableGet t =>
    refine Looks.guarded (.bind (.table _ _) fun addr => .bind .popNat fun slot =>
      .bind (.onTable _ fun _ => rfl) fun found => ?_)
    cases found with
    | none => exact .next (.throw _)
    | some v => exact .next (.push _)
  | tableSet t =>
    exact .bind (.table _ _) fun _ => .bind .pop fun _ => .bind .popNat fun _ =>
      .next (.onTable _ (.set _ _))
  | tableInit segment t => exact .next (.tableInit _ _ _)
  | elemDrop segment => exact .bind (.ofExcept _) fun _ => .next (.onStore (.dropElem _))
  | tableCopy dst src => exact .next (.tableCopy _ _ _)
  | tableGrow t =>
    exact .bind (.table _ _) fun _ => .bind .popNat fun _ => .bind .pop fun _ =>
      .pushed (.onTable _ (.grow _ _)) Value.ofI32
  | tableSize t =>
    exact Looks.guarded (.bind (.table _ _) fun _ => .bind (.onTable _ fun _ => rfl) fun _ =>
      .next (.push _))
  | tableFill t =>
    exact .bind (.table _ _) fun _ => .bind .popNat fun _ => .bind .pop fun _ =>
      .bind .popNat fun _ =>
      .next (.onTable _ (.fill _ _ _))
  | load op arg =>
    exact Looks.guarded (.bind (.popAddr _) fun _ => .bind (.read _ _ _) fun _ => .next (.push _))
  | store op arg => exact .bind .pop fun _ => .bind (.popAddr _) fun _ => .next (.write _ _ _)
  | memorySize m =>
    exact Looks.guarded (.bind (.memory _ _) fun _ => .bind (.onMemory _ fun _ => rfl) fun _ =>
      .next (.push _))
  | memoryGrow m =>
    exact .bind (.memory _ _) fun _ => .bind .popNat fun _ =>
      .pushed (.onMemory _ (.grow _)) Value.ofSize
  | memoryInit segment m => exact .next (.memoryInit _ _ _)
  | dataDrop segment => exact .bind (.ofExcept _) fun _ => .next (.onStore (.dropData _))
  | memoryCopy dst src =>
    exact .bind (.ofExcept _) fun _ => .bind (.memory _ _) fun _ => .bind .popBulk fun _ =>
      .next (.onMemory _ (.copy _ _ _))
  | memoryFill m =>
    exact .bind (.memory _ _) fun _ => .bind .popNat fun _ => .bind .pop fun _ =>
      .bind .popNat fun _ =>
      .next (.onMemory _ (.fill _ _ _))
  | i32Const | i64Const | f32Const | f64Const => exact Looks.guarded (.next (.push _))
  | numeric op => exact Looks.guarded (.next (.numeric _))
  | vector op imm => exact .next (.vector _ _ _)

/-! ## Leaving the bounds -/

/-- An instruction that finds its operands, and a memory, table or segment that its range does not
lie within, wherever the range begins. -/
inductive Instr.Overruns (inst : Instance) (s : Store σ) : Instr → Array Value → Prop
  | store {addr : Nat} {mem : Memory} {op : StoreOp} {arg : MemArg} {base : Value}
    (below : Array Value) (v : Value) : inst.memAddr ⟨0⟩ = .ok addr →
    s.memories[addr]? = some mem → mem.size < base.u32.toNat + arg.offset.toNat + op.size →
    Overruns inst s (.store op arg) ((below.push base).push v)
  | vectorStore {addr : Nat} {mem : Memory} {arg : MemArg} {base : Value} (below : Array Value)
    (v : Value) : inst.memAddr ⟨0⟩ = .ok addr → s.memories[addr]? = some mem →
    mem.size < base.u32.toNat + arg.offset.toNat + 16 →
    Overruns inst s (.vector 0x0b (.memArg arg)) ((below.push base).push v)
  | memoryFill {m : MemIdx} {addr : Nat} {mem : Memory} {pos count : Value} (below : Array Value)
    (v : Value) : inst.memAddr m = .ok addr → s.memories[addr]? = some mem →
    mem.size < pos.u32.toNat + count.u32.toNat →
    Overruns inst s (.memoryFill m) (((below.push pos).push v).push count)
  | memoryCopy {dstMem srcMem : MemIdx} {addr source : Nat} {mem : Memory} {dst src count : Value}
    (below : Array Value) : inst.memAddr srcMem = .ok source → inst.memAddr dstMem = .ok addr →
    s.memories[addr]? = some mem →
    mem.size < dst.u32.toNat + count.u32.toNat ∨ mem.size < src.u32.toNat + count.u32.toNat →
    Overruns inst s (.memoryCopy dstMem srcMem) (((below.push dst).push src).push count)
  | memoryInit {segment : DataIdx} {m : MemIdx} {addr source : Nat} {mem : Memory}
    {bytes : List UInt8} {dst src count : Value} (below : Array Value) :
    inst.memAddr m = .ok addr → inst.dataAddr segment = .ok source →
    s.memories[addr]? = some mem → s.datas[source]? = some (some bytes) →
    mem.size < dst.u32.toNat + count.u32.toNat ∨ bytes.length < src.u32.toNat + count.u32.toNat →
    Overruns inst s (.memoryInit segment m) (((below.push dst).push src).push count)
  | tableSet {t : TableIdx} {addr : Nat} {table : Table} {slot : Value} (below : Array Value)
    (v : Value) : inst.tableAddr t = .ok addr → s.tables[addr]? = some table →
    table.size ≤ slot.u32.toNat → Overruns inst s (.tableSet t) ((below.push slot).push v)
  | tableFill {t : TableIdx} {addr : Nat} {table : Table} {pos count : Value}
      (below : Array Value)
    (v : Value) : inst.tableAddr t = .ok addr → s.tables[addr]? = some table →
    table.size < pos.u32.toNat + count.u32.toNat →
    Overruns inst s (.tableFill t) (((below.push pos).push v).push count)
  | tableCopy {dstTable srcTable : TableIdx} {addr source : Nat} {table table' : Table}
    {dst src count : Value} (below : Array Value) : inst.tableAddr dstTable = .ok addr →
    inst.tableAddr srcTable = .ok source → s.tables[addr]? = some table →
    s.tables[source]? = some table' →
    table.size < dst.u32.toNat + count.u32.toNat ∨ table'.size < src.u32.toNat + count.u32.toNat →
    Overruns inst s (.tableCopy dstTable srcTable) (((below.push dst).push src).push count)
  | tableInit {segment : ElemIdx} {t : TableIdx} {addr source : Nat} {table : Table}
    {e : ElemInstance} {dst src count : Value} (below : Array Value) :
    inst.tableAddr t = .ok addr → inst.elemAddr segment = .ok source →
    s.tables[addr]? = some table → s.elems[source]? = some (some e) →
    table.size < dst.u32.toNat + count.u32.toNat ∨
    e.values.length < src.u32.toNat + count.u32.toNat →
    Overruns inst s (.tableInit segment t) (((below.push dst).push src).push count)

/-- An instruction that would leave the bounds of what it works on traps. -/
theorem Instr.Overruns.traps {inst : Instance} {i : Instr} {a : Activation σ}
    (overrun : i.Overruns inst a.store a.frame.stack) :
    ∃ t b, (t = .memoryBounds ∨ t = .tableBounds) ∧ i.exec inst a = .error t b := by
  obtain ⟨f, s⟩ := a
  dsimp only at overrun
  generalize operands : f.stack = stack at overrun
  cases overrun with
  | @store _ _ op arg base below v known there out =>
    have ran := (Stores.scalar op arg).exec_eq (Instance.memories_zero known) there operands
    exact ⟨_, _, .inl rfl, ran.trans (if_neg (Nat.not_le_of_lt out))⟩
  | @vectorStore _ _ arg base below v known there out =>
    have ran := (Stores.vector arg).exec_eq (Instance.memories_zero known) there operands
    exact ⟨_, _, .inl rfl, ran.trans (if_neg (Nat.not_le_of_lt out))⟩
  | memoryFill below v known there out =>
    have ran := exec_memoryFill known there operands
    exact ⟨_, _, .inl rfl, ran.trans (if_neg (Nat.not_le_of_lt out))⟩
  | memoryCopy below source known there out =>
    have ran := exec_memoryCopy known source there operands
    exact ⟨_, _, .inl rfl, ran.trans (if_neg (by omega))⟩
  | memoryInit below known source there held out =>
    have ran := exec_memoryInit source held known there operands
    exact ⟨_, _, .inl rfl, ran.trans (if_neg (by omega))⟩
  | tableSet below v known there out =>
    have ran := exec_tableSet known there operands
    exact ⟨_, _, .inr rfl, ran.trans (if_neg (Nat.not_lt_of_le out))⟩
  | tableFill below v known there out =>
    have ran := exec_tableFill known there operands
    exact ⟨_, _, .inr rfl, ran.trans (if_neg (Nat.not_le_of_lt out))⟩
  | tableCopy below known source there held out =>
    have ran := exec_tableCopy known source there held operands
    exact ⟨_, _, .inr rfl, ran.trans (if_neg (by omega))⟩
  | tableInit below known source there held out =>
    have ran := exec_tableInit source held known there operands
    exact ⟨_, _, .inr rfl, ran.trans (if_neg (by omega))⟩

/-! ## Dispatch -/

/-- An instruction is carried out or traps. It touches no frame but the innermost; if it traps,
then nothing but the frames is changed, and of the innermost frame only the position, the operands
and the labels; and it traps if it would leave the bounds of what it works on. -/
theorem Run.dispatch_guarded (i : Instr) (m : Machine σ) :
    ∃ r m', Run.dispatch i m = some (r, m') ∧
      m'.frames.size = m.frames.size ∧ m'.frames.pop = m.frames.pop ∧
      (∀ h, r = .error h → m' = { m with frames := m'.frames } ∧
        ∀ f, m.frames.back? = some f → ∃ f', m'.frames.back? = some f' ∧
          f' = { f with pc := f'.pc, stack := f'.stack, labels := f'.labels }) ∧
      ∀ f inst, m.frames.back? = some f → m.instances[f.inst]? = some inst →
        i.Overruns inst m.store f.stack →
        r = .error (.trap .memoryBounds) ∨ r = .error (.trap .tableBounds) := by
  by_cases empty : m.frames = #[]
  · refine ⟨.error (.trap .noFrame), m, ?_, rfl, rfl, fun _ _ => ⟨rfl, fun f top => ?_⟩, ?_⟩
    · rw [Run.dispatch, bind_apply, currentInstance_eq, empty]
      rfl
    · rw [empty] at top
      cases top
    · intro f inst top
      rw [empty] at top
      cases top
  · obtain ⟨outer, f, top⟩ := Array.exists_push_of_ne_empty empty
    rw [dispatch_eq i top, top, Array.back?_push, Array.pop_push, Array.size_push]
    cases there : m.instances[f.inst]? with
    | none =>
      refine ⟨_, m, rfl, by rw [top, Array.size_push], by rw [top, Array.pop_push],
        fun _ _ => ⟨rfl, fun g same => ⟨g, ?_, rfl⟩⟩, fun g inst same here => ?_⟩
      · rw [top, Array.back?_push, same]
      · cases same
        cases there.symm.trans here
    | some inst =>
      have same := i.exec_same inst ⟨{ f with pc := f.pc + 1 }, m.store⟩
      have guarded := @Instr.exec_guarded σ inst i ⟨{ f with pc := f.pc + 1 }, m.store⟩
      have traps := @Instr.Overruns.traps σ inst i ⟨{ f with pc := f.pc + 1 }, m.store⟩
      dsimp only
      cases ran : i.exec inst ⟨{ f with pc := f.pc + 1 }, m.store⟩ with
      | ok flow b =>
        refine ⟨_, _, rfl, Array.size_push _, Array.pop_push, fun h failed => (nomatch failed),
          fun g inst' same' here overrun => ?_⟩
        cases same'
        cases there.symm.trans here
        obtain ⟨t, c, -, failed⟩ := traps overrun
        cases ran.symm.trans failed
      | error t b =>
        rw [ran] at same
        obtain ⟨store, locals⟩ := guarded ran
        refine ⟨_, _, rfl, Array.size_push _, Array.pop_push, fun h failed =>
          ⟨?_, fun g same' => ?_⟩,
          fun g inst' same' here overrun => ?_⟩
        · rw [Machine.within, store]
        · cases same'
          refine ⟨b.frame, Array.back?_push, ?_⟩
          have whole : b.frame = { f with
              locals := b.frame.locals, stack := b.frame.stack, labels := b.frame.labels,
              pc := b.frame.pc } := same
          rw [whole, locals]
        · cases same'
          cases there.symm.trans here
          obtain ⟨t', c, bounds, failed⟩ := traps overrun
          cases ran.symm.trans failed
          rcases bounds with rfl | rfl
          · exact .inl rfl
          · exact .inr rfl

end WasmMachine
