import WasmMachine.Proofs.Guarded
import WasmMachine.Proofs.Moves

/-!
# Calls at the limit

An instruction that asks for a call has changed nothing but its own frame when the call starts:
the step is paid for, the frame is at the next instruction, and an indirect call has popped the
slot of its table (`Run.instruction_asks`).  The first thing that a call does is to look at the
limit on calls, so that a call for which there is no room leaves the machine just so
(`Run.step_of_full`): the arguments are still there, and there is no new frame.
-/

namespace WasmMachine

variable {σ α β : Type}

/-! ## Acts that pop operands -/

/-- An act that, if it succeeds, has popped a number of operands and done nothing else. -/
def Act.Pops (count : Nat) (x : Act σ α) : Prop :=
  ∀ ⦃a v b⦄, x a = .ok v b → b = ⟨a.frame.without count, a.store⟩

theorem Frame.without_without (f : Frame) (i j : Nat) :
    (f.without i).without j = f.without (i + j) := by
  have sizes : min (min (f.stack.size - i) f.stack.size - j) (f.stack.size - i)
      = f.stack.size - (i + j) := by omega
  simp only [Frame.without, Array.shrink_eq_take, Array.take_eq_extract, Array.size_extract,
    Array.extract_extract, Nat.sub_zero, Nat.zero_add, sizes]

namespace Act.Pops

theorem pure (v : α) : (Pure.pure v : Act σ α).Pops 0 := by
  intro a w b run
  cases run
  rw [Frame.without_zero]

theorem throw (count : Nat) (t : Trap) : (MonadExcept.throw t : Act σ α).Pops count := by
  intro a v b run
  cases run

theorem bind {x : Act σ α} {k : α → Act σ β} {i j : Nat} (first : x.Pops i)
    (next : ∀ v, (k v).Pops j) : (x >>= k).Pops (i + j) := by
  intro a w b run
  rw [bind_apply] at run
  split at run
  · next v a₁ ran =>
    rw [next v run, first ran, Frame.without_without]
  · cases run

/-- What comes after an act that pops nothing. -/
theorem andThen {x : Act σ α} {k : α → Act σ β} {count : Nat} (first : x.Pops 0)
    (next : ∀ v, (k v).Pops count) : (x >>= k).Pops count :=
  Nat.zero_add count ▸ first.bind next

theorem ofExcept (r : Except Trap α) : (Act.ofExcept r : Act σ α).Pops 0 := by
  intro a v b run
  cases r <;> cases run
  rw [Frame.without_zero]

theorem onStore {x : StoreM σ α} (kept : ∀ s, stateAfter (x s) = s) : (Act.onStore x).Pops 0 := by
  intro a v b run
  have same := kept a.store
  simp only [Act.onStore] at run
  split at run <;> cases run
  next ran =>
    rw [ran] at same
    rw [Frame.without_zero, ← same]
    rfl

theorem popNat : (Act.onFrame FrameM.popNat : Act σ Nat).Pops 1 := by
  intro a v b run
  simp only [Act.onFrame, FrameM.popNat_eq] at run
  cases last : a.frame.stack.back? with
  | none =>
    rw [last] at run
    cases run
  | some slot =>
    rw [last] at run
    cases run
    rw [Frame.without_one]

theorem gets (f : Store σ → Except Trap α) : (Act.onStore (StoreM.gets f)).Pops 0 :=
  onStore fun s => by
    unfold StoreM.gets
    split <;> rfl

theorem table (inst : Instance) (idx : TableIdx) : (Act.table inst idx : Act σ Nat).Pops 0 :=
  andThen (.ofExcept _) fun _ => andThen (.gets _) fun _ => .pure _

theorem onTable (addr : Nat) {x : EStateM Trap Table α} (kept : ∀ t, stateAfter (x t) = t) :
    (Act.onTable addr x : Act σ α).Pops 0 :=
  onStore fun _ => StoreM.onTable_unchanged addr kept

/-- An indirect call pops the operand that says which slot of its table it goes to. -/
theorem indirect (inst : Instance) (type : TypeIdx) (table : TableIdx) :
    (Act.indirect inst type table : Act σ Nat).Pops 1 := by
  refine andThen (.ofExcept _) fun expected => andThen (.table inst table) fun addr =>
    bind (j := 0) .popNat fun slot => andThen (onTable _ fun _ => rfl) fun found => ?_
  cases found with
  | none => exact .throw _ _
  | some v =>
    dsimp only
    split
    · exact .throw _ _
    · refine andThen (.gets _) fun func => ?_
      split
      · exact andThen (.throw _ _) fun _ => .pure _
      · exact .pure _

end Act.Pops

/-- How many operands an instruction takes off before the call that it asks for: an indirect call
takes the slot of its table. -/
def Instr.selects : Instr → Nat
  | .callIndirect _ _ => 1
  | _ => 0

/-- An instruction that asks for a call has not touched the arguments of the call. -/
theorem Instr.exec_asks {inst : Instance} {i : Instr} {a b : Activation σ} {addr : Nat}
    (run : i.exec inst a = .ok (.call addr) b) :
    i.isCall = true ∧ b = ⟨a.frame.without i.selects, a.store⟩ := by
  have isCall := Instr.isCall_of_asked run
  refine ⟨isCall, ?_⟩
  cases i with
  | call f =>
    exact Act.Pops.andThen (.ofExcept (inst.funcAddr f)) (fun v => .pure (Flow.call v)) run
  | callIndirect type table =>
    exact Act.Pops.bind (.indirect inst type table) (fun v => .pure (Flow.call v)) run
  | _ => cases isCall

/-! ## Steps that ask for a call -/

/-- A machine that differs from another in that its innermost frame has asked for a call, of which
nothing has been done. -/
def Machine.Asking (m m' : Machine σ) : Prop :=
  ∃ (outer : Array Frame) (f : Frame) (i : Instr) (paid : Machine σ), m.frames = outer.push f ∧
    f.code[f.pc]? = some i ∧ i.isCall = true ∧ m.paying 1 = some paid ∧
    m' = { paid with frames := outer.push ({ f with pc := f.pc + 1 }.without i.selects) }

namespace Run

variable {m m' : Machine σ} {addr : Nat}

/-- Without frames there is no instruction to run. -/
theorem instruction_empty (empty : m.frames = #[]) :
    ∃ t m', instruction m = some (.error (.trap t), m') ∧ m'.frames = #[] := by
  rw [instruction, bind_apply, charge_eq]
  cases paid : m.paying 1 with
  | none => exact ⟨.fuelExhausted, m, rfl, empty⟩
  | some m₁ =>
    have none : m₁.frames = #[] := by rw [Machine.paying_eq paid, empty]
    refine ⟨.noFrame, m₁, ?_, none⟩
    dsimp only
    rw [bind_apply, fetch_eq, none]
    rfl

theorem instruction_asks (run : instruction m = some (.ok (.call addr), m')) : m.Asking m' := by
  by_cases empty : m.frames = #[]
  · obtain ⟨t, m₁, trapped, -⟩ := instruction_empty empty
    rw [trapped] at run
    cases run
  · obtain ⟨outer, f, top⟩ := Array.exists_push_of_ne_empty empty
    cases instructs top run with
    | runs paid here _ ran =>
      obtain ⟨isCall, rfl⟩ := Instr.exec_asks ran
      exact ⟨outer, f, _, _, top, here, isCall, paid, rfl⟩

/-- A step whose instruction asks for a call traps at the limit, and does nothing more. -/
theorem step_of_full (enter : Enter σ) (full : m.config.maxCallDepth ≤ m.frames.size)
    (run : instruction m = some (.ok (.call addr), m')) :
    step enter m = some (.error (.trap .callDepth), m') := by
  obtain ⟨outer, f, i, paid, top, -, -, pays, rfl⟩ := instruction_asks run
  have config : paid.config = m.config := by rw [Machine.paying_eq pays]
  rw [top, Array.size_push, ← config] at full
  rw [step_eq_instruction, bind_apply, run]
  dsimp only
  rw [bind_apply, call_eq enter addr rfl, if_pos full]

end Run

end WasmMachine
