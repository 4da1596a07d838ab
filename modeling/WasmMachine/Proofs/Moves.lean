import WasmMachine.Proofs.Control
import WasmMachine.Proofs.Runs

/-!
# Where instructions go

What an instruction that succeeds does to the position and the labels of its frame, whatever its
operands are (`Instr.Moves`): it goes on behind itself, enters or leaves a construct, skips an if
that has no else arm, or branches to a label.  Nothing else ever happens (`Instr.exec_moves`), and
an instruction inside of something never misses a label but one that it asks for by its depth
(`Instr.exec_trap`).
-/

namespace WasmMachine

variable {σ α β : Type}

/-- The operands that a branch instruction takes for itself. -/
def Instr.operands : Instr → Nat
  | .brIf _ | .brTable .. => 1
  | _ => 0

/-- A frame that has branched to one of its labels. -/
def Frame.branched (f : Frame) (level : Nat) (l : Label) : Frame :=
  { f with
    stack := f.stack.shrink l.height ++ f.stack.extract (f.stack.size - l.arity) f.stack.size
    labels := f.labels.drop (level + 1)
    pc := l.target }

theorem Frame.without_zero (f : Frame) : f.without 0 = f := by
  unfold Frame.without
  simp

theorem Frame.without_one (f : Frame) : f.without 1 = { f with stack := f.stack.pop } := by
  unfold Frame.without
  simp

/-- What an instruction makes of the frame that it runs in, as far as labels and position go. The
position is past the instruction already. -/
inductive Instr.Moves : Instr → Frame → Frame → Prop
  | plain {i : Instr} {f g : Frame} : i.isControl = false → g.labels = f.labels → g.pc = f.pc →
    Moves i f g
  | block {type : BlockType} {f : Frame} (l : Label) :
    Moves (.block type l.target) f { f with labels := l :: f.labels }
  | loop {type : BlockType} {f : Frame} (l : Label) :
    Moves (.loop type l.target) f { f with labels := l :: f.labels }
  | thenArm {type : BlockType} {f : Frame} (l : Label) (elseTarget : Nat) (stack : Array Value) :
    Moves (.ifThen type l.target elseTarget) f { f with stack, labels := l :: f.labels }
  | elseArm {type : BlockType} {f : Frame} (l : Label) {elseTarget : Nat} (stack : Array Value) :
    elseTarget ≠ l.target → Moves (.ifThen type l.target elseTarget) f
      { f with stack, labels := l :: f.labels, pc := elseTarget }
  | skip {type : BlockType} {f : Frame} (target : Nat) (stack : Array Value) :
    Moves (.ifThen type target target) f { f with stack, pc := target }
  | endThen {f : Frame} {l : Label} {labels : List Label} (target : Nat) :
    f.labels = l :: labels → Moves (.elseArm target) f { f with labels, pc := target }
  | endOf {f : Frame} {l : Label} {labels : List Label} :
    f.labels = l :: labels → Moves .endOf f { f with labels }
  | pass {f : Frame} (l : LabelIdx) (stack : Array Value) : Moves (.brIf l) f { f with stack }
  | branch {i : Instr} {f : Frame} {level : Nat} {l : Label} : i.isControl = true →
    i.isStructural = false → f.labels[level]? = some l →
    l.height + l.arity ≤ (f.without i.operands).stack.size →
    Moves i f ((f.without i.operands).branched level l)

theorem Act.branched_eq (level : Nat) (a : Activation σ) :
    Act.branched level a = match a.frame.labels[level]? with
      | none => .error (.unknownLabel level) a
      | some l =>
        if l.height + l.arity ≤ a.frame.stack.size then
          .ok .next ⟨a.frame.branched level l, a.store⟩
        else .error .stackUnderflow a := by
  unfold Act.branched FrameM.branch
  cases a.frame.labels[level]? with
  | none => rfl
  | some l =>
    dsimp only
    by_cases there : l.height + l.arity ≤ a.frame.stack.size
    · rw [if_pos there, if_pos there]
      rfl
    · rw [if_neg there, if_neg there]

/-- A branch that succeeds has found its label and the operands that the label asks for. -/
theorem Act.branched_ok {level : Nat} {a b : Activation σ} {flow : Flow}
    (run : Act.branched level a = .ok flow b) : ∃ l, a.frame.labels[level]? = some l ∧
      l.height + l.arity ≤ a.frame.stack.size ∧ b.frame = a.frame.branched level l := by
  rw [branched_eq] at run
  split at run
  · cases run
  · next l found =>
    split at run
    · next there =>
      cases run
      exact ⟨l, found, there, rfl⟩
    · cases run

/-- A branch of an instruction that has taken its own operands is one of its moves. -/
theorem Instr.Moves.of_branched {i : Instr} {f : Frame} {level : Nat} {a b : Activation σ}
    {flow : Flow} (control : i.isControl = true) (free : i.isStructural = false)
    (start : a.frame = f.without i.operands) (run : Act.branched level a = .ok flow b) :
    i.Moves f b.frame := by
  obtain ⟨l, found, there, after⟩ := Act.branched_ok run
  rw [start] at found there after
  rw [after]
  exact .branch control free found there

/-- Everything that an instruction that succeeds can do to labels and position. -/
theorem Instr.exec_moves {inst : Instance} {i : Instr} {a b : Activation σ} {flow : Flow}
    (run : i.exec inst a = .ok flow b) : i.Moves a.frame b.frame := by
  cases control : i.isControl with
  | false =>
    have after := (Instr.exec_plain inst control).after_eq_inFrame a
    rw [run] at after
    have same : b = _ := after
    rw [same]
    exact .plain control rfl rfl
  | true =>
    cases i with
    | block type target =>
      rw [exec_block] at run
      split at run
      · cases run
      · split at run
        · cases run
          exact .block ⟨_, target, _⟩
        · cases run
    | loop type target =>
      rw [exec_loop] at run
      split at run
      · cases run
      · split at run
        · cases run
          exact .loop ⟨_, target, _⟩
        · cases run
    | ifThen type target elseTarget =>
      rw [exec_ifThen] at run
      split at run
      · cases run
      · next cond _ =>
        dsimp only at run
        split at run
        · cases run
        · split at run
          · next skip =>
            cases run
            rw [skip.2]
            exact .skip target _
          · next enter =>
            split at run
            · cases run
              by_cases zero : cond.u32.toNat = 0
              · have other : elseTarget ≠ target := fun same => enter ⟨zero, same⟩
                rw [if_pos zero]
                exact .elseArm ⟨_, target, _⟩ _ other
              · rw [if_neg zero]
                exact .thenArm ⟨_, target, _⟩ elseTarget _
            · cases run
    | elseArm target =>
      rw [exec_elseArm] at run
      split at run
      · cases run
      · next labels =>
        cases run
        exact .endThen target labels
    | endOf =>
      rw [exec_endOf] at run
      split at run
      · cases run
      · next labels =>
        cases run
        exact .endOf labels
    | br l =>
      rw [exec_br] at run
      exact .of_branched rfl rfl (Frame.without_zero _).symm run
    | brIf l =>
      rw [exec_brIf] at run
      split at run
      · cases run
      · dsimp only at run
        split at run
        · cases run
          exact .pass l _
        · exact .of_branched rfl rfl (Frame.without_one _).symm run
    | brTable ls fallback =>
      rw [exec_brTable] at run
      split at run
      · cases run
      · exact .of_branched rfl rfl (Frame.without_one _).symm run
    | ret =>
      rw [exec_ret] at run
      split at run
      · cases run
      · exact .of_branched rfl rfl (Frame.without_zero _).symm run
    | _ => cases control

/-! ## Labels that are missing -/

theorem Act.branched_trap {level : Nat} {a b : Activation σ} {t : Trap}
    (run : Act.branched level a = .error t b) :
    t.isControl = false ∨ ∃ depth, t = .unknownLabel depth := by
  rw [branched_eq] at run
  split at run
  · cases run
    exact .inr ⟨level, rfl⟩
  · split at run <;> cases run
    exact .inl rfl

/-- An instruction that is inside of something finds the label that it needs, unless it asks for
one by its depth. -/
theorem Instr.exec_trap {inst : Instance} {i : Instr} {a b : Activation σ} {t : Trap}
    (inside : a.frame.labels ≠ []) (run : i.exec inst a = .error t b) :
    t.isControl = false ∨ ∃ depth, t = .unknownLabel depth := by
  cases control : i.isControl with
  | false => exact .inl ((Instr.exec_plain inst control).trap_plain run)
  | true =>
    cases i with
    | block type target | loop type target =>
      first | rw [exec_block] at run | rw [exec_loop] at run
      split at run
      · next failed =>
        cases run
        exact .inl (inst.blockArity_plain type _ failed)
      · split at run <;> cases run
        exact .inl rfl
    | ifThen type target elseTarget =>
      rw [exec_ifThen] at run
      split at run
      · cases run
        exact .inl rfl
      · dsimp only at run
        split at run
        · next failed =>
          cases run
          exact .inl (inst.blockArity_plain type _ failed)
        · split at run
          · cases run
          · split at run <;> cases run
            exact .inl rfl
    | elseArm target =>
      rw [exec_elseArm] at run
      split at run
      · next empty => exact absurd empty inside
      · cases run
    | endOf =>
      rw [exec_endOf] at run
      split at run
      · next empty => exact absurd empty inside
      · cases run
    | br l =>
      rw [exec_br] at run
      exact Act.branched_trap run
    | brIf l =>
      rw [exec_brIf] at run
      split at run
      · cases run
        exact .inl rfl
      · dsimp only at run
        split at run
        · cases run
        · exact Act.branched_trap run
    | brTable ls fallback =>
      rw [exec_brTable] at run
      split at run
      · cases run
        exact .inl rfl
      · exact Act.branched_trap run
    | ret =>
      rw [exec_ret] at run
      split at run
      · next empty => exact absurd empty inside
      · exact Act.branched_trap run
    | _ => cases control

end WasmMachine
