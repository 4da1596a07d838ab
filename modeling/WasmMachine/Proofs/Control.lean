import WasmMachine.Proofs.Plain

/-!
# Control instructions

What each control instruction does, as an equation on the activation that it runs in.  None of
them touches the store, and a frame keeps its code and its place in the chain of frames under
every instruction (`Instr.exec_same`).
-/

namespace WasmMachine

variable {σ α β : Type}

/-! ## Taking acts apart -/

namespace Act

@[simp] theorem bind_apply (x : Act σ α) (k : α → Act σ β) (a : Activation σ) :
    (x >>= k) a = match x a with
      | .ok v b => k v b
      | .error t b => .error t b := by
  change EStateM.bind x k a = _
  unfold EStateM.bind
  cases x a <;> rfl

@[simp] theorem map_apply (x : Act σ α) (g : α → β) (a : Activation σ) :
    (g <$> x) a = match x a with
      | .ok v b => .ok (g v) b
      | .error t b => .error t b := by
  change EStateM.map g x a = _
  unfold EStateM.map
  cases x a <;> rfl

@[simp] theorem pure_apply (v : α) (a : Activation σ) : (pure v : Act σ α) a = .ok v a := rfl

@[simp] theorem liftM_frame (x : FrameM α) : (liftM x : Act σ α) = onFrame x := rfl

@[simp] theorem liftM_except (r : Except Trap α) : (liftM r : Act σ α) = ofExcept r := rfl

end Act

theorem FrameM.pop_eq (f : Frame) : FrameM.pop f = match f.stack.back? with
    | none => .error .stackUnderflow f
    | some v => .ok v { f with stack := f.stack.pop } := by
  unfold FrameM.pop
  by_cases some : 0 < f.stack.size
  · rw [dif_pos some, Array.back?_eq_getElem?, Array.getElem?_eq_getElem (by omega)]
    rfl
  · rw [dif_neg some, Array.back?_eq_getElem?, Array.getElem?_eq_none (by omega)]

theorem FrameM.popNat_eq (f : Frame) : FrameM.popNat f = match f.stack.back? with
    | none => .error .stackUnderflow f
    | some v => .ok v.u32.toNat { f with stack := f.stack.pop } := by
  change EStateM.bind FrameM.pop _ f = _
  unfold EStateM.bind
  rw [FrameM.pop_eq]
  cases f.stack.back? <;> rfl

/-! ## The instructions -/

/-- What is left of a branch: the next instruction, or the trap. -/
def Act.branched (depth : Nat) (a : Activation σ) : EStateM.Result Trap (Activation σ) Flow :=
  match FrameM.branch depth a.frame with
  | .ok _ f => .ok .next ⟨f, a.store⟩
  | .error t f => .error t ⟨f, a.store⟩

namespace Instr

variable (inst : Instance) (a : Activation σ)

/-- The end of a construct drops its label; the last label is dropped at the end of the code. -/
theorem exec_endOf : Instr.endOf.exec inst a = match a.frame.labels with
    | [] => .error .labelUnderflow a
    | _ :: labels => .ok .next ⟨{ a.frame with labels }, a.store⟩ := by
  change (do FrameM.popLabel; return .next : Act σ Flow) a = _
  cases labels : a.frame.labels <;> simp [Act.onFrame, FrameM.popLabel, labels]

/-- To come upon an else is to have done the first arm, so that the label goes and the
second arm is skipped. -/
theorem exec_elseArm (target : Nat) :
    (Instr.elseArm target).exec inst a = match a.frame.labels with
      | [] => .error .labelUnderflow a
      | _ :: labels => .ok .next ⟨{ a.frame with labels, pc := target }, a.store⟩ := by
  change (do FrameM.popLabel; FrameM.jump target; return .next : Act σ Flow) a = _
  cases labels : a.frame.labels <;>
    simp [Act.onFrame, FrameM.popLabel, FrameM.jump, labels]

theorem exec_block (type : BlockType) (target : Nat) :
    (Instr.block type target).exec inst a = match inst.blockArity type with
      | .error t => .error t a
      | .ok (params, results) =>
        if params ≤ a.frame.stack.size then
          .ok .next ⟨{ a.frame with
            labels := ⟨results, target, a.frame.stack.size - params⟩ :: a.frame.labels }, a.store⟩
        else .error .stackUnderflow a := by
  change (do
    let arity ← inst.blockArity type
    FrameM.pushLabel arity.2 target arity.1
    return .next : Act σ Flow) a = _
  cases arity : inst.blockArity type with
  | error t => simp [Act.ofExcept]
  | ok p =>
    by_cases there : p.1 ≤ a.frame.stack.size <;>
      simp [Act.onFrame, Act.ofExcept, FrameM.pushLabel, there]

/-- A branch to a loop goes back to its beginning and keeps the parameters. -/
theorem exec_loop (type : BlockType) (target : Nat) :
    (Instr.loop type target).exec inst a = match inst.blockArity type with
      | .error t => .error t a
      | .ok (params, _) =>
        if params ≤ a.frame.stack.size then
          .ok .next ⟨{ a.frame with
            labels := ⟨params, target, a.frame.stack.size - params⟩ :: a.frame.labels }, a.store⟩
        else .error .stackUnderflow a := by
  change (do
    let arity ← inst.blockArity type
    FrameM.pushLabel arity.1 target arity.1
    return .next : Act σ Flow) a = _
  cases arity : inst.blockArity type with
  | error t => simp [Act.ofExcept]
  | ok p =>
    by_cases there : p.1 ≤ a.frame.stack.size <;>
      simp [Act.onFrame, Act.ofExcept, FrameM.pushLabel, there]

/-- An if whose condition holds is entered like a block; one whose condition does not is entered
at its else arm, or skipped if the two targets are one. -/
theorem exec_ifThen (type : BlockType) (target elseTarget : Nat) :
    (Instr.ifThen type target elseTarget).exec inst a = match a.frame.stack.back? with
      | none => .error .stackUnderflow a
      | some cond =>
        let f := { a.frame with stack := a.frame.stack.pop }
        match inst.blockArity type with
        | .error t => .error t ⟨f, a.store⟩
        | .ok (params, results) =>
          if cond.u32.toNat = 0 ∧ elseTarget = target then
            .ok .next ⟨{ f with pc := target }, a.store⟩
          else if params ≤ f.stack.size then
            .ok .next ⟨{ f with
              labels := ⟨results, target, f.stack.size - params⟩ :: f.labels
              pc := if cond.u32.toNat = 0 then elseTarget else f.pc }, a.store⟩
          else .error .stackUnderflow ⟨f, a.store⟩ := by
  change (do
    let cond ← FrameM.popNat
    let arity ← inst.blockArity type
    if cond ≠ 0 then
      FrameM.pushLabel arity.2 target arity.1
    else if elseTarget = target then
      FrameM.jump target
    else
      FrameM.pushLabel arity.2 target arity.1
      FrameM.jump elseTarget
    return .next : Act σ Flow) a = _
  cases top : a.frame.stack.back? with
  | none => simp [Act.onFrame, FrameM.popNat_eq, top]
  | some cond =>
    cases arity : inst.blockArity type with
    | error t => simp [Act.onFrame, Act.ofExcept, FrameM.popNat_eq, top]
    | ok p =>
      by_cases false : cond.u32.toNat = 0
      · by_cases skip : elseTarget = target
        · simp [Act.onFrame, Act.ofExcept, FrameM.popNat_eq, FrameM.jump, top,
            false, skip]
        · by_cases there : p.1 ≤ a.frame.stack.size - 1 <;>
            simp [Act.onFrame, Act.ofExcept, FrameM.popNat_eq, FrameM.pushLabel,
              FrameM.jump, top, false, skip, there]
      · by_cases there : p.1 ≤ a.frame.stack.size - 1 <;>
          simp [Act.onFrame, Act.ofExcept, FrameM.popNat_eq, FrameM.pushLabel, top,
            false, there]

theorem exec_br (l : LabelIdx) : (Instr.br l).exec inst a = Act.branched l.toNat a := by
  change (do FrameM.branch l.toNat; return .next : Act σ Flow) a = _
  simp only [Act.liftM_frame, Act.bind_apply, Act.onFrame, Act.branched]
  cases FrameM.branch l.toNat a.frame <;> rfl

theorem exec_brIf (l : LabelIdx) : (Instr.brIf l).exec inst a = match a.frame.stack.back? with
    | none => .error .stackUnderflow a
    | some cond =>
      let b : Activation σ := ⟨{ a.frame with stack := a.frame.stack.pop }, a.store⟩
      if cond.u32.toNat = 0 then .ok .next b else Act.branched l.toNat b := by
  change (do
    if (← FrameM.popNat) ≠ 0 then
      FrameM.branch l.toNat
    return .next : Act σ Flow) a = _
  cases top : a.frame.stack.back? with
  | none => simp [Act.onFrame, FrameM.popNat_eq, top]
  | some cond =>
    by_cases false : cond.u32.toNat = 0
    · simp [Act.onFrame, FrameM.popNat_eq, top, false]
    · simp only [Act.liftM_frame, Act.bind_apply, Act.onFrame, FrameM.popNat_eq, top,
        false, Act.branched]
      simp only [ne_eq, false, not_false_eq_true, if_true, if_false, Act.bind_apply, Act.onFrame]
      cases FrameM.branch l.toNat { a.frame with stack := a.frame.stack.pop } <;> rfl

/-- An index that is out of range takes the last label. -/
theorem exec_brTable (ls : List LabelIdx) (fallback : LabelIdx) :
    (Instr.brTable ls fallback).exec inst a = match a.frame.stack.back? with
      | none => .error .stackUnderflow a
      | some i => Act.branched (ls[i.u32.toNat]?.getD fallback).toNat
          ⟨{ a.frame with stack := a.frame.stack.pop }, a.store⟩ := by
  change (do
    let i ← FrameM.popNat
    FrameM.branch (ls[i]?.getD fallback).toNat
    return .next : Act σ Flow) a = _
  cases top : a.frame.stack.back? with
  | none => simp [Act.onFrame, FrameM.popNat_eq, top]
  | some i =>
    simp only [Act.liftM_frame, Act.bind_apply, Act.onFrame, FrameM.popNat_eq, top,
      Act.branched]
    cases FrameM.branch _ { a.frame with stack := a.frame.stack.pop } <;> rfl

/-- A return is a branch to the outermost label. -/
theorem exec_ret : Instr.ret.exec inst a = match a.frame.labels with
    | [] => .error .labelUnderflow a
    | _ :: labels => Act.branched labels.length a := by
  change (do FrameM.ret; return .next : Act σ Flow) a = _
  simp only [Act.liftM_frame, Act.bind_apply, Act.onFrame, FrameM.ret]
  cases labels : a.frame.labels with
  | nil => rfl
  | cons l ls =>
    simp only [List.isEmpty_cons, List.length_cons, Nat.add_sub_cancel, Act.branched]
    cases FrameM.branch ls.length a.frame <;> rfl

end Instr

/-! ## What a frame keeps -/

/-- The part of a frame that its instructions never change: whose frame it is, what it runs, and
where its results go. -/
def Frame.Same (f g : Frame) : Prop :=
  g = { f with locals := g.locals, stack := g.stack, labels := g.labels, pc := g.pc }

theorem Frame.Same.refl (f : Frame) : f.Same f := rfl

theorem Frame.Same.trans {f g h : Frame} (left : f.Same g) (right : g.Same h) : f.Same h := by
  unfold Frame.Same at *
  rw [right, left]

theorem Frame.Same.inst {f g : Frame} (same : f.Same g) : g.inst = f.inst := by rw [same]

theorem Frame.Same.code {f g : Frame} (same : f.Same g) : g.code = f.code := by rw [same]

theorem Frame.Same.prev {f g : Frame} (same : f.Same g) : g.prev = f.prev := by rw [same]

theorem Frame.Same.arity {f g : Frame} (same : f.Same g) : g.arity = f.arity := by rw [same]

/-- An activation whose frame is the same, over the same store. -/
def Activation.Same (a b : Activation σ) : Prop := a.frame.Same b.frame ∧ b.store = a.store

theorem Activation.Same.refl (a : Activation σ) : a.Same a := ⟨rfl, rfl⟩

/-- A branch stays in the same function at the same store. -/
theorem Act.branched_same (depth : Nat) (a : Activation σ) :
    a.Same (stateAfter (Act.branched depth a)) := by
  unfold Act.branched FrameM.branch
  cases a.frame.labels[depth]? with
  | none => exact .refl a
  | some l =>
    by_cases there : l.height + l.arity ≤ a.frame.stack.size
    · simp only [there, if_true]
      exact ⟨rfl, rfl⟩
    · simp only [there, if_false]
      exact .refl a

/-- A control instruction does not touch the store. -/
theorem Instr.exec_control (inst : Instance) {i : Instr} (control : i.isControl = true)
    (a : Activation σ) : a.Same (stateAfter (i.exec inst a)) := by
  cases i with
  | block type target =>
    rw [exec_block]
    split
    · exact .refl a
    · split <;> exact ⟨rfl, rfl⟩
  | loop type target =>
    rw [exec_loop]
    split
    · exact .refl a
    · split <;> exact ⟨rfl, rfl⟩
  | ifThen type target elseTarget =>
    rw [exec_ifThen]
    split
    · exact .refl a
    · dsimp only
      split
      · exact ⟨rfl, rfl⟩
      · split
        · exact ⟨rfl, rfl⟩
        · split <;> exact ⟨rfl, rfl⟩
  | elseArm target =>
    rw [exec_elseArm]
    split <;> exact ⟨rfl, rfl⟩
  | endOf =>
    rw [exec_endOf]
    split <;> exact ⟨rfl, rfl⟩
  | br l =>
    rw [exec_br]
    exact Act.branched_same _ a
  | brIf l =>
    rw [exec_brIf]
    split
    · exact .refl a
    · dsimp only
      split
      · exact ⟨rfl, rfl⟩
      · exact Act.branched_same _ _
  | brTable ls fallback =>
    rw [exec_brTable]
    split
    · exact .refl a
    · exact Act.branched_same _ _
  | ret =>
    rw [exec_ret]
    split
    · exact .refl a
    · exact Act.branched_same _ a
  | _ => cases control

/-- A frame keeps what it runs and where its results go under every instruction. -/
theorem Instr.exec_same (inst : Instance) (i : Instr) (a : Activation σ) :
    a.frame.Same (stateAfter (i.exec inst a)).frame := by
  cases control : i.isControl with
  | false =>
    rw [(Instr.exec_plain inst control).after_eq_inFrame a]
    rfl
  | true => exact (Instr.exec_control inst control a).1

/-- No instruction adds a function to the store, or changes one. -/
theorem Instr.exec_funcs (inst : Instance) (i : Instr) (a : Activation σ) :
    (stateAfter (i.exec inst a)).store.funcs = a.store.funcs := by
  cases control : i.isControl with
  | false => exact (Instr.exec_plain inst control).funcs_eq a
  | true => rw [(Instr.exec_control inst control a).2]

/-- Nothing but a call instruction asks for a call. -/
theorem Instr.isCall_of_asked {inst : Instance} {i : Instr} {a b : Activation σ} {addr : Nat}
    (run : i.exec inst a = .ok (.call addr) b) : i.isCall = true := by
  cases noCall : i.isCall with
  | true => rfl
  | false => cases Instr.exec_next inst noCall run

/-- A call instruction leaves the labels of its frame alone. -/
theorem Instr.labels_of_call {inst : Instance} {i : Instr} {a b : Activation σ} {addr : Nat}
    (run : i.exec inst a = .ok (.call addr) b) : b.frame.labels = a.frame.labels := by
  have isCall := Instr.isCall_of_asked run
  have plain : i.isControl = false := by
    cases i with
    | call | callIndirect => rfl
    | _ => cases isCall
  have after := (Instr.exec_plain inst plain).after_eq_inFrame a
  rw [run] at after
  have same : b = _ := after
  rw [same]
  rfl

end WasmMachine
