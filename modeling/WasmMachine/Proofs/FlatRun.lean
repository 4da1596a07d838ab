import WasmMachine.Run
import WasmMachine.Proofs.Control
import WasmMachine.Proofs.Layout

/-!
# Flat code does what its nesting means

A frame that runs placed code follows the structured run of the sequence: `Forest.follows` is an
induction on the bound of that run, with one case for each way in which a sequence can be placed.
Its label stack holds one label for each construct that the structured run is inside of, so that a
branch that is passed on by a number of constructs drops as many labels.
-/

namespace WasmMachine

variable {σ : Type}

/-! ## Steps of one frame -/

/-- A workspace in a frame, at a position and with some labels. -/
def Workspace.placed (w : Workspace σ) (f : Frame) (pc : Nat) (labels : List Label) :
    Activation σ :=
  w.inFrame { f with pc, labels }

/-- What becomes of an activation when its next instruction is run. -/
def Activation.next? (inst : Instance) (a : Activation σ) :
    Option (EStateM.Result Trap (Activation σ) Flow) :=
  a.frame.code[a.frame.pc]?.map fun i =>
    i.exec inst ⟨{ a.frame with pc := a.frame.pc + 1 }, a.store⟩

/-- A number of instructions after which the frame is still inside of something. -/
inductive Activation.Steps (inst : Instance) : Nat → Activation σ → Activation σ → Prop
  | refl (a : Activation σ) : Steps inst 0 a a
  | step {a b c : Activation σ} {k : Nat} :
    a.next? inst = some (.ok .next b) → b.frame.labels ≠ [] → Steps inst k b c →
    Steps inst (k + 1) a c

theorem Activation.Steps.trans {inst : Instance} {a b c : Activation σ} {j k : Nat}
    (first : Steps inst j a b) (second : Steps inst k b c) : Steps inst (j + k) a c := by
  induction first with
  | refl => rwa [Nat.zero_add]
  | step run inside _ ih =>
    rw [Nat.add_right_comm]
    exact .step run inside (ih second)

/-! ## Where an exit leads -/

/-- A step that traps. -/
def Fails (r : EStateM.Result Trap (Activation σ) Flow) (t : Trap) (store : Store σ) : Prop :=
  ∃ f, r = .error t ⟨f, store⟩

/-- A step that branches to one of some labels. -/
def Jumps (f : Frame) (labels : List Label) (levels label : Nat) (w : Workspace σ)
    (r : EStateM.Result Trap (Activation σ) Flow) : Prop :=
  match labels[levels]? with
  | none => Fails r (.unknownLabel label) w.store
  | some l =>
    match w.unwind l.height l.arity with
    | .fall w => r = .ok .next (w.placed f l.target (labels.drop (levels + 1)))
    | _ => Fails r .stackUnderflow w.store

/-- The step in which a sequence ends with an exit. The sequence is inside of `labels`; falling
through its end leads to `after` and to the labels `outer`. -/
def Lands (f : Frame) (labels : List Label) (after : Nat) (outer : List Label) (e : Exit σ)
    (r : EStateM.Result Trap (Activation σ) Flow) : Prop :=
  match e with
  | .fall w => r = .ok .next (w.placed f after outer)
  | .branch levels label w => Jumps f labels levels label w r
  | .ret w => Jumps f labels (labels.length - 1) 0 w r
  | .trap t store => Fails r t store

section Exits

variable {f : Frame} {l : Label} {labels outer : List Label} {after : Nat} {e : Exit σ}
  {r : EStateM.Result Trap (Activation σ) Flow}

/-- A return from inside of a construct is a return from around it. -/
theorem lands_ret_cons {w : Workspace σ} {next : Nat} (inside : labels ≠ [])
    (lands : Lands f (l :: labels) next labels (.ret w) r) :
    Lands f labels after outer (.ret w) r := by
  obtain ⟨l', labels', rfl⟩ := List.exists_cons_of_ne_nil inside
  exact lands

theorem lands_unwind (label : Nat) {w : Workspace σ} (jumps : Jumps f (l :: labels) 0 label w r) :
    Lands f labels l.target labels (w.unwind l.height l.arity) r := by
  change (match w.unwind l.height l.arity with
    | .fall w => r = .ok .next (w.placed f l.target labels)
    | _ => Fails r .stackUnderflow w.store) at jumps
  by_cases enough : l.height + l.arity ≤ w.stack.size
  · simp only [Workspace.unwind, if_pos enough] at jumps ⊢
    exact jumps
  · simp only [Workspace.unwind, if_neg enough] at jumps ⊢
    exact jumps

/-- The exit of a body is an exit of its construct. -/
theorem Lands.fromBlock {c : Entered} {target : Nat} (inside : labels ≠ [])
    (lands : Lands f (⟨c.results, target, c.height⟩ :: labels) target labels e r) :
    Lands f labels target labels (e.fromBlock c) r := by
  cases e with
  | fall w => exact lands
  | branch levels label w =>
    cases levels with
    | zero => exact lands_unwind label lands
    | succ levels => exact lands
  | ret w => exact lands_ret_cons inside lands
  | trap t store => exact lands

end Exits

/-! ## Single instructions -/

section Instructions

variable (inst : Instance) (f : Frame) (w : Workspace σ) (pc : Nat) (labels : List Label)

theorem branched_jumps (depth : Nat) :
    Jumps f labels depth depth w (Act.branched depth (w.placed f pc labels)) := by
  unfold Jumps Act.branched FrameM.branch Workspace.placed Workspace.inFrame
  dsimp only
  cases labels[depth]? with
  | none => exact ⟨_, rfl⟩
  | some l =>
    by_cases enough : l.height + l.arity ≤ w.stack.size
    · simp [Workspace.unwind, enough, Workspace.top]
    · simp only [Workspace.unwind, if_neg enough]
      exact ⟨_, rfl⟩

/-- The number that a branch was given does not matter where its label exists. -/
theorem Jumps.relabel {levels label label' : Nat} {r : EStateM.Result Trap (Activation σ) Flow}
    (there : levels < labels.length) (jumps : Jumps f labels levels label w r) :
    Jumps f labels levels label' w r := by
  unfold Jumps at jumps ⊢
  rw [List.getElem?_eq_getElem there] at jumps ⊢
  exact jumps

/-- An instruction that is neither structural nor a call ends as its exit says. -/
theorem Instr.exit_lands {i : Instr} (plain : i.isStructural = false) (noCall : i.isCall = false)
    (inside : labels ≠ []) :
    Lands f labels pc labels (i.exit inst w) (i.exec inst (w.placed f pc labels)) := by
  cases control : i.isControl with
  | false =>
    have effect : i.exec inst (w.placed f pc labels)
        = mapState (·.inFrame { f with pc, labels }) ((i.exec inst).onWorkspace w) :=
      (Instr.exec_plain inst control).operandwise _ w
    cases result : (i.exec inst).onWorkspace w with
    | ok flow w' =>
      have exit : i.exit inst w = .fall w' := by
        cases i with
        | block | loop | ifThen | elseArm | endOf | br | brIf | brTable | ret => cases control
        | _ => simp only [Instr.exit, result]
      rw [exit]
      rw [result] at effect
      have next := Instr.exec_next inst noCall effect
      rw [effect, next]
      rfl
    | error t w' =>
      have exit : i.exit inst w = .trap t w'.store := by
        cases i with
        | block | loop | ifThen | elseArm | endOf | br | brIf | brTable | ret => cases control
        | _ => simp only [Instr.exit, result]
      rw [exit]
      rw [result] at effect
      exact ⟨_, effect⟩
  | true =>
    have top : (w.placed f pc labels).frame.stack.back? = w.stack.back? := rfl
    cases i with
    | br l =>
      rw [Instr.exec_br]
      exact branched_jumps f w pc labels l.toNat
    | brIf l =>
      rw [Instr.exec_brIf, top]
      simp only [Instr.exit, Workspace.popping]
      cases w.stack.back? with
      | none => exact ⟨_, rfl⟩
      | some v =>
        by_cases false : v.u32.toNat = 0
        · simp only [false, ne_eq, not_true_eq_false, if_true, if_false]
          rfl
        · simp only [false, ne_eq, not_false_eq_true, if_true, if_false]
          exact branched_jumps f { w with stack := w.stack.pop } pc labels l.toNat
    | brTable ls fallback =>
      rw [Instr.exec_brTable, top]
      simp only [Instr.exit, Workspace.popping]
      cases w.stack.back? with
      | none => exact ⟨_, rfl⟩
      | some v => exact branched_jumps f { w with stack := w.stack.pop } pc labels _
    | ret =>
      obtain ⟨l, outer, rfl⟩ := List.exists_cons_of_ne_nil inside
      rw [Instr.exec_ret]
      refine Jumps.relabel f w (l :: outer) ?_ (branched_jumps f w pc (l :: outer) outer.length)
      simp
    | block | loop | ifThen | elseArm | endOf => cases plain
    | _ => cases control

end Instructions

/-! ## Following a structured run -/

/-- A frame follows a structured run: it ends in a step to where the exit leads, or it goes on for
as long as the run was looked at. -/
def Follows (inst : Instance) (f : Frame) (labels : List Label) (after : Nat) (outer : List Label)
    (bound : Nat) (a : Activation σ) : Option (Exit σ) → Prop
  | none => ∃ k b, bound ≤ k ∧ a.Steps inst k b
  | some e => ∃ k b r, a.Steps inst k b ∧ b.next? inst = some r ∧ Lands f labels after outer e r

namespace Follows

variable {inst : Instance} {f : Frame} {labels outer : List Label} {after next bound : Nat}
  {a b : Activation σ} {o : Option (Exit σ)} {cont : Workspace σ → Option (Exit σ)}

theorem ofStep (run : a.next? inst = some (.ok .next b)) (inside : b.frame.labels ≠ [])
    (tail : Follows inst f labels after outer bound b o) :
    Follows inst f labels after outer (bound + 1) a o := by
  cases o with
  | none =>
    obtain ⟨k, c, enough, steps⟩ := tail
    exact ⟨k + 1, c, Nat.succ_le_succ enough, .step run inside steps⟩
  | some e =>
    obtain ⟨k, c, r, steps, last, lands⟩ := tail
    exact ⟨k + 1, c, r, .step run inside steps, last, lands⟩

theorem ofSteps {k : Nat} (steps : a.Steps inst k b)
    (tail : Follows inst f labels after outer bound b o) :
    Follows inst f labels after outer bound a o := by
  cases o with
  | none =>
    obtain ⟨j, c, enough, steps'⟩ := tail
    exact ⟨k + j, c, by omega, steps.trans steps'⟩
  | some e =>
    obtain ⟨j, c, r, steps', last, lands⟩ := tail
    exact ⟨k + j, c, r, steps.trans steps', last, lands⟩

theorem weaken {bound' : Nat} (tail : Follows inst f labels after outer bound a o)
    (le : bound' ≤ bound) : Follows inst f labels after outer bound' a o := by
  cases o with
  | none =>
    obtain ⟨k, b, enough, steps⟩ := tail
    exact ⟨k, b, Nat.le_trans le enough, steps⟩
  | some e => exact tail

/-- What a sequence that has been left inside of `labels` goes on with. -/
theorem andThen {e : Exit σ} {j : Nat} {r : EStateM.Result Trap (Activation σ) Flow}
    (inside : labels ≠ []) (steps : a.Steps inst j b) (last : b.next? inst = some r)
    (lands : Lands f labels next labels e r)
    (tail : ∀ w, Follows inst f labels after outer bound (w.placed f next labels) (cont w)) :
    Follows inst f labels after outer (bound + 1) a (e.andThen cont) := by
  cases e with
  | fall w =>
    have run : b.next? inst = some (.ok .next (w.placed f next labels)) :=
      last.trans (congrArg some lands)
    exact ofSteps steps (ofStep run inside (tail w))
  | branch levels label w => exact ⟨j, b, r, steps, last, lands⟩
  | ret w => exact ⟨j, b, r, steps, last, lands⟩
  | trap t store => exact ⟨j, b, r, steps, last, lands⟩

/-- A body inside of the label of its block, and what comes behind the block. -/
theorem block {c : Entered} (inside : labels ≠ [])
    (body : Follows inst f (⟨c.results, next, c.height⟩ :: labels) next labels bound a o)
    (tail : ∀ w, Follows inst f labels after outer bound (w.placed f next labels) (cont w)) :
    Follows inst f labels after outer bound a
      (o.bind fun e => (e.fromBlock c).andThen cont) := by
  cases o with
  | none => exact body
  | some e =>
    obtain ⟨k, b, r, steps, last, lands⟩ := body
    exact (andThen inside steps last (lands.fromBlock inside) tail).weaken (Nat.le_succ bound)

/-- A body inside of the label of its loop, which starts at `start`. -/
theorem loop {c : Entered} {start : Nat} {again : Workspace σ → Option (Exit σ)}
    (inside : labels ≠ [])
    (body : Follows inst f (⟨c.params, start, c.height⟩ :: labels) next labels bound a o)
    (restart : ∀ w, Follows inst f labels after outer bound (w.placed f start labels) (again w))
    (tail : ∀ w, Follows inst f labels after outer bound (w.placed f next labels) (cont w)) :
    Follows inst f labels after outer bound a
      (o.bind fun
        | .branch 0 _ w => (w.unwind c.height c.params).andThen again
        | e => (e.fromBlock c).andThen cont) := by
  cases o with
  | none => exact body
  | some e =>
    obtain ⟨k, b, r, steps, last, lands⟩ := body
    refine Follows.weaken ?_ (Nat.le_succ bound)
    cases e with
    | fall w => exact andThen (e := .fall w) inside steps last lands tail
    | branch levels label w =>
      cases levels with
      | zero => exact andThen inside steps last (lands_unwind label lands) restart
      | succ levels => exact andThen (e := .branch levels label w) inside steps last lands tail
    | ret w =>
      exact andThen (e := .ret w) inside steps last (lands_ret_cons inside lands) tail
    | trap t store => exact andThen (e := .trap t store) inside steps last lands tail

end Follows

/-! ## Placed code follows its nesting -/

theorem Forest.Placed.ne_nil {leaf : Instr → Prop} {code : Code} {ns : List Node}
    {pos after : Nat} (placed : Forest.Placed leaf code ns pos after) : ns ≠ [] := by
  cases placed <;> exact List.cons_ne_nil _ _

theorem Workspace.enter_eq (w : Workspace σ) (inst : Instance) (type : BlockType) :
    w.enter inst type = match inst.blockArity type with
      | .error t => .error t
      | .ok (params, results) =>
        if params ≤ w.stack.size then .ok ⟨params, results, w.stack.size - params⟩
        else .error .stackUnderflow := by
  unfold Workspace.enter
  cases inst.blockArity type with
  | error t => rfl
  | ok p =>
    change (if p.1 ≤ w.stack.size then _ else _) = if p.1 ≤ w.stack.size then _ else _
    split <;> rfl

section Placed

variable {inst : Instance} {f : Frame} {pos : Nat} {labels : List Label}

theorem Workspace.next?_placed (inst : Instance) (labels : List Label) {i : Instr}
    (here : f.code[pos]? = some i) (w : Workspace σ) :
    (w.placed f pos labels).next? inst = some (i.exec inst (w.placed f (pos + 1) labels)) := by
  change (f.code[pos]?).map _ = _
  rw [here]
  rfl

theorem Instr.exec_block_placed (w : Workspace σ) (type : BlockType) (target : Nat) :
    (Instr.block type target).exec inst (w.placed f pos labels) = match w.enter inst type with
      | .error t => .error t (w.placed f pos labels)
      | .ok c => .ok .next (w.placed f pos (⟨c.results, target, c.height⟩ :: labels)) := by
  rw [exec_block, Workspace.enter_eq]
  cases inst.blockArity type with
  | error t => rfl
  | ok p =>
    by_cases there : p.1 ≤ w.stack.size <;> simp [Workspace.placed, Workspace.inFrame, there]

theorem Instr.exec_loop_placed (w : Workspace σ) (type : BlockType) (target : Nat) :
    (Instr.loop type target).exec inst (w.placed f pos labels) = match w.enter inst type with
      | .error t => .error t (w.placed f pos labels)
      | .ok c => .ok .next (w.placed f pos (⟨c.params, target, c.height⟩ :: labels)) := by
  rw [exec_loop, Workspace.enter_eq]
  cases inst.blockArity type with
  | error t => rfl
  | ok p =>
    by_cases there : p.1 ≤ w.stack.size <;> simp [Workspace.placed, Workspace.inFrame, there]

/-- An if without a condition to pop, or whose type is not there, traps; one that is not skipped
is entered at one of its two arms. -/
theorem Instr.exec_ifThen_placed (w : Workspace σ) (type : BlockType) (target elseTarget : Nat) :
    (Instr.ifThen type target elseTarget).exec inst (w.placed f pos labels) =
      match w.stack.back? with
      | none => .error .stackUnderflow (w.placed f pos labels)
      | some cond =>
        let v := { w with stack := w.stack.pop }
        match inst.blockArity type with
        | .error t => .error t (v.placed f pos labels)
        | .ok _ =>
          if cond.u32.toNat = 0 ∧ elseTarget = target then .ok .next (v.placed f target labels)
          else match v.enter inst type with
            | .error t => .error t (v.placed f pos labels)
            | .ok c => .ok .next (v.placed f (if cond.u32.toNat = 0 then elseTarget else pos)
                (⟨c.results, target, c.height⟩ :: labels)) := by
  rw [exec_ifThen]
  change (match w.stack.back? with | none => _ | some cond => _) = _
  cases w.stack.back? with
  | none => rfl
  | some cond =>
    simp only [Workspace.enter_eq]
    cases inst.blockArity type with
    | error t => rfl
    | ok p =>
      by_cases skip : cond.u32.toNat = 0 ∧ elseTarget = target
      · simp [Workspace.placed, Workspace.inFrame, skip]
      · by_cases there : p.1 ≤ w.stack.size - 1 <;>
          simp [Workspace.placed, Workspace.inFrame, skip, there]

/-- What a step that enters a block, or an arm of an if, is followed by. -/
theorem Follows.entering {a : Activation σ} {v : Workspace σ} {type : BlockType}
    {start next after bound : Nat} {outer : List Label} {o : Option (Exit σ)}
    {cont : Workspace σ → Option (Exit σ)} (inside : labels ≠ [])
    (step : a.next? inst = some (match v.enter inst type with
      | .error t => .error t (v.placed f pos labels)
      | .ok c => .ok .next (v.placed f start (⟨c.results, next, c.height⟩ :: labels))))
    (body : ∀ l, Follows inst f (l :: labels) next labels bound
      (v.placed f start (l :: labels)) o)
    (tail : ∀ w, Follows inst f labels after outer bound (w.placed f next labels) (cont w)) :
    Follows inst f labels after outer (bound + 1) a (match v.enter inst type with
      | .error t => some (.trap t v.store)
      | .ok c => o.bind fun e => (e.fromBlock c).andThen cont) := by
  cases entered : v.enter inst type with
  | error t =>
    rw [entered] at step
    exact ⟨0, a, _, .refl a, step, _, rfl⟩
  | ok c =>
    rw [entered] at step
    exact .ofStep step (List.cons_ne_nil _ _) (.block inside (body _) tail)

/-- An if is followed by one of its arms, or by what comes behind it if it is skipped. -/
theorem Follows.ofIf {type : BlockType} {thenArm elseArm rest : List Node}
    {elsePos next after bound : Nat} {outer : List Label} (inside : labels ≠ [])
    (here : f.code[pos]? = some (.ifThen type next elsePos)) (nonempty : thenArm ≠ [])
    (skips : elseArm = [] ↔ elsePos = next)
    (body : ∀ (v : Workspace σ) (l : Label), Follows inst f (l :: labels) next labels bound
      (v.placed f (pos + 1) (l :: labels)) (Forest.run inst bound thenArm v))
    (other : elseArm ≠ [] → ∀ (v : Workspace σ) (l : Label), Follows inst f (l :: labels) next
      labels bound (v.placed f elsePos (l :: labels)) (Forest.run inst bound elseArm v))
    (tail : ∀ w : Workspace σ, Follows inst f labels after outer bound (w.placed f next labels)
      (Forest.run inst bound rest w)) (w : Workspace σ) :
    Follows inst f labels after outer (bound + 1) (w.placed f pos labels)
      (Forest.run inst (bound + 1) (.ifThen type thenArm elseArm :: rest) w) := by
  have step := w.next?_placed inst labels here
  rw [Instr.exec_ifThen_placed] at step
  rw [Forest.run]
  cases top : w.stack.back? with
  | none =>
    rw [top] at step
    exact ⟨0, _, _, .refl _, step, _, rfl⟩
  | some cond =>
    simp only [top] at step ⊢
    cases arity : inst.blockArity type with
    | error t =>
      rw [arity] at step
      exact ⟨0, _, _, .refl _, step, _, rfl⟩
    | ok p =>
      simp only [arity] at step ⊢
      by_cases false : cond.u32.toNat = 0
      · by_cases empty : elseArm = []
        · simp only [false, skips.mp empty, and_self, if_true] at step
          simp only [false, empty, ne_eq, not_true_eq_false, if_false, List.isEmpty_nil, if_true]
          exact .ofStep step inside (tail _)
        · simp only [false, mt skips.mpr empty, and_false, if_true, if_false] at step
          simp only [false, ne_eq, not_true_eq_false, if_false,
            List.isEmpty_eq_false_iff.mpr empty, Bool.false_eq_true]
          exact .entering inside step (other empty _) tail
      · simp only [false, false_and, if_false] at step
        simp only [false, ne_eq, not_false_eq_true, if_true,
          List.isEmpty_eq_false_iff.mpr nonempty, Bool.false_eq_true, if_false]
        exact .entering inside step (body _) tail

/-- A frame that runs a placed sequence follows the structured run of it. -/
theorem Forest.follows (bound : Nat) {ns : List Node} {after : Nat} {l : Label}
    (placed : Forest.Placed (fun i => i.isCall = false) f.code ns pos after) (w : Workspace σ) :
    Follows inst f (l :: labels) after labels bound (w.placed f pos (l :: labels))
      (Forest.run inst bound ns w) := by
  -- the bound goes down by one with each instruction, also where a loop starts again
  induction bound generalizing ns pos after l labels w with
  | zero =>
    obtain ⟨n, rest, rfl⟩ := List.exists_cons_of_ne_nil placed.ne_nil
    exact ⟨0, _, Nat.le_refl 0, .refl _⟩
  | succ bound ih =>
    have inside : l :: labels ≠ [] := List.cons_ne_nil _ _
    cases placed with
    | endOf here =>
      simp only [Forest.run, Instr.exit, Exit.andThen, Forest.run_nil]
      exact ⟨0, _, _, .refl _, w.next?_placed inst _ here, Instr.exec_endOf inst _⟩
    | elseArm here =>
      simp only [Forest.run, Instr.exit, Exit.andThen, Forest.run_nil]
      exact ⟨0, _, _, .refl _, w.next?_placed inst _ here, Instr.exec_elseArm inst _ _⟩
    | instr plain noCall here rest =>
      rw [Forest.run]
      exact .andThen inside (.refl _) (w.next?_placed inst _ here)
        (Instr.exit_lands inst f w (pos + 1) _ plain noCall inside) fun w => ih rest w
    | block here body rest =>
      have step := w.next?_placed inst (l :: labels) here
      rw [Instr.exec_block_placed] at step
      rw [Forest.run]
      exact .entering inside step (fun _ => ih body w) (ih rest)
    | loop here body rest =>
      have step := w.next?_placed inst (l :: labels) here
      rw [Instr.exec_loop_placed] at step
      rw [Forest.run]
      cases entered : w.enter inst _ with
      | error t =>
        rw [entered] at step
        exact ⟨0, _, _, .refl _, step, _, rfl⟩
      | ok c =>
        rw [entered] at step
        exact .ofStep step (List.cons_ne_nil _ _)
          (.loop inside (ih body w) (ih (.loop here body rest)) (ih rest))
    | @ifThen _ _ _ _ next _ here body rest =>
      have skips : ([] : List Node) = [] ↔ next = next := ⟨fun _ => rfl, fun _ => rfl⟩
      exact .ofIf inside here body.ne_nil skips (fun v _ => ih body v) (absurd rfl) (ih rest) w
    | @ifElse _ _ alternative _ _ elsePos next _ here apart body other rest =>
      have skips : alternative = [] ↔ elsePos = next :=
        ⟨fun empty => absurd empty other.ne_nil, fun same => absurd same apart⟩
      exact .ofIf inside here body.ne_nil skips (fun v _ => ih body v) (fun _ v _ => ih other v)
        (ih rest) w

end Placed

end WasmMachine
