import WasmMachine.Flatten
import WasmMachine.Proofs.Plain

/-!
# The meaning of structured code

What a forest of nodes means, said on the nesting itself: no positions, no label stack and no
frame.  A sequence runs on a `Workspace` and ends in an `Exit`: it falls through its end, it
branches a number of constructs outwards, it returns, or it traps.  A construct catches the
branches that are meant for it and passes the others on.

`Forest.run` is bounded in the number of instructions that follow one another, so that a sequence
that never ends has no exit within any bound.  `Forest.IsBody` is the shape of function bodies.
-/

namespace WasmMachine

variable {σ : Type}

/-! ## The shape of a body -/

/-- A node in which every sequence keeps its terminator and which has only leaves of a kind. -/
inductive Node.WellFormed (leaf : Instr → Prop) : Node → Prop
  | instr {i : Instr} : i.isStructural = false → leaf i → Node.WellFormed leaf (.instr i)
  | block {type : BlockType} {body : List Node} :
    (∀ n ∈ body, n.WellFormed leaf) →
    Node.WellFormed leaf (.block type (body ++ [.instr .endOf]))
  | loop {type : BlockType} {body : List Node} :
    (∀ n ∈ body, n.WellFormed leaf) →
    Node.WellFormed leaf (.loop type (body ++ [.instr .endOf]))
  | ifThen {type : BlockType} {body : List Node} :
    (∀ n ∈ body, n.WellFormed leaf) →
    Node.WellFormed leaf (.ifThen type (body ++ [.instr .endOf]) [])
  | ifElse {type : BlockType} {body alternative : List Node} {target : Nat} :
    (∀ n ∈ body, n.WellFormed leaf) → (∀ n ∈ alternative, n.WellFormed leaf) →
    Node.WellFormed leaf
      (.ifThen type (body ++ [.instr (.elseArm target)]) (alternative ++ [.instr .endOf]))

/-- The nodes of a whole sequence, with the terminator that closes it. -/
def Forest.IsBody (leaf : Instr → Prop) (nodes : List Node) : Prop :=
  ∃ inner, nodes = inner ++ [.instr .endOf] ∧ ∀ n ∈ inner, n.WellFormed leaf

/-! ## Exits -/

/-- How a sequence ends. A branch counts the constructs that are still to be left, and keeps the
number that the instruction has given it. -/
inductive Exit (σ : Type) where
  | fall (w : Workspace σ)
  | branch (levels label : Nat) (w : Workspace σ)
  | ret (w : Workspace σ)
  | trap (t : Trap) (store : Store σ)

/-- Go on in the workspace of a sequence that has fallen through its end. -/
def Exit.andThen (e : Exit σ) (next : Workspace σ → Option (Exit σ)) : Option (Exit σ) :=
  match e with
  | .fall w => next w
  | e => some e

/-- The top `count` operands. -/
def Workspace.top (w : Workspace σ) (count : Nat) : Array Value :=
  w.stack.extract (w.stack.size - count) w.stack.size

/-- Take the top operand off and go on with it. -/
def Workspace.popping (w : Workspace σ) (next : Nat → Workspace σ → Exit σ) : Exit σ :=
  match w.stack.back? with
  | none => .trap .stackUnderflow w.store
  | some v => next v.u32.toNat { w with stack := w.stack.pop }

/-- Keep the top `arity` operands and drop the others above a height. -/
def Workspace.unwind (w : Workspace σ) (height arity : Nat) : Exit σ :=
  if height + arity ≤ w.stack.size then
    .fall { w with stack := w.stack.extract 0 height ++ w.top arity }
  else
    .trap .stackUnderflow w.store

/-- A construct that has been entered: how many operands it takes and leaves, and the height of
the operands below them. -/
structure Entered where
  params : Nat
  results : Nat
  height : Nat

/-- Enter a construct, whose parameters have to be there. -/
def Workspace.enter (w : Workspace σ) (inst : Instance) (type : BlockType) :
    Except Trap Entered := do
  let (params, results) ← inst.blockArity type
  if params ≤ w.stack.size then
    return { params, results, height := w.stack.size - params }
  else
    throw .stackUnderflow

/-- What a block or an if makes of the exit of its body: a branch to it keeps its results and goes
on behind it. -/
def Exit.fromBlock (c : Entered) : Exit σ → Exit σ
  | .branch 0 _ w => w.unwind c.height c.results
  | .branch (levels + 1) label w => .branch levels label w
  | e => e

/-! ## Running -/

/-- The exit of a single instruction. A terminator falls through: what it ends is known from the
nesting. -/
def Instr.exit (inst : Instance) (i : Instr) (w : Workspace σ) : Exit σ :=
  match i with
  | .endOf | .elseArm _ => .fall w
  | .br l => .branch l.toNat l.toNat w
  | .brIf l => w.popping fun cond w => if cond ≠ 0 then .branch l.toNat l.toNat w else .fall w
  | .brTable ls fallback => w.popping fun i w =>
    .branch (ls[i]?.getD fallback).toNat (ls[i]?.getD fallback).toNat w
  | .ret => .ret w
  | i =>
    match (i.exec inst).onWorkspace w with
    | .ok _ w => .fall w
    | .error t w => .trap t w.store

namespace Forest

/-- Run a sequence of nodes; none if it takes more than `bound` instructions in a row to do so. -/
def run (inst : Instance) : Nat → List Node → Workspace σ → Option (Exit σ)
  | _, [], w => some (.fall w)
  | 0, _ :: _, _ => none
  | bound + 1, .instr i :: rest, w => (i.exit inst w).andThen (run inst bound rest)
  | bound + 1, .block type body :: rest, w =>
    match w.enter inst type with
    | .error t => some (.trap t w.store)
    | .ok c =>
      (run inst bound body w).bind fun e => (e.fromBlock c).andThen (run inst bound rest)
  | bound + 1, .loop type body :: rest, w =>
    match w.enter inst type with
    | .error t => some (.trap t w.store)
    | .ok c =>
      (run inst bound body w).bind fun
        | .branch 0 _ w =>
          -- a branch to a loop starts it again on its parameters
          (w.unwind c.height c.params).andThen (run inst bound (.loop type body :: rest))
        | e => (e.fromBlock c).andThen (run inst bound rest)
  | bound + 1, .ifThen type thenArm elseArm :: rest, w =>
    match w.stack.back? with
    | none => some (.trap .stackUnderflow w.store)
    | some cond =>
      let w := { w with stack := w.stack.pop }
      let arm := if cond.u32.toNat ≠ 0 then thenArm else elseArm
      match inst.blockArity type with
      | .error t => some (.trap t w.store)
      | .ok _ =>
        -- only an else arm that is not there is empty
        if arm.isEmpty then run inst bound rest w
        else
          match w.enter inst type with
          | .error t => some (.trap t w.store)
          | .ok c =>
            (run inst bound arm w).bind fun e => (e.fromBlock c).andThen (run inst bound rest)

theorem run_nil (inst : Instance) (bound : Nat) (w : Workspace σ) :
    run inst bound [] w = some (.fall w) := by
  cases bound <;> rfl

end Forest

/-! ## The bound -/

theorem Exit.andThen_of_le {e x : Exit σ} {f g : Workspace σ → Option (Exit σ)}
    (le : ∀ w x, f w = some x → g w = some x) (ends : e.andThen f = some x) :
    e.andThen g = some x := by
  cases e with
  | fall w => exact le w x ends
  | branch | ret | trap => exact ends

theorem bind_eq_some_of_le {α β : Type} {o p : Option α} {f g : α → Option β} {y : β}
    (le : ∀ x, o = some x → p = some x) (le' : ∀ x, f x = some y → g x = some y)
    (ends : o.bind f = some y) : p.bind g = some y := by
  obtain ⟨x, first, second⟩ := Option.bind_eq_some_iff.mp ends
  rw [le x first]
  exact le' x second

/-- The exit of a sequence does not depend on the bound that it was found with. -/
theorem Forest.run_of_le {inst : Instance} {bound bound' : Nat} (le : bound ≤ bound')
    {ns : List Node} {w : Workspace σ} {e : Exit σ} (ends : run inst bound ns w = some e) :
    run inst bound' ns w = some e := by
  induction bound generalizing bound' ns w e with
  | zero =>
    cases ns with
    | nil => rwa [run_nil] at ends ⊢
    | cons => cases ends
  | succ bound ih =>
    obtain ⟨bound', rfl⟩ := Nat.exists_eq_add_of_le' (Nat.le_trans (Nat.le_add_left 1 bound) le)
    have ih' {ns : List Node} (w : Workspace σ) (e : Exit σ)
        (ends : run inst bound ns w = some e) :
        run inst bound' ns w = some e := ih (Nat.le_of_succ_le_succ le) ends
    cases ns with
    | nil => exact ends
    | cons n rest =>
      cases n with
      | instr i =>
        rw [run] at ends ⊢
        exact Exit.andThen_of_le ih' ends
      | block type body =>
        rw [run] at ends ⊢
        cases entered : w.enter inst type with
        | error t => rwa [entered] at ends
        | ok c =>
          rw [entered] at ends
          exact bind_eq_some_of_le (ih' w) (fun e => Exit.andThen_of_le ih') ends
      | loop type body =>
        rw [run] at ends ⊢
        cases entered : w.enter inst type with
        | error t => rwa [entered] at ends
        | ok c =>
          rw [entered] at ends
          refine bind_eq_some_of_le (ih' w) (fun e ends => ?_) ends
          split at ends
          · exact Exit.andThen_of_le ih' ends
          · exact Exit.andThen_of_le ih' ends
      | ifThen type thenArm elseArm =>
        rw [run] at ends ⊢
        cases top : w.stack.back? with
        | none => rwa [top] at ends
        | some cond =>
          simp only [top] at ends ⊢
          cases arity : inst.blockArity type with
          | error t => rwa [arity] at ends
          | ok p =>
            simp only [arity] at ends ⊢
            generalize (if cond.u32.toNat ≠ 0 then thenArm else elseArm) = arm at ends ⊢
            cases empty : arm.isEmpty with
            | true =>
              rw [empty] at ends
              exact ih' _ _ ends
            | false =>
              rw [empty] at ends
              cases entered : Workspace.enter { w with stack := w.stack.pop } inst type with
              | error t => simpa [entered] using ends
              | ok c =>
                rw [entered] at ends
                exact bind_eq_some_of_le (ih' _) (fun e => Exit.andThen_of_le ih') ends

/-- The results of a function from the exit of its body, and the store that it leaves. A branch to
the level just outside all constructs returns; there is nothing further out. -/
def Exit.results (arity : Nat) : Exit σ → Except Trap (Array Value) × Store σ
  | .fall w =>
    (if arity ≤ w.stack.size then .ok (w.top arity) else .error (.resultCount w.stack.size arity),
      w.store)
  | .branch 0 _ w | .ret w =>
    (if arity ≤ w.stack.size then .ok (w.top arity) else .error .stackUnderflow, w.store)
  | .branch (_ + 1) label w => (.error (.unknownLabel label), w.store)
  | .trap t store => (.error t, store)

end WasmMachine
