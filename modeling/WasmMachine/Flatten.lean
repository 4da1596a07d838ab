import WasmMachine.Instr

/-!
# Flattening structured code

Structured control is written as nested sequences; the machine runs a flat array in which each
construct carries the positions that its branches go to.  A `Flattener` takes instructions in
the order in which they are written, keeps the constructs that are still open, and fills in the
targets of each when its `endOf` arrives.  `flatten` goes through a `Node` forest, in which the
nesting is explicit, with the sequences that it has begun on a list of its own.

An instruction's own targets are ignored on the way in: they follow from its position.
-/

namespace WasmMachine

/-- A construct that has been entered and not yet ended. Positions are relative to the start of
the sequence. -/
inductive OpenConstruct where
  | block (pos : Nat)
  | loop
  | ifThen (pos : Nat) (elsePos : Option Nat)
  deriving DecidableEq, Repr, Inhabited

/-- How flattening fails: an `elseArm` finds no open `ifThen`, or one that has an `elseArm`. -/
inductive FlattenError where
  | unexpectedElse
  deriving DecidableEq, Repr, Inhabited

/-- The wording of the error. -/
def FlattenError.message (_ : FlattenError) : String := "else outside of an if"

/-- The state of flattening one sequence: the position of its first instruction, what has been
emitted, the open constructs from the innermost outwards, and whether the `endOf` of the
sequence itself has been seen. -/
structure Flattener where
  base : Nat
  code : Code
  opened : List OpenConstruct
  closed : Bool
  deriving DecidableEq, Repr

/-- Give an emitted instruction its targets: `target`, and for an `ifThen` also `elseTarget`. -/
def Instr.withTargets (target elseTarget : Nat) : Instr → Instr
  | .block type _ => .block type target
  | .loop type _ => .loop type target
  | .ifThen type _ _ => .ifThen type target elseTarget
  | .elseArm _ => .elseArm target
  | i => i

/-- The target of a block; any other instruction is left as it is. -/
def Instr.fillBlock (target : Nat) : Instr → Instr
  | .block type _ => .block type target
  | i => i

/-- The targets of an `ifThen`; any other instruction is left as it is. -/
def Instr.fillIfThen (target elseTarget : Nat) : Instr → Instr
  | .ifThen type _ _ => .ifThen type target elseTarget
  | i => i

/-- The target of an `elseArm`; any other instruction is left as it is. -/
def Instr.fillElseArm (target : Nat) : Instr → Instr
  | .elseArm _ => .elseArm target
  | i => i

namespace Flattener

/-- An empty sequence whose first instruction sits at `base`. -/
def start (base : Nat) : Flattener := ⟨base, #[], [], false⟩

/-- The number of open constructs. -/
def depth (f : Flattener) : Nat := f.opened.length

/-- Fill in the targets of the instruction at a position of the sequence. -/
def patch (f : Flattener) (pos : Nat) (fill : Instr → Instr) : Flattener :=
  { f with code := f.code.modify pos fill }

/-- Append an instruction. -/
def emit (f : Flattener) (i : Instr) : Flattener := { f with code := f.code.push i }

/-- End the innermost open construct, now that the next position is known; with none open, the
sequence itself is closed. -/
def close (f : Flattener) : Flattener :=
  let next := f.base + f.code.size
  match f.opened with
  | [] => { f with closed := true }
  | .loop :: rest => { f with opened := rest }
  | .block pos :: rest => { f with opened := rest }.patch pos (.fillBlock next)
  | .ifThen pos none :: rest => { f with opened := rest }.patch pos (.fillIfThen next next)
  | .ifThen pos (some elsePos) :: rest =>
    let f := { f with opened := rest }.patch pos (.fillIfThen next (f.base + elsePos + 1))
    f.patch elsePos (.fillElseArm next)

end Flattener

/-- What is done to a flattener. A failure leaves one behind as well. -/
abbrev FlattenM := EStateM FlattenError Flattener

namespace FlattenM

/-- Append an instruction. -/
def emit (i : Instr) : FlattenM Unit := modify (·.emit i)

/-- Enter a construct. -/
def enter (c : OpenConstruct) : FlattenM Unit :=
  modify fun f => { f with opened := c :: f.opened }

/-- Begin the else arm of the innermost open construct, an `ifThen` that has none yet. -/
def divide (pos : Nat) : FlattenM Unit := do
  match (← get).opened with
  | .ifThen ifPos none :: rest =>
    modify fun f => { f with opened := .ifThen ifPos (some pos) :: rest }
  | _ => throw .unexpectedElse

/-- Append one instruction in written order. Only an `elseArm` can fail. -/
def push (i : Instr) : FlattenM Unit := do
  let f ← get
  let pos := f.code.size
  match i with
  | .block type _ =>
    enter (.block pos)
    emit (.block type 0)
  | .loop type _ =>
    enter .loop
    emit (.loop type (f.base + pos))
  | .ifThen type _ _ =>
    enter (.ifThen pos none)
    emit (.ifThen type 0 0)
  | .elseArm _ =>
    divide pos
    emit (.elseArm 0)
  | .endOf =>
    emit .endOf
    modify Flattener.close
  | i => emit i

section ElseArm

variable {f g : Flattener} {pos : Nat} {outside : List OpenConstruct}

/-- An `elseArm` belongs to the innermost open construct. -/
theorem push_elseArm (opened : f.opened = .ifThen pos none :: outside) (target : Nat) :
    push (.elseArm target) f = .ok () { f.emit (.elseArm 0) with
      opened := .ifThen pos (some f.code.size) :: outside } := by
  obtain ⟨base, code, _, closed⟩ := f
  cases opened
  rfl

theorem push_elseArm_refused (other : ∀ pos outside, f.opened ≠ .ifThen pos none :: outside)
    (target : Nat) : push (.elseArm target) f = .error .unexpectedElse f := by
  obtain ⟨base, code, opened, closed⟩ := f
  cases opened with
  | nil => rfl
  | cons c outside =>
    cases c with
    | block pos => rfl
    | loop => rfl
    | ifThen pos elsePos =>
      cases elsePos with
      | none => exact absurd rfl (other pos outside)
      | some elsePos => rfl

/-- A push that fails has changed nothing: what it can fail of comes first. -/
theorem push_unchanged {i : Instr} {e : FlattenError} (failed : push i f = .error e g) :
    g = f := by
  cases i with
  | elseArm target =>
    by_cases waits : ∃ pos outside, f.opened = .ifThen pos none :: outside
    · obtain ⟨pos, outside, opened⟩ := waits
      rw [push_elseArm opened] at failed
      cases failed
    · rw [push_elseArm_refused fun pos outside opened => waits ⟨pos, outside, opened⟩] at failed
      cases failed
      rfl
  | _ => cases failed

end ElseArm

/-- The flattener that is left behind if nothing fails. -/
def after (x : FlattenM Unit) (f : Flattener) : Except FlattenError Flattener :=
  match x f with
  | .ok _ g => .ok g
  | .error e _ => .error e

end FlattenM

/-- The flattener behind one more instruction. -/
def Flattener.push (f : Flattener) (i : Instr) : Except FlattenError Flattener :=
  (FlattenM.push i).after f

namespace Flattener

variable (f : Flattener)

theorem push_block (type : BlockType) (target : Nat) : f.push (.block type target)
    = .ok { f.emit (.block type 0) with opened := .block f.code.size :: f.opened } := rfl

theorem push_loop (type : BlockType) (target : Nat) : f.push (.loop type target)
    = .ok { f.emit (.loop type (f.base + f.code.size)) with opened := .loop :: f.opened } := rfl

theorem push_ifThen (type : BlockType) (target elseTarget : Nat) :
    f.push (.ifThen type target elseTarget)
      = .ok { f.emit (.ifThen type 0 0) with opened := .ifThen f.code.size none :: f.opened } :=
  rfl

theorem push_endOf : f.push .endOf = .ok (f.emit .endOf).close := rfl

variable {f} {pos : Nat} {outside : List OpenConstruct}

theorem push_elseArm (opened : f.opened = .ifThen pos none :: outside) (target : Nat) :
    f.push (.elseArm target) = .ok { f.emit (.elseArm 0) with
      opened := .ifThen pos (some f.code.size) :: outside } := by
  rw [push, FlattenM.after, FlattenM.push_elseArm opened]

theorem push_elseArm_refused (other : ∀ pos outside, f.opened ≠ .ifThen pos none :: outside)
    (target : Nat) : f.push (.elseArm target) = .error .unexpectedElse := by
  rw [push, FlattenM.after, FlattenM.push_elseArm_refused other]

theorem exists_of_push_elseArm {g : Flattener} {target : Nat}
    (pushed : f.push (.elseArm target) = .ok g) :
    ∃ pos outside, f.opened = .ifThen pos none :: outside ∧
      g = { f.emit (.elseArm 0) with opened := .ifThen pos (some f.code.size) :: outside } := by
  by_cases waits : ∃ pos outside, f.opened = .ifThen pos none :: outside
  · obtain ⟨pos, outside, opened⟩ := waits
    rw [push_elseArm opened] at pushed
    exact ⟨pos, outside, opened, (Except.ok.inj pushed).symm⟩
  · rw [push_elseArm_refused fun pos outside opened => waits ⟨pos, outside, opened⟩] at pushed
    cases pushed

end Flattener

/-- The flattener behind one more instruction, or behind the attempt to append it. -/
def Flattener.offer (f : Flattener) (i : Instr) : Flattener :=
  match FlattenM.push i f with
  | .ok _ g => g
  | .error _ g => g

/-! ## Forests -/

/-- Structured code. Each sequence keeps its terminator: a block, a loop and an else arm end with
`endOf`, and a then arm that is followed by an else arm ends with `elseArm`. -/
inductive Node where
  | instr (i : Instr)
  | block (type : BlockType) (body : List Node)
  | loop (type : BlockType) (body : List Node)
  | ifThen (type : BlockType) (thenArm elseArm : List Node)
  deriving Repr, Inhabited

theorem BlockType.sizeOf_pos (type : BlockType) : 0 < sizeOf type := by
  cases type with
  | empty => exact Nat.one_pos
  | val t => exact Nat.lt_of_lt_of_le Nat.one_pos (Nat.le_add_right 1 (sizeOf t))
  | typeIndex idx => exact Nat.lt_of_lt_of_le Nat.one_pos (Nat.le_add_right 1 (sizeOf idx))

/-- Append the nodes of the sequences that have been begun, the innermost sequence first. What a
node contains is begun when the node is met. -/
def FlattenM.pushPending : List (List Node) → FlattenM Unit
  | [] => pure ()
  | [] :: pending => pushPending pending
  | (.instr i :: nodes) :: pending => do
    push i
    pushPending (nodes :: pending)
  | (.block type body :: nodes) :: pending => do
    push (.block type 0)
    pushPending (body :: nodes :: pending)
  | (.loop type body :: nodes) :: pending => do
    push (.loop type 0)
    pushPending (body :: nodes :: pending)
  | (.ifThen type thenArm elseArm :: nodes) :: pending => do
    push (.ifThen type 0 0)
    pushPending (thenArm :: elseArm :: nodes :: pending)
termination_by pending => sizeOf pending
decreasing_by
  all_goals first
    | decreasing_tactic
    | -- both arms are begun at once
      have positive := type.sizeOf_pos
      simp
      omega

/-- The flat code of a forest whose first instruction sits at `base`, with every target filled
in. -/
def flatten (nodes : List Node) (base : Nat) : Except FlattenError Code :=
  (·.code) <$> (FlattenM.pushPending [nodes]).after (.start base)

end WasmMachine
