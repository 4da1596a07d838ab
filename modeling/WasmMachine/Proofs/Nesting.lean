import WasmMachine.Proofs.Layout

/-!
# The nesting of flat code

Flat code still says which constructs enclose a position: going through the instructions before
it, each construct that is opened puts its target on a list and each `endOf` takes one off
(`Code.enclosing`).  In the code of a body the targets agree with that list: a branch that leaves
some constructs arrives where just these are no longer open (`Code.Resolved.enclosing_target`).
-/

namespace WasmMachine

/-! ## Enclosing constructs -/

/-- The targets of the constructs that are open behind an instruction. -/
def Instr.nest (outside : List Nat) : Instr → List Nat
  | .block _ target | .loop _ target | .ifThen _ target _ => target :: outside
  | .endOf => outside.tail
  | _ => outside

/-- The targets of the constructs that enclose a position, the innermost first. -/
def Code.enclosing (code : Code) (pc : Nat) : List Nat :=
  (code.toList.take pc).foldl Instr.nest []

section Enclosing

variable {code : Code} {pc : Nat}

@[simp] theorem Code.enclosing_zero : code.enclosing 0 = [] := rfl

theorem Code.enclosing_succ {i : Instr} (here : code[pc]? = some i) :
    code.enclosing (pc + 1) = i.nest (code.enclosing pc) := by
  have here' : code.toList[pc]? = some i := by rwa [Array.getElem?_toList]
  unfold Code.enclosing
  rw [List.take_add_one, here', List.foldl_append]
  rfl

theorem Code.enclosing_succ_of_le (outside : code.size ≤ pc) :
    code.enclosing (pc + 1) = code.enclosing pc := by
  unfold Code.enclosing
  rw [List.take_of_length_le (Nat.le_succ_of_le outside), List.take_of_length_le outside]

end Enclosing

/-! ## Resolved code -/

/-- An instruction agrees with the constructs around its position. -/
def Code.Fits (code : Code) (pc : Nat) : Instr → Prop
  | .block _ target | .loop _ target =>
    pc + 1 < code.size ∧ target < code.size ∧ code.enclosing target = code.enclosing pc
  | .ifThen _ target elseTarget =>
    pc + 1 < code.size ∧ target < code.size ∧ code.enclosing target = code.enclosing pc ∧
      (elseTarget = target ∨
        elseTarget < code.size ∧ code.enclosing elseTarget = target :: code.enclosing pc)
  | .elseArm target =>
    target < code.size ∧ code.enclosing pc = target :: code.enclosing target
  | .endOf => code.enclosing pc ≠ [] → pc + 1 < code.size
  | _ => pc + 1 < code.size

/-- Code in which every instruction agrees with the constructs around it. -/
structure Code.Resolved (code : Code) : Prop where
  nonempty : 0 < code.size
  fits : ∀ {pc : Nat} {i : Instr}, code[pc]? = some i → code.Fits pc i

/-- Constructs within one another: where each of them leads, just those around it are open. -/
inductive Code.Nested (code : Code) : List Nat → Prop
  | nil : Nested code []
  | cons {target : Nat} {outside : List Nat} :
    target < code.size → code.enclosing target = outside → Nested code outside →
    Nested code (target :: outside)

theorem Code.Nested.target {code : Code} {targets : List Nat} {level target : Nat}
    (nested : code.Nested targets) (found : targets[level]? = some target) :
    target < code.size ∧ code.enclosing target = targets.drop (level + 1) := by
  induction nested generalizing level with
  | nil => cases found
  | cons inside encloses _ ih =>
    cases level with
    | zero =>
      cases found
      exact ⟨inside, encloses⟩
    | succ level => exact ih found

theorem Code.Nested.tail {code : Code} {targets : List Nat} (nested : code.Nested targets) :
    code.Nested targets.tail := by
  cases nested with
  | nil => exact .nil
  | cons _ _ outside => exact outside

namespace Code.Resolved

variable {code : Code}

theorem nested (resolved : code.Resolved) (pc : Nat) : code.Nested (code.enclosing pc) := by
  induction pc with
  | zero => exact .nil
  | succ pc ih =>
    rcases Nat.lt_or_ge pc code.size with inside | outside
    · have here : code[pc]? = some code[pc] := Array.getElem?_eq_getElem inside
      have fits := resolved.fits here
      rw [Code.enclosing_succ here]
      cases instr : code[pc] with
      | block type target | loop type target =>
        rw [instr] at fits
        exact .cons fits.2.1 fits.2.2 ih
      | ifThen type target elseTarget =>
        rw [instr] at fits
        exact .cons fits.2.1 fits.2.2.1 ih
      | endOf => exact ih.tail
      | _ => exact ih
    · rwa [Code.enclosing_succ_of_le outside]

/-- Where a branch arrives, the constructs that it has left are no longer open. -/
theorem enclosing_target (resolved : code.Resolved) {pc level target : Nat}
    (found : (code.enclosing pc)[level]? = some target) :
    target < code.size ∧ code.enclosing target = (code.enclosing pc).drop (level + 1) :=
  (resolved.nested pc).target found

end Code.Resolved

/-! ## The code of a body is resolved -/

/-- The instructions of a part of the code agree with the constructs around them. -/
def Code.FitsOn (code : Code) (pos count : Nat) : Prop :=
  ∀ ⦃pc i⦄, pos ≤ pc → pc < pos + count → code[pc]? = some i → code.Fits pc i

namespace Code.FitsOn

variable {code : Code} {pos count : Nat}

theorem single {i : Instr} (here : code[pos]? = some i) (fits : code.Fits pos i) :
    code.FitsOn pos 1 := by
  intro pc j low high at_
  obtain rfl : pc = pos := by omega
  rw [here] at at_
  cases at_
  exact fits

theorem append {count' : Nat} (left : code.FitsOn pos count)
    (right : code.FitsOn (pos + count) count') : code.FitsOn pos (count + count') := by
  intro pc i low high here
  rcases Nat.lt_or_ge pc (pos + count) with inside | behind
  · exact left low inside here
  · exact right behind (by omega) here

end Code.FitsOn

/-- Some instructions from a position on that leave the nesting as it was. -/
structure Code.Balanced (code : Code) (pos count : Nat) : Prop where
  keeps : code.enclosing (pos + count) = code.enclosing pos
  fits : code.FitsOn pos count

/-- A node in the middle of some code, where something has to follow it, is balanced. -/
def Node.Balances (n : Node) : Prop :=
  ∀ ⦃code : Code⦄ ⦃pos : Nat⦄ (next : Nat), code.Holds pos (n.layout next pos) →
    pos + n.count < code.size → code.Balanced pos n.count

theorem Forest.balanced {code : Code} {ns : List Node} {pos : Nat} (next : Nat)
    (each : ∀ n ∈ ns, n.Balances) (holds : code.Holds pos (Forest.layout next pos ns))
    (followed : pos + Forest.count ns < code.size) : code.Balanced pos (Forest.count ns) := by
  induction ns generalizing pos with
  | nil => exact ⟨rfl, fun pc i low high _ => absurd high (Nat.not_lt.mpr low)⟩
  | cons n ns ih =>
    rw [Forest.layout] at holds
    rw [Forest.count] at followed ⊢
    have behind := holds.right
    rw [Node.length_layout] at behind
    have first := each n List.mem_cons_self next holds.left (by omega)
    have rest := ih (fun m mem => each m (.tail n mem)) behind (by omega)
    refine ⟨?_, first.fits.append rest.fits⟩
    rw [← Nat.add_assoc, rest.keeps, first.keeps]

/-- A sequence that ends with its terminator `endOf` leaves one construct. -/
theorem Forest.fits_endOf {code : Code} {ns : List Node} {pos : Nat} (next : Nat)
    (each : ∀ n ∈ ns, n.Balances)
    (holds : code.Holds pos (Forest.layout next pos (ns ++ [.instr .endOf])))
    (followed : code.enclosing pos ≠ [] → pos + Forest.count ns + 1 < code.size) :
    code.enclosing (pos + Forest.count ns + 1) = (code.enclosing pos).tail ∧
      code.FitsOn pos (Forest.count ns + 1) := by
  rw [Forest.layout_append] at holds
  have last := holds.right
  rw [Forest.length_layout] at last
  have here : code[pos + Forest.count ns]? = some .endOf := last.head
  have inside := (Array.getElem?_eq_some_iff.mp here).1
  have body := Forest.balanced next each holds.left inside
  have ends := Code.enclosing_succ here
  rw [body.keeps] at ends
  refine ⟨ends, body.fits.append (.single here ?_)⟩
  intro enclosed
  rw [body.keeps] at enclosed
  exact followed enclosed

/-- A construct of one sequence: what opens it, the sequence, and the `endOf`. -/
theorem Code.Balanced.ofConstruct {code : Code} {opener : Instr} {ns : List Node}
    {pos target : Nat} (next : Nat) (each : ∀ n ∈ ns, n.Balances)
    (here : code[pos]? = some opener) (opens : ∀ outside, opener.nest outside = target :: outside)
    (holds : code.Holds (pos + 1) (Forest.layout next (pos + 1) (ns ++ [.instr .endOf])))
    (followed : pos + (Forest.count ns + 2) < code.size)
    (fits : code.enclosing (pos + (Forest.count ns + 2)) = code.enclosing pos →
      code.Fits pos opener) : code.Balanced pos (Forest.count ns + 2) := by
  have opened := Code.enclosing_succ here
  rw [opens] at opened
  have shift : pos + 1 + Forest.count ns + 1 = pos + (Forest.count ns + 2) := by omega
  obtain ⟨ends, body⟩ := Forest.fits_endOf next each holds (fun _ => by omega)
  rw [opened, List.tail_cons, shift] at ends
  have whole := (Code.FitsOn.single here (fits ends)).append body
  rw [Nat.add_comm 1] at whole
  exact ⟨ends, whole⟩

/-- A construct of two sequences, which an `elseArm` divides. -/
theorem Code.Balanced.ofArms {code : Code} {type : BlockType} {thenArm elseArm : List Node}
    {pos elsePos after : Nat} (eachThen : ∀ n ∈ thenArm, n.Balances)
    (eachElse : ∀ n ∈ elseArm, n.Balances) (elseAt : elsePos = pos + 1 + Forest.count thenArm + 1)
    (endAt : after = elsePos + Forest.count elseArm + 1)
    (here : code[pos]? = some (.ifThen type after elsePos))
    (first : code.Holds (pos + 1) (Forest.layout after (pos + 1) thenArm))
    (divides : code[pos + 1 + Forest.count thenArm]? = some (.elseArm after))
    (second : code.Holds elsePos (Forest.layout after elsePos (elseArm ++ [.instr .endOf])))
    (followed : after < code.size) :
    code.Balanced pos (Forest.count thenArm + Forest.count elseArm + 3) := by
  have opened : code.enclosing (pos + 1) = after :: code.enclosing pos := Code.enclosing_succ here
  -- the then arm is left at its end with nothing but its construct open
  have left := Forest.balanced after eachThen first (by omega)
  have keeps := left.keeps
  rw [opened] at keeps
  have entered : code.enclosing elsePos = after :: code.enclosing pos := by
    rw [elseAt, Code.enclosing_succ divides]
    exact keeps
  -- and so is the else arm
  obtain ⟨ends, right⟩ := Forest.fits_endOf after eachElse second (fun _ => by omega)
  rw [entered, List.tail_cons, ← endAt] at ends
  have opener : code.Fits pos (.ifThen type after elsePos) :=
    ⟨by omega, followed, ends, .inr ⟨by omega, entered⟩⟩
  have divider : code.Fits (pos + 1 + Forest.count thenArm) (.elseArm after) := by
    refine ⟨followed, ?_⟩
    rw [keeps, ends]
  refine ⟨?_, fun pc i low high found => ?_⟩
  · have whole : pos + (Forest.count thenArm + Forest.count elseArm + 3) = after := by omega
    rw [whole, ends]
  · rcases Nat.lt_or_ge pc (pos + 1) with first | behind
    · exact Code.FitsOn.single here opener low first found
    · rcases Nat.lt_or_ge pc (pos + 1 + Forest.count thenArm) with inThen | behind
      · exact left.fits behind inThen found
      · rcases Nat.lt_or_ge pc elsePos with between | inElse
        · exact Code.FitsOn.single divides divider behind (by omega) found
        · exact right inElse (by omega) found

theorem Node.WellFormed.balances {leaf : Instr → Prop} {n : Node} (wf : n.WellFormed leaf) :
    n.Balances := by
  induction wf with
  | @instr i plain _ =>
    intro code pos next holds followed
    rw [Node.layout, Instr.withTargets_of_not_structural plain] at holds
    have here : code[pos]? = some i := holds.head
    have step := Code.enclosing_succ here
    have fits : code.Fits pos i ∧ i.nest (code.enclosing pos) = code.enclosing pos := by
      cases i with
      | block | loop | ifThen | elseArm | endOf => cases plain
      | _ => exact ⟨followed, rfl⟩
    exact ⟨step.trans fits.2, .single here fits.1⟩
  | @block type body _ ih =>
    intro code pos next holds followed
    have size : (Node.block type (body ++ [.instr .endOf])).count = Forest.count body + 2 := by
      rw [Node.count, Forest.count_append, Forest.count_instr]
    have target : pos + Forest.count (body ++ [.instr .endOf]) + 1
        = pos + (Forest.count body + 2) := by
      rw [Forest.count_append, Forest.count_instr, Nat.add_assoc]
    rw [size] at followed ⊢
    have here := holds.head
    rw [target] at here
    exact .ofConstruct _ ih here (fun _ => rfl) holds.tail followed
      fun ends => ⟨by omega, followed, ends⟩
  | @loop type body _ ih =>
    intro code pos next holds followed
    have size : (Node.loop type (body ++ [.instr .endOf])).count = Forest.count body + 2 := by
      rw [Node.count, Forest.count_append, Forest.count_instr]
    rw [size] at followed ⊢
    exact .ofConstruct _ ih holds.head (fun _ => rfl) holds.tail followed
      fun _ => ⟨by omega, by omega, rfl⟩
  | @ifThen type body _ ih =>
    intro code pos next holds followed
    have size : (Node.ifThen type (body ++ [.instr .endOf]) []).count =
        Forest.count body + 2 := by
      rw [Node.count, Forest.count_append, Forest.count_instr, Forest.count_nil, Nat.add_zero]
    have target : pos + Forest.count (body ++ [.instr .endOf]) + 1
        = pos + (Forest.count body + 2) := by
      rw [Forest.count_append, Forest.count_instr, Nat.add_assoc]
    rw [size] at followed ⊢
    have here := holds.head
    rw [target, Forest.count_nil, Nat.add_zero] at here
    exact .ofConstruct _ ih here (fun _ => rfl) holds.tail.left followed
      fun ends => ⟨by omega, followed, ends, .inl rfl⟩
  | @ifElse type body alternative target _ _ ih ih' =>
    intro code pos next holds followed
    have size : (Node.ifThen type (body ++ [.instr (.elseArm target)])
        (alternative ++ [.instr .endOf])).count
          = Forest.count body + Forest.count alternative + 3 := by
      rw [Node.count, Forest.count_append, Forest.count_append, Forest.count_instr,
        Forest.count_instr]
      omega
    have elsePos : pos + Forest.count (body ++ [.instr (.elseArm target)]) + 1
        = pos + 1 + Forest.count body + 1 := by
      rw [Forest.count_append, Forest.count_instr]
      omega
    have after : pos + 1 + Forest.count body + 1 + Forest.count (alternative ++ [.instr .endOf])
        = pos + 1 + Forest.count body + 1 + Forest.count alternative + 1 := by
      rw [Forest.count_append, Forest.count_instr, Nat.add_assoc _ (Forest.count alternative)]
    rw [size] at followed ⊢
    rw [Node.layout, elsePos, after] at holds
    have thenArm := holds.tail.left
    rw [Forest.layout_append] at thenArm
    have divides := thenArm.right
    rw [Forest.length_layout] at divides
    have elseArm := holds.tail.right
    rw [Forest.length_layout, Forest.count_append, Forest.count_instr, ← Nat.add_assoc] at elseArm
    exact .ofArms ih ih' rfl rfl holds.head thenArm.left divides.head elseArm (by omega)

/-- The flat code of a body is resolved. -/
theorem Forest.IsBody.resolved {leaf : Instr → Prop} {nodes : List Node}
    (body : Forest.IsBody leaf nodes) (next : Nat) :
    Code.Resolved (Forest.layout next 0 nodes).toArray := by
  obtain ⟨inner, rfl, wf⟩ := body
  have size : (Forest.layout next 0 (inner ++ [.instr .endOf])).toArray.size
      = 0 + Forest.count inner + 1 := by
    rw [List.size_toArray, Forest.length_layout, Forest.count_append, Forest.count_instr,
      Nat.zero_add]
  have holds : Code.Holds (Forest.layout next 0 (inner ++ [.instr .endOf])).toArray 0
      (Forest.layout next 0 (inner ++ [.instr .endOf])) := List.prefix_refl _
  obtain ⟨-, fits⟩ := Forest.fits_endOf next (fun n mem => (wf n mem).balances) holds
    (fun enclosed => absurd rfl enclosed)
  refine ⟨by omega, fun found => fits (Nat.zero_le _) ?_ found⟩
  have inside := (Array.getElem?_eq_some_iff.mp found).1
  omega

end WasmMachine
