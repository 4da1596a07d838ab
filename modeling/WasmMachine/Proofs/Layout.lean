import WasmMachine.Proofs.Structured

/-!
# Where flattening puts a forest

A `Flattener` emits instructions first and fills their targets in later.  `Forest.layout` says
what it comes to in the end, from the positions alone: each node has a size, and the targets of a
construct follow from where it begins and how large its parts are.

* `FlattenM.pushPending_eq`: going through the sequences that have been begun pushes the nodes of
  one after the other, as a recursion on the forest does (`flatten_eq_pushForest`).
* `Forest.IsBody.flatten_eq`: a body flattens to its layout.
* `Forest.Placed`: a sequence stands in some code, each of its constructs with the right targets.
  The relation follows the nesting and has no arithmetic in it.
* `Forest.IsBody.placed`: a body is placed in the code that it flattens to.
-/

namespace WasmMachine

/-! ## Sizes and layouts -/

mutual

/-- The number of instructions of a node. -/
def Node.count : Node → Nat
  | .instr _ => 1
  | .block _ body => Forest.count body + 1
  | .loop _ body => Forest.count body + 1
  | .ifThen _ thenArm elseArm => Forest.count thenArm + Forest.count elseArm + 1

/-- The number of instructions of a sequence of nodes. -/
def Forest.count : List Node → Nat
  | [] => 0
  | n :: ns => n.count + Forest.count ns

end

mutual

/-- The flat code of a node at position `pos`, inside a construct that ends before `next`. -/
def Node.layout (next pos : Nat) : Node → List Instr
  | .instr i => [i.withTargets next next]
  | .block type body =>
    let next := pos + Forest.count body + 1
    .block type next :: Forest.layout next (pos + 1) body
  | .loop type body =>
    .loop type pos :: Forest.layout (pos + Forest.count body + 1) (pos + 1) body
  | .ifThen type thenArm elseArm =>
    let elsePos := pos + Forest.count thenArm + 1
    let next := elsePos + Forest.count elseArm
    .ifThen type next elsePos ::
      (Forest.layout next (pos + 1) thenArm ++ Forest.layout next elsePos elseArm)

/-- The flat code of a sequence of nodes. -/
def Forest.layout (next pos : Nat) : List Node → List Instr
  | [] => []
  | n :: ns => n.layout next pos ++ Forest.layout next (pos + n.count) ns

end

mutual

theorem Node.length_layout (next pos : Nat) : ∀ n : Node, (n.layout next pos).length = n.count
  | .instr i => rfl
  | .block type body => by
    rw [Node.layout, Node.count, List.length_cons, Forest.length_layout]
  | .loop type body => by
    rw [Node.layout, Node.count, List.length_cons, Forest.length_layout]
  | .ifThen type thenArm elseArm => by
    rw [Node.layout, Node.count, List.length_cons, List.length_append, Forest.length_layout,
      Forest.length_layout]

@[simp] theorem Forest.length_layout (next pos : Nat) :
    ∀ ns : List Node, (Forest.layout next pos ns).length = Forest.count ns
  | [] => rfl
  | n :: ns => by
    rw [Forest.layout, Forest.count, List.length_append, Node.length_layout, Forest.length_layout]

end

@[simp] theorem Forest.count_append (xs ys : List Node) :
    Forest.count (xs ++ ys) = Forest.count xs + Forest.count ys := by
  induction xs with
  | nil => rw [List.nil_append, Forest.count, Nat.zero_add]
  | cons n ns ih => rw [List.cons_append, Forest.count, Forest.count, ih, Nat.add_assoc]

theorem Forest.layout_append (next pos : Nat) (xs ys : List Node) :
    Forest.layout next pos (xs ++ ys)
      = Forest.layout next pos xs ++ Forest.layout next (pos + Forest.count xs) ys := by
  induction xs generalizing pos with
  | nil => rfl
  | cons n ns ih =>
    rw [List.cons_append, Forest.layout, Forest.layout, ih, Forest.count, Nat.add_assoc,
      List.append_assoc]

@[simp] theorem Forest.count_nil : Forest.count [] = 0 := rfl

@[simp] theorem Forest.layout_nil (next pos : Nat) : Forest.layout next pos [] = [] := rfl

@[simp] theorem Forest.count_instr (i : Instr) : Forest.count [.instr i] = 1 := rfl

theorem Forest.layout_instr (next pos : Nat) (i : Instr) :
    Forest.layout next pos [.instr i] = [i.withTargets next next] := rfl

theorem Instr.withTargets_of_not_structural {i : Instr} (plain : i.isStructural = false)
    (target elseTarget : Nat) : i.withTargets target elseTarget = i := by
  cases i with
  | block | loop | ifThen | elseArm | endOf => cases plain
  | _ => rfl

/-! ## Going through a forest -/

mutual

/-- Append a node: what opens it, then what it contains. -/
def Flattener.pushNode (f : Flattener) : Node → Except FlattenError Flattener
  | .instr i => f.push i
  | .block type body => do (← f.push (.block type 0)).pushForest body
  | .loop type body => do (← f.push (.loop type 0)).pushForest body
  | .ifThen type thenArm elseArm => do
    (← (← f.push (.ifThen type 0 0)).pushForest thenArm).pushForest elseArm

/-- Append a sequence of nodes. -/
def Flattener.pushForest (f : Flattener) : List Node → Except FlattenError Flattener
  | [] => .ok f
  | n :: ns => do (← f.pushNode n).pushForest ns

end

namespace FlattenM

theorem after_bind (x : FlattenM Unit) (y : Unit → FlattenM Unit) (f : Flattener) :
    (x >>= y).after f = x.after f >>= (y ()).after := by
  simp only [after, bind, EStateM.bind]
  cases x f <;> rfl

/-- What is pending is appended one sequence after the other: the list of the sequences that have
been begun does what a recursion on the nesting does. -/
theorem pushPending_eq (pending : List (List Node)) :
    (pushPending pending).after = pending.foldlM Flattener.pushForest := by
  fun_induction pushPending pending with
  | case1 => rfl
  | case2 pending ih => exact ih
  | case3 i nodes pending ih =>
    funext f
    rw [after_bind, ih, List.foldlM_cons, Flattener.pushForest, bind_assoc]
    rfl
  | case4 type body nodes pending ih | case5 type body nodes pending ih =>
    -- what the node contains comes before the nodes behind it
    funext f
    rw [after_bind, ih, List.foldlM_cons, Flattener.pushForest, Flattener.pushNode, bind_assoc,
      bind_assoc]
    rfl
  | case6 type thenArm elseArm nodes pending ih =>
    funext f
    rw [after_bind, ih, List.foldlM_cons, Flattener.pushForest, Flattener.pushNode, bind_assoc,
      bind_assoc]
    simp only [List.foldlM_cons, bind_assoc]
    rfl

end FlattenM

theorem flatten_eq_pushForest (nodes : List Node) (base : Nat) :
    flatten nodes base = (·.code) <$> (Flattener.start base).pushForest nodes := by
  rw [flatten, FlattenM.pushPending_eq]
  exact congrArg _ (bind_pure ((Flattener.start base).pushForest nodes))

/-! ## What the flattener does -/

/-- Change the item behind the end of an array. -/
theorem modify_append_cons {α : Type} (xs : Array α) (x : α) (ys : List α) (g : α → α) :
    (xs ++ (x :: ys).toArray).modify xs.size g = xs ++ (g x :: ys).toArray := by
  apply Array.toList_inj.mp
  rw [Array.toList_modify, Array.toList_append, Array.toList_append, List.toList_toArray,
    List.toList_toArray, ← Array.length_toList]
  exact List.modifyTailIdx_add (List.modifyHead g) 0 xs.toList (x :: ys)

namespace Flattener

/-- A flattener that has emitted more. -/
def extend (f : Flattener) (part : List Instr) : Flattener :=
  { f with code := f.code ++ part.toArray }

/-- A flattener that has emitted more and is inside of one more construct. -/
def within (f : Flattener) (c : OpenConstruct) (part : List Instr) : Flattener :=
  { f.extend part with opened := c :: f.opened }

/-- The position that the next instruction gets. -/
def here (f : Flattener) : Nat := f.base + f.code.size

@[simp] theorem here_extend (f : Flattener) (part : List Instr) :
    (f.extend part).here = f.here + part.length := by
  simp [extend, here, Nat.add_assoc]

@[simp] theorem here_within (f : Flattener) (c : OpenConstruct) (part : List Instr) :
    (f.within c part).here = f.here + part.length :=
  here_extend f part

theorem extend_extend (f : Flattener) (xs ys : List Instr) :
    (f.extend xs).extend ys = f.extend (xs ++ ys) := by
  simp [extend, Array.append_assoc]

theorem within_extend (f : Flattener) (c : OpenConstruct) (xs ys : List Instr) :
    (f.within c xs).extend ys = f.within c (xs ++ ys) := by
  simp [within, extend, Array.append_assoc]

theorem pushForest_append (f : Flattener) (xs ys : List Node) :
    f.pushForest (xs ++ ys) = f.pushForest xs >>= fun g => g.pushForest ys := by
  induction xs generalizing f with
  | nil => rfl
  | cons n ns ih =>
    rw [List.cons_append, pushForest, pushForest]
    cases f.pushNode n with
    | error e => rfl
    | ok g => exact ih g

theorem pushForest_instr (f : Flattener) (i : Instr) : f.pushForest [.instr i] = f.push i := by
  rw [pushForest, pushNode]
  cases f.push i <;> rfl

/-- A node is laid out wherever it is pushed. -/
def LaysOut (n : Node) : Prop :=
  ∀ (f : Flattener) (next : Nat), f.pushNode n = .ok (f.extend (n.layout next f.here))

/-- A sequence is laid out if each of its nodes is. -/
theorem pushForest_eq_extend {ns : List Node} (f : Flattener) (next : Nat)
    (each : ∀ n ∈ ns, LaysOut n) :
    f.pushForest ns = .ok (f.extend (Forest.layout next f.here ns)) := by
  induction ns generalizing f with
  | nil => simp [pushForest, extend, Forest.layout]
  | cons n ns ih =>
    have rest := ih (f.extend (n.layout next f.here)) fun m mem => each m (.tail n mem)
    rw [here_extend, Node.length_layout, extend_extend] at rest
    rw [pushForest, each n List.mem_cons_self f next]
    exact rest

/-- A sequence inside of a construct, and what terminates it. -/
theorem pushForest_within {ns : List Node} {t : Instr} (f : Flattener) (next : Nat)
    (c : OpenConstruct) (i : Instr) (part : List Instr) (each : ∀ n ∈ ns, LaysOut n) :
    (f.within c (i :: part)).pushForest (ns ++ [.instr t])
      = (f.within c (i :: (part ++ Forest.layout next (f.here + part.length + 1) ns))).push
        t := by
  rw [pushForest_append, pushForest_eq_extend _ next each, here_within, within_extend]
  exact pushForest_instr _ t

theorem push_of_not_structural {i : Instr} (f : Flattener) (plain : i.isStructural = false) :
    f.push i = .ok (f.emit i) := by
  cases i with
  | block | loop | ifThen | elseArm | endOf => cases plain
  | _ => rfl

theorem enter_block (f : Flattener) (type : BlockType) :
    f.push (.block type 0) = .ok (f.within (.block f.code.size) [.block type 0]) := by
  simp [push_block, within, extend, emit]

theorem enter_loop (f : Flattener) (type : BlockType) :
    f.push (.loop type 0) = .ok (f.within .loop [.loop type f.here]) := by
  simp [push_loop, within, extend, emit, here]

theorem enter_ifThen (f : Flattener) (type : BlockType) :
    f.push (.ifThen type 0 0) = .ok (f.within (.ifThen f.code.size none) [.ifThen type 0 0]) := by
  simp [push_ifThen, within, extend, emit]

/-- Where the arms of an if are divided is kept for its `endOf`. -/
theorem divide_ifThen (f : Flattener) (i : Instr) (part : List Instr) (target : Nat) :
    (f.within (.ifThen f.code.size none) (i :: part)).push (.elseArm target)
      = .ok (f.within (.ifThen f.code.size (some (f.code.size + part.length + 1)))
          (i :: (part ++ [.elseArm 0]))) := by
  rw [push_elseArm rfl]
  simp [within, extend, emit, Nat.add_assoc]

theorem emit_within (f : Flattener) (c : OpenConstruct) (part : List Instr) (i : Instr) :
    (f.within c part).emit i = f.within c (part ++ [i]) := by
  simp [within, extend, emit]

/-- A patch at a position of what has been emitted since. -/
theorem patch_extend (f : Flattener) (xs ys : List Instr) (i : Instr) (fill : Instr → Instr) :
    (f.extend (xs ++ i :: ys)).patch (f.code.size + xs.length) fill
      = f.extend (xs ++ fill i :: ys) := by
  have size : (f.code ++ xs.toArray).size = f.code.size + xs.length := by simp
  have changed := modify_append_cons (f.code ++ xs.toArray) i ys fill
  rw [size] at changed
  simpa [patch, extend] using changed

/-- The `endOf` of a block patches the instruction that has opened it. -/
theorem push_endOf_block (f : Flattener) (type : BlockType) (part : List Instr) :
    (f.within (.block f.code.size) (.block type 0 :: part)).push .endOf
      = .ok (f.extend (.block type (f.here + part.length + 2) :: (part ++ [.endOf]))) := by
  have closed (part : List Instr) : (f.within (.block f.code.size) part).close
      = (f.extend part).patch f.code.size (.fillBlock (f.here + part.length)) := by
    simp [within, extend, close, here, Nat.add_assoc]
  have length : (Instr.block type 0 :: (part ++ [.endOf])).length = part.length + 2 := by simp
  rw [push_endOf, emit_within, closed, List.cons_append, length, ← Nat.add_assoc]
  exact congrArg Except.ok
    (patch_extend f [] (part ++ [Instr.endOf]) (.block type 0) (.fillBlock _))

/-- The `endOf` of a loop has nothing to patch. -/
theorem push_endOf_loop (f : Flattener) (part : List Instr) :
    (f.within .loop part).push .endOf = .ok (f.extend (part ++ [.endOf])) := by
  rw [push_endOf, emit_within]
  simp [within, extend, close]

/-- The `endOf` of an if without an else arm patches it like a block. -/
theorem push_endOf_ifThen (f : Flattener) (type : BlockType) (part : List Instr) :
    (f.within (.ifThen f.code.size none) (.ifThen type 0 0 :: part)).push .endOf
      = .ok (f.extend (.ifThen type (f.here + part.length + 2) (f.here + part.length + 2) ::
          (part ++ [.endOf]))) := by
  have closed (part : List Instr) : (f.within (.ifThen f.code.size none) part).close
      = (f.extend part).patch f.code.size
          (.fillIfThen (f.here + part.length) (f.here + part.length)) := by
    simp [within, extend, close, here, Nat.add_assoc]
  have length : (Instr.ifThen type 0 0 :: (part ++ [.endOf])).length = part.length + 2 := by simp
  rw [push_endOf, emit_within, closed, List.cons_append, length, ← Nat.add_assoc]
  exact congrArg Except.ok (patch_extend f [] (part ++ [Instr.endOf]) (.ifThen type 0 0)
    (.fillIfThen _ _))

/-- The `endOf` of an else arm patches the if and the instruction between the arms. -/
theorem push_endOf_ifElse (f : Flattener) (type : BlockType) (part rest : List Instr) :
    (f.within (.ifThen f.code.size (some (f.code.size + part.length + 1)))
        (.ifThen type 0 0 :: (part ++ .elseArm 0 :: rest))).push .endOf
      = .ok (f.extend
          (.ifThen type (f.here + part.length + rest.length + 3) (f.here + part.length + 2) ::
            (part ++ .elseArm (f.here + part.length + rest.length + 3) ::
              (rest ++ [.endOf])))) := by
  have closed (q : Nat) (part : List Instr) : (f.within (.ifThen f.code.size (some q)) part).close
      = ((f.extend part).patch f.code.size
        (.fillIfThen (f.here + part.length) (f.base + q + 1))).patch
          q (.fillElseArm (f.here + part.length)) := by
    simp [within, extend, close, patch, here, Nat.add_assoc]
  have length : (Instr.ifThen type 0 0 :: (part ++ .elseArm 0 :: (rest ++ [.endOf]))).length
      = part.length + rest.length + 3 := by
    simp
    omega
  have between : f.base + (f.code.size + part.length + 1) + 1 = f.here + part.length + 2 := by
    rw [here]
    omega
  rw [push_endOf, emit_within, closed, between, List.cons_append, List.append_assoc,
    List.cons_append, length, ← Nat.add_assoc, ← Nat.add_assoc]
  generalize f.here + part.length + rest.length + 3 = next
  have first := patch_extend f [] (part ++ .elseArm 0 :: (rest ++ [.endOf])) (.ifThen type 0 0)
    (.fillIfThen next (f.here + part.length + 2))
  have second := patch_extend f (.ifThen type next (f.here + part.length + 2) :: part)
    (rest ++ [.endOf]) (.elseArm 0) (.fillElseArm next)
  exact congrArg Except.ok ((congrArg (patch · _ _) first).trans second)

end Flattener

/-! ## Bodies -/

variable {leaf : Instr → Prop}

open Flattener in
/-- A well-formed node is laid out. -/
theorem Node.WellFormed.laysOut {n : Node} (wf : n.WellFormed leaf) : LaysOut n := by
  induction wf with
  | @instr i plain _ =>
    intro f next
    rw [Flattener.pushNode, push_of_not_structural f plain, Node.layout,
      Instr.withTargets_of_not_structural plain]
    simp [emit, extend]
  | @block type body _ ih =>
    intro f next
    rw [Flattener.pushNode, enter_block]
    change Flattener.pushForest _ _ = _
    rw [pushForest_within _ (f.here + Forest.count body + 2) _ _ _ ih, List.nil_append,
      push_endOf_block]
    simp [Node.layout, Forest.layout_append, Forest.layout_instr, Instr.withTargets,
      Nat.add_assoc]
  | @loop type body _ ih =>
    intro f next
    rw [Flattener.pushNode, enter_loop]
    change Flattener.pushForest _ _ = _
    rw [pushForest_within _ (f.here + Forest.count body + 2) _ _ _ ih, List.nil_append,
      push_endOf_loop]
    simp [Node.layout, Forest.layout_append, Forest.layout_instr, Instr.withTargets,
      Nat.add_assoc]
  | @ifThen type body _ ih =>
    intro f next
    rw [Flattener.pushNode, enter_ifThen]
    change (Flattener.pushForest _ _ >>= fun g => g.pushForest []) = _
    rw [pushForest_within _ (f.here + Forest.count body + 2) _ _ _ ih, List.nil_append,
      push_endOf_ifThen]
    simp [Node.layout, Forest.layout_append, Forest.layout_instr, Instr.withTargets,
      Nat.add_assoc, pushForest, bind, Except.bind]
  | @ifElse type body alternative target _ _ ih ih' =>
    intro f next
    have elsePos : f.here + (Forest.count body + 1) + 1 = f.here + Forest.count body + 2 := by
      omega
    have after : f.here + Forest.count body + 2 + (Forest.count alternative + 1)
        = f.here + Forest.count body + Forest.count alternative + 3 := by omega
    rw [Flattener.pushNode, enter_ifThen]
    change (Flattener.pushForest _ _ >>= fun g => g.pushForest _) = _
    rw [pushForest_within _ (f.here + Forest.count body + Forest.count alternative + 3) _ _ _ ih,
      List.nil_append, divide_ifThen]
    change Flattener.pushForest _ _ = _
    rw [pushForest_within _ (f.here + Forest.count body + Forest.count alternative + 3) _ _ _ ih',
      List.append_assoc, List.singleton_append]
    rw [← Forest.length_layout (f.here + Forest.count body + Forest.count alternative + 3)
      (f.here + 1) body, push_endOf_ifElse]
    simp only [Node.layout, Forest.layout_append, Forest.layout_instr, Instr.withTargets,
      Forest.count_append, Forest.count_instr, Forest.length_layout, List.append_assoc,
      List.singleton_append, List.length_append, List.length_cons, List.length_nil,
      elsePos, after]

/-- A body flattens to its layout. -/
theorem Forest.IsBody.flatten_eq {nodes : List Node} (body : Forest.IsBody leaf nodes)
    (base : Nat) :
    flatten nodes base
      = .ok (Forest.layout (base + Forest.count nodes) base nodes).toArray := by
  obtain ⟨inner, rfl, wf⟩ := body
  have laidOut := Flattener.pushForest_eq_extend (.start base) (base + Forest.count inner + 1)
    fun n mem => (wf n mem).laysOut
  rw [flatten_eq_pushForest, Flattener.pushForest_append, laidOut]
  change _ <$> Flattener.pushForest _ [.instr .endOf] = _
  rw [Flattener.pushForest_instr, Forest.layout_append]
  simp [Flattener.push_endOf, Flattener.close, Flattener.emit, Flattener.extend, Flattener.start,
    Flattener.here, Functor.map, Except.map, Forest.layout_instr, Instr.withTargets,
    Nat.add_assoc]

/-! ## Sequences placed in code -/

/-- The code has some instructions from a position on. -/
def Code.Holds (code : Code) (pos : Nat) (part : List Instr) : Prop :=
  part <+: code.toList.drop pos

theorem Code.Holds.left {code : Code} {pos : Nat} {xs ys : List Instr}
    (holds : code.Holds pos (xs ++ ys)) : code.Holds pos xs :=
  (List.prefix_append xs ys).trans holds

theorem Code.Holds.right {code : Code} {pos : Nat} {xs ys : List Instr}
    (holds : code.Holds pos (xs ++ ys)) : code.Holds (pos + xs.length) ys := by
  obtain ⟨rest, eq⟩ := holds
  refine ⟨rest, ?_⟩
  rw [← List.drop_drop, ← eq, List.append_assoc, List.drop_left]

theorem Code.Holds.tail {code : Code} {pos : Nat} {i : Instr} {part : List Instr}
    (holds : code.Holds pos (i :: part)) : code.Holds (pos + 1) part := by
  have split : code.Holds pos ([i] ++ part) := holds
  exact split.right

theorem Code.Holds.head {code : Code} {pos : Nat} {i : Instr} {part : List Instr}
    (holds : code.Holds pos (i :: part)) : code[pos]? = some i := by
  obtain ⟨rest, eq⟩ := holds
  have first : (code.toList.drop pos)[0]? = some i := by rw [← eq]; rfl
  rw [List.getElem?_drop, Nat.add_zero, Array.getElem?_toList] at first
  exact first

/-- A sequence with its terminator stands at `pos`, and going through its end leads to `after`. -/
inductive Forest.Placed (leaf : Instr → Prop) (code : Code) : List Node → Nat → Nat → Prop
  | endOf {pos : Nat} :
    code[pos]? = some .endOf → Placed leaf code [.instr .endOf] pos (pos + 1)
  | elseArm {pos after target : Nat} :
    code[pos]? = some (.elseArm after) → Placed leaf code [.instr (.elseArm target)] pos after
  | instr {i : Instr} {rest : List Node} {pos after : Nat} :
    i.isStructural = false → leaf i → code[pos]? = some i →
    Placed leaf code rest (pos + 1) after → Placed leaf code (.instr i :: rest) pos after
  | block {type : BlockType} {body rest : List Node} {pos next after : Nat} :
    code[pos]? = some (.block type next) →
    Placed leaf code body (pos + 1) next → Placed leaf code rest next after →
    Placed leaf code (.block type body :: rest) pos after
  | loop {type : BlockType} {body rest : List Node} {pos next after : Nat} :
    code[pos]? = some (.loop type pos) →
    Placed leaf code body (pos + 1) next → Placed leaf code rest next after →
    Placed leaf code (.loop type body :: rest) pos after
  | ifThen {type : BlockType} {body rest : List Node} {pos next after : Nat} :
    code[pos]? = some (.ifThen type next next) →
    Placed leaf code body (pos + 1) next → Placed leaf code rest next after →
    Placed leaf code (.ifThen type body [] :: rest) pos after
  | ifElse {type : BlockType} {body alternative rest : List Node} {pos elsePos next after : Nat} :
    code[pos]? = some (.ifThen type next elsePos) → elsePos ≠ next →
    Placed leaf code body (pos + 1) next → Placed leaf code alternative elsePos next →
    Placed leaf code rest next after →
    Placed leaf code (.ifThen type body alternative :: rest) pos after

/-- A node that stands before a sequence that is placed is placed with it. -/
def Node.Places (leaf : Instr → Prop) (n : Node) : Prop :=
  ∀ ⦃code : Code⦄ ⦃rest : List Node⦄ ⦃pos after : Nat⦄ (next : Nat),
    code.Holds pos (n.layout next pos) → Forest.Placed leaf code rest (pos + n.count) after →
    Forest.Placed leaf code (n :: rest) pos after

theorem Forest.placed_append {code : Code} {ns rest : List Node} {pos after : Nat} (next : Nat)
    (each : ∀ n ∈ ns, n.Places leaf) (holds : code.Holds pos (Forest.layout next pos ns))
    (placed : Forest.Placed leaf code rest (pos + Forest.count ns) after) :
    Forest.Placed leaf code (ns ++ rest) pos after := by
  induction ns generalizing pos with
  | nil => exact placed
  | cons n ns ih =>
    rw [Forest.layout] at holds
    have behind := holds.right
    rw [Node.length_layout] at behind
    rw [Forest.count, ← Nat.add_assoc] at placed
    exact each n List.mem_cons_self next holds.left
      (ih (fun m mem => each m (.tail n mem)) behind placed)

/-- A whole sequence that ends with `endOf`. -/
theorem Forest.placed_endOf {code : Code} {ns : List Node} {pos : Nat} (next : Nat)
    (each : ∀ n ∈ ns, n.Places leaf)
    (holds : code.Holds pos (Forest.layout next pos (ns ++ [.instr .endOf]))) :
    Forest.Placed leaf code (ns ++ [.instr .endOf]) pos
      (pos + Forest.count (ns ++ [.instr .endOf])) := by
  rw [Forest.layout_append] at holds
  have last := holds.right
  rw [Forest.length_layout] at last
  rw [Forest.count_append, ← Nat.add_assoc]
  exact Forest.placed_append next each holds.left (.endOf last.head)

theorem Node.WellFormed.places {n : Node} (wf : n.WellFormed leaf) : n.Places leaf := by
  induction wf with
  | @instr i plain isLeaf =>
    intro code rest pos after next holds placed
    rw [Node.layout, Instr.withTargets_of_not_structural plain] at holds
    exact .instr plain isLeaf holds.head placed
  | @block type body _ ih =>
    intro code rest pos after next holds placed
    have inside := Forest.placed_endOf _ ih holds.tail
    rw [Nat.add_right_comm] at inside
    exact .block holds.head inside placed
  | @loop type body _ ih =>
    intro code rest pos after next holds placed
    have inside := Forest.placed_endOf _ ih holds.tail
    rw [Nat.add_right_comm] at inside
    exact .loop holds.head inside placed
  | @ifThen type body _ ih =>
    intro code rest pos after next holds placed
    have inside := Forest.placed_endOf _ ih holds.tail.left
    rw [Nat.add_right_comm] at inside
    exact .ifThen holds.head inside placed
  | @ifElse type body alternative target _ _ ih ih' =>
    intro code rest pos after next holds placed
    have arms := holds.tail
    have second := arms.right
    rw [Forest.length_layout, Nat.add_right_comm] at second
    have first := arms.left
    rw [Forest.layout_append] at first
    have between := first.right
    rw [Forest.length_layout] at between
    have apart : pos + Forest.count (body ++ [.instr (.elseArm target)]) + 1
        ≠ pos + Forest.count (body ++ [.instr (.elseArm target)]) + 1
          + Forest.count (alternative ++ [.instr .endOf]) := by
      rw [Forest.count_append alternative, Forest.count_instr]
      omega
    have close : pos + (Forest.count (body ++ [.instr (.elseArm target)])
          + Forest.count (alternative ++ [.instr .endOf]) + 1)
        = pos + Forest.count (body ++ [.instr (.elseArm target)]) + 1
          + Forest.count (alternative ++ [.instr .endOf]) := by
      omega
    rw [Node.count, close] at placed
    exact .ifElse holds.head apart (Forest.placed_append _ ih first.left (.elseArm between.head))
      (Forest.placed_endOf _ ih' second) placed

/-- A body is placed in its own code, and going through its end leads to the end of the code. -/
theorem Forest.IsBody.placed {nodes : List Node} (body : Forest.IsBody leaf nodes) (next : Nat) :
    Forest.Placed leaf (Forest.layout next 0 nodes).toArray nodes 0 (Forest.count nodes) := by
  obtain ⟨inner, rfl, wf⟩ := body
  have holds : Code.Holds (Forest.layout next 0 (inner ++ [.instr .endOf])).toArray 0
      (Forest.layout next 0 (inner ++ [.instr .endOf])) := List.prefix_refl _
  have placed := Forest.placed_endOf next (fun n mem => (wf n mem).places) holds
  rwa [Nat.zero_add] at placed

end WasmMachine
