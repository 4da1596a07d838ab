import WasmMachine.Proofs.Pushes

/-!
# The targets of flat code

The flat code of a forest has an instruction for each node, in the order in which the nodes are
written, and where a branch goes can be read off the nodes: a node at index `p` takes up as many
instructions as `Node.count` says, so the `endOf` of a construct is the last of them.

* `Forest.Has`: a node and its index among the instructions of a forest.
* `Forest.WellFormed.resolves`: the targets of every construct of a well-formed forest.
* `Flattener.Relocated`: two flatteners that differ in their base alone.  What they have emitted
  differs as much, except for the targets that are still open.
* `flatten_resolves`: how `flatten` depends on the forest and on the base.
-/

namespace WasmMachine

/-! ## Nodes and their indices -/

/-- A sequence of well-formed nodes, with or without the `endOf` of the sequence itself. -/
def Forest.WellFormed (leaf : Instr → Prop) (nodes : List Node) : Prop :=
  ∃ inner, (nodes = inner ∨ nodes = inner ++ [.instr .endOf]) ∧ ∀ n ∈ inner, n.WellFormed leaf

/-- A node of a forest, and the index of the first instruction that is written for it. -/
inductive Forest.Has : List Node → Nat → Node → Prop
  | first {n : Node} {ns : List Node} : Has (n :: ns) 0 n
  | later {n m : Node} {ns : List Node} {p : Nat} : Has ns p m → Has (n :: ns) (n.count + p) m
  | block {type : BlockType} {body ns : List Node} {p : Nat} {m : Node} :
    Has body p m → Has (.block type body :: ns) (1 + p) m
  | loop {type : BlockType} {body ns : List Node} {p : Nat} {m : Node} :
    Has body p m → Has (.loop type body :: ns) (1 + p) m
  | thenArm {type : BlockType} {thenArm elseArm ns : List Node} {p : Nat} {m : Node} :
    Has thenArm p m → Has (.ifThen type thenArm elseArm :: ns) (1 + p) m
  | elseArm {type : BlockType} {thenArm elseArm ns : List Node} {p : Nat} {m : Node} :
    Has elseArm p m →
    Has (.ifThen type thenArm elseArm :: ns) (1 + Forest.count thenArm + p) m

variable {leaf : Instr → Prop}

/-- A node that is well-formed, or one that terminates a sequence. -/
def Node.InPlace (leaf : Instr → Prop) (n : Node) : Prop :=
  n.WellFormed leaf ∨ n = .instr .endOf ∨ ∃ target, n = .instr (.elseArm target)

theorem Node.inPlace_of_terminated {body : List Node} {i : Instr}
    (wf : ∀ n ∈ body, n.WellFormed leaf) (ends : (Node.instr i).InPlace leaf) :
    ∀ n ∈ body ++ [.instr i], n.InPlace leaf := by
  intro n mem
  rcases List.mem_append.mp mem with inner | last
  · exact .inl (wf n inner)
  · rw [List.mem_singleton] at last
    rwa [last]

theorem Forest.WellFormed.inPlace {nodes : List Node} (wf : Forest.WellFormed leaf nodes) :
    ∀ n ∈ nodes, n.InPlace leaf := by
  obtain ⟨inner, rfl | rfl, wf⟩ := wf
  · exact fun n mem => .inl (wf n mem)
  · exact Node.inPlace_of_terminated wf (.inr (.inl rfl))

/-- What a construct contains is in place if the construct is. -/
theorem Node.InPlace.parts {n : Node} (inPlace : n.InPlace leaf) :
    match n with
    | .instr _ => True
    | .block _ body => ∀ n ∈ body, n.InPlace leaf
    | .loop _ body => ∀ n ∈ body, n.InPlace leaf
    | .ifThen _ thenArm elseArm =>
      (∀ n ∈ thenArm, n.InPlace leaf) ∧ ∀ n ∈ elseArm, n.InPlace leaf := by
  rcases inPlace with wf | rfl | ⟨target, rfl⟩
  · cases wf with
    | instr => trivial
    | block wf => exact inPlace_of_terminated wf (.inr (.inl rfl))
    | loop wf => exact inPlace_of_terminated wf (.inr (.inl rfl))
    | ifThen wf =>
      refine ⟨inPlace_of_terminated wf (.inr (.inl rfl)), ?_⟩
      intro n mem
      cases mem
    | ifElse wf wf' =>
      exact ⟨inPlace_of_terminated wf (.inr (.inr ⟨_, rfl⟩)),
        inPlace_of_terminated wf' (.inr (.inl rfl))⟩
  · trivial
  · trivial

theorem Forest.Has.inPlace {nodes : List Node} {p : Nat} {n : Node} (has : Forest.Has nodes p n)
    (each : ∀ n ∈ nodes, n.InPlace leaf) : n.InPlace leaf := by
  induction has with
  | first => exact each _ List.mem_cons_self
  | later _ ih => exact ih fun m mem => each m (.tail _ mem)
  | block _ ih => exact ih (each _ List.mem_cons_self).parts
  | loop _ ih => exact ih (each _ List.mem_cons_self).parts
  | thenArm _ ih => exact ih (each _ List.mem_cons_self).parts.1
  | elseArm _ ih => exact ih (each _ List.mem_cons_self).parts.2

/-- Code that holds the layout of a forest holds that of each of its nodes at its index. -/
theorem Forest.Has.holds {nodes : List Node} {p : Nat} {n : Node} (has : Forest.Has nodes p n)
    {code : Code} {base pos next : Nat}
    (holds : code.Holds pos (Forest.layout next (base + pos) nodes)) :
    ∃ next, code.Holds (pos + p) (n.layout next (base + (pos + p))) := by
  induction has generalizing pos next with
  | first => exact ⟨next, holds.left⟩
  | @later n m ns p has ih =>
    have behind := holds.right
    rw [Node.length_layout, Nat.add_assoc] at behind
    have found := ih behind
    rwa [Nat.add_assoc] at found
  | block _ ih | loop _ ih =>
    have found := ih holds.left.tail
    rwa [Nat.add_assoc] at found
  | thenArm _ ih =>
    have found := ih holds.left.tail.left
    rwa [Nat.add_assoc] at found
  | @elseArm type thenArm elseArm ns p m has ih =>
    have arm := holds.left.tail.right
    rw [Forest.length_layout] at arm
    have start : base + pos + Forest.count thenArm + 1 =
        base + (pos + 1 + Forest.count thenArm) := by
      omega
    rw [start] at arm
    have found := ih arm
    have index : pos + 1 + Forest.count thenArm + p = pos + (1 + Forest.count thenArm + p) := by
      omega
    rwa [index] at found

/-! ## Targets -/

/-- The targets of a construct at index `p` are right: its `endOf` is its last instruction, and
the instruction between its arms follows the first of them. -/
def Node.Resolved (code : Code) (base p : Nat) : Node → Prop
  | .instr i => code[p]?.map Instr.bare = some i.bare
  | .block type body => ∃ e, e = p + Forest.count body ∧ code[e]? = some .endOf ∧
      code[p]? = some (.block type (base + e + 1))
  | .loop type body => ∃ e, e = p + Forest.count body ∧ code[e]? = some .endOf ∧
      code[p]? = some (.loop type (base + p))
  | .ifThen type thenArm elseArm => ∃ q e elseTarget, q = p + Forest.count thenArm ∧
      e = q + Forest.count elseArm ∧ code[e]? = some .endOf ∧
      code[p]? = some (.ifThen type (base + e + 1) elseTarget) ∧
      (elseArm = [] → elseTarget = base + e + 1) ∧
      (elseArm ≠ [] → elseTarget = base + q + 1 ∧ code[q]? = some (.elseArm (base + e + 1))) ∧
      (elseTarget = base + e + 1 ↔ elseArm = [])

/-- The terminator of a sequence is the last of its instructions. -/
theorem Code.Holds.last {code : Code} {next pos start e : Nat} {body : List Node} {i : Instr}
    (holds : code.Holds pos (Forest.layout next start (body ++ [.instr i])))
    (ends : e + 1 = pos + Forest.count (body ++ [.instr i])) :
    code[e]? = some (i.withTargets next next) := by
  rw [Forest.layout_append] at holds
  have last := holds.right
  rw [Forest.length_layout] at last
  rw [Forest.count_append, Forest.count_instr, ← Nat.add_assoc, Nat.add_right_cancel_iff] at ends
  rw [ends]
  exact last.head

/-- Code that holds the layout of a node has its targets right. -/
theorem Node.InPlace.resolved {n : Node} (inPlace : n.InPlace leaf) {code : Code}
    {base p next : Nat} (holds : code.Holds p (n.layout next (base + p))) :
    n.Resolved code base p := by
  rcases inPlace with wf | rfl | ⟨target, rfl⟩
  · cases wf with
    | @instr i plain =>
      rw [Node.Resolved, holds.head, Option.map_some, Instr.bare_withTargets]
    | @block type body =>
      refine ⟨_, rfl, holds.tail.last (Nat.add_right_comm ..), ?_⟩
      rw [← Nat.add_assoc]
      exact holds.head
    | @loop type body =>
      exact ⟨_, rfl, holds.tail.last (Nat.add_right_comm ..), holds.head⟩
    | @ifThen type body =>
      have head := holds.head
      rw [Nat.add_assoc base] at head
      refine ⟨_, _, _, rfl, rfl, holds.tail.left.last ?_, head, fun _ => rfl,
        fun some => absurd rfl some, fun _ => rfl, fun _ => rfl⟩
      rw [Forest.count_nil, Nat.add_zero, Nat.add_right_comm]
    | @ifElse type body alternative target =>
      have some : alternative ++ [.instr .endOf] ≠ [] :=
        List.append_ne_nil_of_right_ne_nil _ (List.cons_ne_nil _ _)
      have head := holds.head
      have arms := holds.tail
      have between := arms.left.last (Nat.add_right_comm ..)
      have second := arms.right
      rw [Forest.length_layout] at second
      have positive : 0 < Forest.count (alternative ++ [.instr .endOf]) := by
        rw [Forest.count_append, Forest.count_instr]
        exact Nat.succ_pos _
      rw [Node.Resolved]
      generalize Forest.count (body ++ [.instr (.elseArm target)]) = thenCount at *
      have next_eq : base + p + thenCount + 1 + Forest.count (alternative ++ [.instr .endOf])
          = base + (p + thenCount + Forest.count (alternative ++ [.instr .endOf])) + 1 := by omega
      rw [next_eq, Nat.add_assoc base p] at head
      rw [next_eq] at between
      refine ⟨_, _, _, rfl, rfl, ?_, head, fun none => absurd none some,
        fun _ => ⟨rfl, between⟩, ?_⟩
      · exact second.last (by omega)
      · constructor
        · intro same
          omega
        · exact fun none => absurd none some
  · have head := holds.head
    rw [Node.Resolved, head]
    rfl
  · have head := holds.head
    rw [Node.Resolved, head]
    rfl

/-- A well-formed forest flattens to its layout. -/
theorem Forest.WellFormed.flatten_eq {nodes : List Node} (wf : Forest.WellFormed leaf nodes)
    (base : Nat) :
    flatten nodes base = .ok (Forest.layout (base + Forest.count nodes) base nodes).toArray := by
  obtain ⟨inner, rfl | rfl, wf⟩ := wf
  · have laidOut := Flattener.pushForest_eq_extend (.start base) (base + Forest.count nodes)
      fun n mem => (wf n mem).laysOut
    rw [flatten_eq_pushForest, laidOut]
    simp [Functor.map, Except.map, Flattener.extend, Flattener.start, Flattener.here]
  · exact Forest.IsBody.flatten_eq ⟨inner, rfl, wf⟩ base

/-- A forest that flattens has the instructions that are written for it, with other targets. -/
theorem flatten_bare {nodes : List Node} {base : Nat} {code : Code}
    (flat : flatten nodes base = .ok code) :
    code.toList.map Instr.bare = (Forest.written nodes).map Instr.bare := by
  rw [flatten_eq_pushForest, Flattener.pushForest_eq_foldlM] at flat
  cases pushed : (Forest.written nodes).foldlM Flattener.push (.start base) with
  | error e =>
    rw [pushed] at flat
    cases flat
  | ok f =>
    rw [pushed] at flat
    cases flat
    exact (Flattener.tracks_of_foldlM pushed).bare

/-- The flat code of a well-formed forest. -/
theorem Forest.WellFormed.resolves {nodes : List Node} (wf : Forest.WellFormed leaf nodes)
    (base : Nat) :
    ∃ code, flatten nodes base = .ok code ∧ code.size = Forest.count nodes ∧
      code.toList.map Instr.bare = (Forest.written nodes).map Instr.bare ∧
      ∀ p n, Forest.Has nodes p n → n.Resolved code base p := by
  have flat := wf.flatten_eq base
  refine ⟨_, flat, ?_, flatten_bare flat, ?_⟩
  · rw [List.size_toArray, Forest.length_layout]
  · intro p n has
    have whole : Code.Holds (Forest.layout (base + Forest.count nodes) base nodes).toArray 0
        (Forest.layout (base + Forest.count nodes) (base + 0) nodes) := List.prefix_refl _
    obtain ⟨next, holds⟩ := has.holds whole
    rw [Nat.zero_add] at holds
    exact (has.inPlace wf.inPlace).resolved holds

/-! ## The base -/

/-- An instruction with its targets moved. -/
def Instr.relocate (k : Nat) : Instr → Instr
  | .block type target => .block type (target + k)
  | .loop type target => .loop type (target + k)
  | .ifThen type target elseTarget => .ifThen type (target + k) (elseTarget + k)
  | .elseArm target => .elseArm (target + k)
  | i => i

theorem Instr.relocate_of_not_structural {i : Instr} (plain : i.isStructural = false) (k : Nat) :
    i.relocate k = i := by
  cases i with
  | block | loop | ifThen | elseArm | endOf => cases plain
  | _ => rfl

theorem Instr.relocate_withTargets (i : Instr) (target elseTarget k : Nat) :
    (i.withTargets target elseTarget).relocate k = i.withTargets (target + k)
    (elseTarget + k) := by
  cases i <;> rfl

namespace OpenConstruct

variable {c : OpenConstruct} {base next p : Nat} {i : Instr}

theorem fill_of_not_mem (outside : p ∉ c.positions) : c.fill base next p i = i := by
  cases c with
  | block pos => exact if_neg (by simpa [positions] using outside)
  | loop => rfl
  | ifThen pos elsePos =>
    cases elsePos with
    | none => exact if_neg (by simpa [positions] using outside)
    | some q =>
      obtain ⟨notIf, notElse⟩ : p ≠ pos ∧ p ≠ q := by simpa [positions] using outside
      rw [fill, if_neg notIf, if_neg notElse]

/-- What is filled in is moved with the base. -/
theorem relocate_fill (kept : p ∈ c.positions) (k : Nat) :
    (c.fill base next p i).relocate k = c.fill (base + k) (next + k) p i := by
  cases c with
  | block pos =>
    obtain rfl : p = pos := by simpa [positions] using kept
    simp only [fill, if_true, Instr.relocate_withTargets]
  | loop => cases kept
  | ifThen pos elsePos =>
    cases elsePos with
    | none =>
      obtain rfl : p = pos := by simpa [positions] using kept
      simp only [fill, if_true, Instr.relocate_withTargets]
    | some q =>
      have moved : base + k + q + 1 = base + q + 1 + k := by omega
      simp only [fill, moved]
      rcases (by simpa [positions] using kept : p = pos ∨ p = q) with rfl | rfl
      · simp only [if_true, Instr.relocate_withTargets]
      · split <;> simp only [if_true, Instr.relocate_withTargets]

end OpenConstruct

namespace Flattener

/-- The positions that are kept about the open constructs. -/
def positions (f : Flattener) : List Nat := f.opened.flatMap OpenConstruct.positions

/-- Nothing is kept twice, and nothing about what is not yet there. -/
structure Apart (f : Flattener) : Prop where
  nodup : f.positions.Nodup
  inside : ∀ p ∈ f.positions, p < f.code.size

variable {f g f' g' : Flattener} {i : Instr} {k : Nat}

theorem size_close (f : Flattener) : f.close.code.size = f.code.size := by
  have lengths := congrArg List.length (bare_close f)
  rwa [List.length_map, List.length_map, Array.length_toList, Array.length_toList] at lengths

theorem apart_start (base : Nat) : (start base).Apart :=
  ⟨List.nodup_nil, fun _ mem => absurd mem List.not_mem_nil⟩

theorem positions_of_cons {c : OpenConstruct} {outside : List OpenConstruct}
    (opened : f.opened = c :: outside) :
    f.positions = c.positions ++ outside.flatMap OpenConstruct.positions := by
  rw [positions, opened, List.flatMap_cons]

/-- One more instruction, and what is kept about it or about an earlier one. -/
theorem Apart.emit (apart : f.Apart) (i : Instr) {opened : List OpenConstruct}
    (nodup : (opened.flatMap OpenConstruct.positions).Nodup)
    (kept : ∀ p ∈ opened.flatMap OpenConstruct.positions, p = f.code.size ∨ p ∈ f.positions) :
    Apart { f.emit i with opened } := by
  refine ⟨nodup, ?_⟩
  intro p mem
  have size : (f.emit i).code.size = f.code.size + 1 := Array.size_push _
  change p < (f.emit i).code.size
  rw [size]
  rcases kept p mem with rfl | old
  · exact Nat.lt_succ_self _
  · exact Nat.lt_succ_of_lt (apart.inside p old)

theorem Apart.push (apart : f.Apart) (pushes : f.Pushes i g) : g.Apart := by
  have fresh : f.code.size ∉ f.positions := fun mem => Nat.lt_irrefl _ (apart.inside _ mem)
  cases pushes with
  | plain => exact apart.emit _ apart.nodup fun p mem => .inr mem
  | block | ifThen =>
    refine apart.emit _ (List.nodup_cons.mpr ⟨fresh, apart.nodup⟩) ?_
    exact fun p mem => List.mem_cons.mp mem
  | loop => exact apart.emit _ apart.nodup fun p mem => .inr mem
  | @elseArm target pos outside opened =>
    have before := positions_of_cons opened
    have nodup := apart.nodup
    rw [before] at nodup fresh
    simp only [OpenConstruct.positions, Option.toList_none, List.singleton_append,
      List.nodup_cons, List.mem_cons, not_or] at nodup fresh
    obtain ⟨notIf, notOutside⟩ := fresh
    refine apart.emit _ ?_ ?_
    · simp [OpenConstruct.positions, Ne.symm notIf, nodup, notOutside]
    · intro p mem
      rw [before]
      simp only [List.flatMap_cons, OpenConstruct.positions, Option.toList_some,
        Option.toList_none, List.mem_append, List.mem_cons, List.not_mem_nil, or_false] at mem ⊢
      rcases mem with (rfl | rfl) | old
      · exact .inr (.inl rfl)
      · exact .inl rfl
      · exact .inr (.inr old)
  | endOf =>
    have emitted : (f.emit .endOf).Apart := apart.emit _ apart.nodup fun p mem => .inr mem
    have sublist : (f.emit .endOf).close.positions.Sublist (f.emit .endOf).positions := by
      rw [positions, positions, opened_close]
      cases (f.emit .endOf).opened with
      | nil => exact .refl _
      | cons c outside => exact List.sublist_append_right _ _
    refine ⟨emitted.nodup.sublist sublist, ?_⟩
    intro p mem
    rw [size_close]
    exact emitted.inside p (sublist.subset mem)

/-- Two flatteners at different bases: what they have emitted differs in the targets, but for
those that are still to be filled in. -/
structure Relocated (k : Nat) (f g : Flattener) : Prop where
  base : g.base = f.base + k
  opened : g.opened = f.opened
  closed : g.closed = f.closed
  size : g.code.size = f.code.size
  code : ∀ p : Nat, g.code[p]? = f.code[p]?.map fun i => if p ∈ f.positions then
    i else i.relocate k

theorem relocated_start (base k : Nat) : Relocated k (start base) (start (base + k)) :=
  ⟨rfl, rfl, rfl, rfl, fun _ => rfl⟩

/-- One more instruction in both. -/
theorem Relocated.emit (related : Relocated k f g) {i j : Instr}
    {opened opened' : List OpenConstruct} (both : opened' = opened)
    (same : ∀ p, p < f.code.size →
      (p ∈ opened.flatMap OpenConstruct.positions ↔ p ∈ f.positions))
    (last : j = if f.code.size ∈ opened.flatMap OpenConstruct.positions then i
      else i.relocate k) :
    Relocated k { f.emit i with opened } { g.emit j with opened := opened' } where
  base := related.base
  opened := both
  closed := related.closed
  size := by
    have size := related.size
    simp [Flattener.emit, size]
  code p := by
    change (g.code.push j)[p]? = (f.code.push i)[p]?.map _
    rw [Array.getElem?_push, Array.getElem?_push, related.size]
    split
    · next eq =>
      rw [last, eq]
      rfl
    · rw [related.code]
      rcases Nat.lt_or_ge p f.code.size with inside | outside
      · refine congrArg (Option.map · f.code[p]?) (funext fun i => ?_)
        exact ite_congr (propext (same p inside).symm) (fun _ => rfl) fun _ => rfl
      · rw [Array.getElem?_eq_none outside]
        rfl

theorem Relocated.close (related : Relocated k f g) (apart : f.Apart)
    (found : ∀ c outside, f.opened = c :: outside → c.Found f.code)
    (found' : ∀ c outside, g.opened = c :: outside → c.Found g.code) :
    Relocated k f.close g.close where
  base := by rw [base_close, base_close, related.base]
  opened := by rw [opened_close, opened_close, related.opened]
  closed := by
    rw [Bool.eq_iff_iff, closed_close_iff, closed_close_iff, related.closed, related.opened]
  size := by rw [size_close, size_close, related.size]
  code p := by
    have opened' := related.opened
    have before := related.code p
    cases opened : f.opened with
    | nil =>
      rw [opened] at opened'
      have kept : f.close.positions = f.positions := by
        rw [positions, positions, opened_close, opened]
        rfl
      rw [kept, Flattener.close, Flattener.close, opened, opened']
      exact before
    | cons c outside =>
      rw [opened] at opened'
      have positions_close : f.close.positions = outside.flatMap OpenConstruct.positions := by
        rw [positions, opened_close, opened, List.tail_cons]
      have nodup := apart.nodup
      rw [positions_of_cons opened] at before nodup
      obtain ⟨own, -, disjoint⟩ := List.nodup_append.mp nodup
      rw [getElem?_close opened own (found c outside opened),
        getElem?_close opened' own (found' c outside opened'), before, related.base, related.size,
        positions_close, Option.map_map, Option.map_map, Nat.add_right_comm f.base k]
      congr 1
      funext i
      dsimp only [Function.comp_apply]
      by_cases kept : p ∈ c.positions
      · -- what is filled in is no longer open
        have gone : p ∉ outside.flatMap OpenConstruct.positions := fun mem =>
          disjoint p kept p mem rfl
        rw [if_pos (List.mem_append_left _ kept), if_neg gone, OpenConstruct.relocate_fill kept]
      · simp only [OpenConstruct.fill_of_not_mem kept, List.mem_append, kept, false_or]

/-- Pushes at different bases go the same way. -/
theorem Relocated.push {is : List Instr} (related : Relocated k f g) (apart : f.Apart)
    (tracks : f.Tracks is) (tracks' : g.Tracks is) (pushes : f.Pushes i f') :
    ∃ g', g.push i = .ok g' ∧ Relocated k f' g' := by
  have fresh : f.code.size ∉ f.positions := fun mem => Nat.lt_irrefl _ (apart.inside _ mem)
  have stays : ∀ p, p < f.code.size → (p ∈ f.code.size :: f.positions ↔ p ∈ f.positions) := by
    intro p inside
    rw [List.mem_cons]
    exact or_iff_right (Nat.ne_of_lt inside)
  cases pushes with
  | plain plain =>
    refine ⟨_, push_of_not_structural g plain,
      related.emit related.opened (fun _ _ => Iff.rfl) ?_⟩
    rw [Instr.relocate_of_not_structural plain, ite_self]
  | block =>
    refine ⟨_, push_block g _ _, related.emit ?_ stays (if_pos List.mem_cons_self).symm⟩
    rw [related.opened, related.size]
  | ifThen =>
    refine ⟨_, push_ifThen g _ _ _, related.emit ?_ stays (if_pos List.mem_cons_self).symm⟩
    rw [related.opened, related.size]
  | loop =>
    refine ⟨_, push_loop g _ _, related.emit ?_ (fun _ _ => Iff.rfl) ?_⟩
    · rw [related.opened]
    · rw [related.base, related.size, Nat.add_right_comm]
      exact (if_neg fresh).symm
  | @elseArm target pos outside opened =>
    have opened' := related.opened
    rw [opened] at opened'
    have before := positions_of_cons opened
    refine ⟨_, push_elseArm opened' target, related.emit ?_ ?_ ?_⟩
    · rw [related.size]
    · intro p inside
      rw [before]
      simp [OpenConstruct.positions, Nat.ne_of_lt inside]
    · refine (if_pos ?_).symm
      simp [OpenConstruct.positions]
  | endOf =>
    have emitted : Relocated k (f.emit .endOf) (g.emit .endOf) :=
      related.emit related.opened (fun _ _ => Iff.rfl) (ite_self _).symm
    exact ⟨_, push_endOf g, emitted.close (apart.emit _ apart.nodup fun p mem => .inr mem)
      (fun c outside opened => tracks.found opened .endOf)
      (fun c outside opened => tracks'.found opened .endOf)⟩

theorem Relocated.push_error (related : Relocated k f g) {e : FlattenError}
    (failed : f.push i = .error e) : g.push i = .error e := by
  rw [push_eq_error_iff] at failed ⊢
  rwa [related.opened]

theorem Relocated.foldlM {taken : List Instr} (related : Relocated k f g) (apart : f.Apart)
    (tracks : f.Tracks taken) (tracks' : g.Tracks taken) (is : List Instr) :
    (∃ e, is.foldlM Flattener.push f = .error e ∧ is.foldlM Flattener.push g = .error e) ∨
    ∃ f' g', is.foldlM Flattener.push f = .ok f' ∧ is.foldlM Flattener.push g = .ok g' ∧
      Relocated k f' g' := by
  induction is generalizing f g taken with
  | nil => exact .inr ⟨f, g, rfl, rfl, related⟩
  | cons i is ih =>
    rw [List.foldlM_cons, List.foldlM_cons]
    cases first : f.push i with
    | error e =>
      rw [related.push_error first]
      exact .inl ⟨e, rfl, rfl⟩
    | ok f' =>
      have pushes := pushes_of_push first
      obtain ⟨g', second, related'⟩ := related.push apart tracks tracks' pushes
      rw [second]
      exact ih related' (apart.push pushes) (tracks.push pushes)
        (tracks'.push (pushes_of_push second))

end Flattener

/-- The number of constructs of a forest that nothing ends. -/
def Forest.unended (nodes : List Node) : Nat := (Forest.written nodes).foldl Instr.level 0

/-- The flat code of a forest whose constructs all end is moved with its base. -/
theorem flatten_relocate {nodes : List Node} (ended : Forest.unended nodes = 0) (base k : Nat) :
    flatten nodes (base + k) = (Array.map (Instr.relocate k)) <$> flatten nodes base := by
  have start := Flattener.relocated_start base k
  rw [flatten_eq_pushForest, flatten_eq_pushForest, Flattener.pushForest_eq_foldlM,
    Flattener.pushForest_eq_foldlM]
  rcases start.foldlM (Flattener.apart_start base) (.start base) (.start (base + k))
      (Forest.written nodes) with
    ⟨e, first, second⟩ | ⟨f, g, first, second, related⟩
  · rw [first, second]
    rfl
  · have depth := (Flattener.tracks_of_foldlM first).depth
    rw [Code.level_length, ← Forest.unended, ended] at depth
    have opened : f.opened = [] := List.length_eq_zero_iff.mp depth
    have code : g.code = f.code.map (Instr.relocate k) := by
      apply Array.ext_getElem?
      intro p
      have at' := related.code p
      rw [Flattener.positions, opened] at at'
      rw [at', Array.getElem?_map]
      rfl
    rw [first, second]
    exact congrArg Except.ok code

/-- What `flatten` makes of a forest.  A well-formed one has all its targets resolved; any other
is taken like the instructions that are written for it, one after another; and where everything
that is opened is ended, the base is added to the targets and to nothing else. -/
theorem flatten_resolves :
    (∀ nodes, Forest.WellFormed (fun _ => True) nodes → ∀ base, ∃ code,
      flatten nodes base = .ok code ∧ code.size = Forest.count nodes ∧
      code.toList.map Instr.bare = (Forest.written nodes).map Instr.bare ∧
      ∀ p n, Forest.Has nodes p n → n.Resolved code base p) ∧
    (∀ nodes base, flatten nodes base
      = (·.code) <$> (Forest.written nodes).foldlM Flattener.push (.start base)) ∧
    (∀ nodes base k, Forest.unended nodes = 0 →
      flatten nodes (base + k) = Array.map (Instr.relocate k) <$> flatten nodes base) := by
  refine ⟨?_, ?_, ?_⟩
  · intro nodes wf base
    exact wf.resolves base
  · intro nodes base
    rw [flatten_eq_pushForest, Flattener.pushForest_eq_foldlM]
  · intro nodes base k ended
    exact flatten_relocate ended base k

/-- An if with two arms, at position 100 and moved there from the start. -/
theorem flatten_resolves_of_arms :
    let nodes : List Node := [.ifThen .empty [.instr .nop, .instr (.elseArm 0)]
      [.instr .nop, .instr .endOf], .instr .nop, .instr .endOf]
    Forest.WellFormed (fun _ => True) nodes ∧ Forest.unended nodes = 0 ∧
    (∃ code, flatten nodes 100 = .ok code ∧ code.size = 7 ∧
      code[0]? = some (.ifThen .empty 105 103) ∧ code[2]? = some (.elseArm 105)) ∧
    flatten nodes (0 + 100) = Array.map (Instr.relocate 100) <$> flatten nodes 0 := by
  intro nodes
  have arms : Node.WellFormed (fun _ => True)
      (.ifThen .empty ([.instr .nop] ++ [.instr (.elseArm 0)])
        ([.instr .nop] ++ [.instr .endOf])) :=
    .ifElse (by simpa using .instr rfl trivial) (by simpa using .instr rfl trivial)
  have wf : Forest.WellFormed (fun _ => True) nodes := by
    refine ⟨[.ifThen .empty [.instr .nop, .instr (.elseArm 0)] [.instr .nop, .instr .endOf],
      .instr .nop], .inr rfl, ?_⟩
    intro n mem
    rcases List.mem_cons.mp mem with rfl | rest
    · exact arms
    · obtain rfl := List.mem_singleton.mp rest
      exact .instr rfl trivial
  obtain ⟨resolved, -, moved⟩ := flatten_resolves
  obtain ⟨code, flat, size, -, targets⟩ := resolved nodes wf 100
  obtain ⟨q, e, elseTarget, rfl, rfl, -, opening, -, divided, -⟩ := targets 0 _ .first
  obtain ⟨rfl, between⟩ := divided (List.cons_ne_nil _ _)
  exact ⟨wf, rfl, ⟨code, flat, size, opening, between⟩, moved nodes 0 100 rfl⟩

end WasmMachine
