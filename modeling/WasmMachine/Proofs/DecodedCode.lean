import WasmMachine.Binary.Instr
import WasmMachine.Proofs.Nesting

/-!
# Decoded code comes from bodies

The decoder hands instructions to a flattener one after the other, and the nesting is never built.
Still there is a body behind every sequence that is closed: `Flattener.Wrote` finds, at each
moment, the nodes that have been written so far in the constructs that are open, and the `endOf`
that closes the sequence completes them to a body (`Decoder.exists_body_of_sequence`).  So its
targets agree with its nesting (`Decoder.sequence_resolved`).
-/

namespace WasmMachine

variable {leaf : Instr → Prop}

/-! ## Constructs that are being written -/

/-- A construct that is open, with the part of it that is complete. -/
inductive Opening where
  | block (type : BlockType)
  | loop (type : BlockType)
  | thenArm (type : BlockType)
  | elseArm (type : BlockType) (first : List Node) (target : Nat)

namespace Opening

/-- Write what a construct begins with. -/
def enter (f : Flattener) : Opening → Except FlattenError Flattener
  | .block type => f.push (.block type 0)
  | .loop type => f.push (.loop type 0)
  | .thenArm type => f.push (.ifThen type 0 0)
  | .elseArm type first target => do
    (← f.push (.ifThen type 0 0)).pushForest (first ++ [.instr (.elseArm target)])

/-- The construct, once its last sequence has been written. -/
def close (nodes : List Node) : Opening → Node
  | .block type => .block type (nodes ++ [.instr .endOf])
  | .loop type => .loop type (nodes ++ [.instr .endOf])
  | .thenArm type => .ifThen type (nodes ++ [.instr .endOf]) []
  | .elseArm type first target =>
    .ifThen type (first ++ [.instr (.elseArm target)]) (nodes ++ [.instr .endOf])

/-- The complete part is well formed. -/
def WellFormed (leaf : Instr → Prop) : Opening → Prop
  | .elseArm _ first _ => ∀ n ∈ first, n.WellFormed leaf
  | _ => True

theorem WellFormed.close {o : Opening} {nodes : List Node} (wf : o.WellFormed leaf)
    (each : ∀ n ∈ nodes, n.WellFormed leaf) : (o.close nodes).WellFormed leaf := by
  cases o with
  | block type => exact .block each
  | loop type => exact .loop each
  | thenArm type => exact .ifThen each
  | elseArm type first target => exact .ifElse wf each

/-- A construct is written by what it begins with, its last sequence and the `endOf`. -/
theorem pushNode_close (o : Opening) (nodes : List Node) (f : Flattener) :
    f.pushNode (o.close nodes) = o.enter f >>= fun g =>
      g.pushForest (nodes ++ [.instr .endOf]) := by
  cases o with
  | block type => rfl
  | loop type => rfl
  | thenArm type =>
    rw [close, Flattener.pushNode, enter]
    cases f.push (.ifThen type 0 0) with
    | error e => rfl
    | ok g =>
      change (g.pushForest _ >>= fun h => h.pushForest []) = g.pushForest _
      cases g.pushForest (nodes ++ [.instr .endOf]) <;> rfl
  | elseArm type first target =>
    rw [close, Flattener.pushNode, enter]
    cases f.push (.ifThen type 0 0) <;> rfl

end Opening

/-! ## What a flattener has written -/

/-- How a flattener has come about: for each open construct, the innermost first, the nodes that
stand before it and the construct; then the nodes of the sequence that is being written. -/
inductive Flattener.Wrote (leaf : Instr → Prop) :
    List (List Node × Opening) → List Node → Flattener → Prop
  | outermost {nodes : List Node} {f : Flattener} :
    (∀ n ∈ nodes, n.WellFormed leaf) → (Flattener.start 0).pushForest nodes = .ok f →
    Wrote leaf [] nodes f
  | inside {path : List (List Node × Opening)} {before nodes : List Node} {o : Opening}
    {f g h : Flattener} :
    Wrote leaf path before f → o.WellFormed leaf → o.enter f = .ok g →
    (∀ n ∈ nodes, n.WellFormed leaf) → g.pushForest nodes = .ok h →
    Wrote leaf ((before, o) :: path) nodes h

/-- What a flattener keeps of an open construct. -/
def Opening.Kept (f : Flattener) : Opening → OpenConstruct → Prop
  | .block _, c => c = .block f.code.size
  | .loop _, c => c = .loop
  | .thenArm _, c => c = .ifThen f.code.size none
  | .elseArm .., c => ∃ elsePos, c = .ifThen f.code.size (some elsePos)

/-- Writing well-formed nodes leaves the open constructs alone. -/
theorem Flattener.pushForest_keeps {nodes : List Node} {f g : Flattener}
    (wf : ∀ n ∈ nodes, n.WellFormed leaf) (run : f.pushForest nodes = .ok g) :
    g.opened = f.opened ∧ g.closed = f.closed := by
  rw [Flattener.pushForest_eq_extend f 0 fun n mem => (wf n mem).laysOut] at run
  cases run
  exact ⟨rfl, rfl⟩

theorem Opening.enter_opens {o : Opening} {f g : Flattener} (wf : o.WellFormed leaf)
    (run : o.enter f = .ok g) :
    (∃ c, g.opened = c :: f.opened ∧ o.Kept f c) ∧ g.closed = f.closed := by
  cases o with
  | block type =>
    cases run
    exact ⟨⟨_, rfl, rfl⟩, rfl⟩
  | loop type =>
    cases run
    exact ⟨⟨_, rfl, rfl⟩, rfl⟩
  | thenArm type =>
    cases run
    exact ⟨⟨_, rfl, rfl⟩, rfl⟩
  | elseArm type first target =>
    rw [enter, Flattener.enter_ifThen] at run
    change Flattener.pushForest _ _ = _ at run
    rw [Flattener.pushForest_within f 0 _ _ [] fun n mem => (wf n mem).laysOut] at run
    cases run
    exact ⟨⟨_, rfl, _, rfl⟩, rfl⟩

/-- A flattener that is writing a sequence has as many constructs open as there are around it. -/
theorem Flattener.Wrote.opened {path : List (List Node × Opening)} {nodes : List Node}
    {f : Flattener} (wrote : Wrote leaf path nodes f) :
    f.closed = false ∧ match path with
      | [] => f.opened = []
      | (_, o) :: _ => ∃ g c rest, f.opened = c :: rest ∧ o.Kept g c := by
  induction wrote with
  | outermost wf run =>
    obtain ⟨opened, closed⟩ := Flattener.pushForest_keeps wf run
    exact ⟨closed, opened⟩
  | inside _ wfOpening entered wf run ih =>
    obtain ⟨opened, closed⟩ := Flattener.pushForest_keeps wf run
    obtain ⟨⟨c, opens, kept⟩, same⟩ := Opening.enter_opens wfOpening entered
    exact ⟨by rw [closed, same, ih.1], _, c, _, opened.trans opens, kept⟩

theorem Flattener.Wrote.snoc {path : List (List Node × Opening)} {nodes : List Node} {n : Node}
    {f g : Flattener} (wrote : Wrote leaf path nodes f) (wf : n.WellFormed leaf)
    (run : f.pushNode n = .ok g) : Wrote leaf path (nodes ++ [n]) g := by
  have single : f.pushForest [n] = .ok g := by
    rw [Flattener.pushForest, run]
    rfl
  cases wrote with
  | outermost each before =>
    refine .outermost (List.forall_mem_append.mpr ⟨each, by simpa using wf⟩) ?_
    rw [Flattener.pushForest_append, before]
    exact single
  | inside outer wfOpening entered each before =>
    refine .inside outer wfOpening entered
      (List.forall_mem_append.mpr ⟨each, by simpa using wf⟩) ?_
    rw [Flattener.pushForest_append, before]
    exact single

/-- A flattener is writing a sequence, or it has written a body and is closed. -/
def Flattener.Sound (leaf : Instr → Prop) (f : Flattener) : Prop :=
  (∃ path nodes, Wrote leaf path nodes f) ∨
    f.closed = true ∧ ∃ nodes, Forest.IsBody leaf nodes ∧
    (Flattener.start 0).pushForest nodes = .ok f

section Push

variable {path : List (List Node × Opening)} {nodes : List Node} {f g : Flattener}

theorem Flattener.Wrote.pushElse {target : Nat} (wrote : Wrote leaf path nodes f)
    (run : f.push (.elseArm target) = .ok g) : g.Sound leaf := by
  have opened := wrote.opened.2
  obtain ⟨pos, outside, waits, -⟩ := Flattener.exists_of_push_elseArm run
  cases wrote with
  | outermost each before =>
    rw [waits] at opened
    cases opened
  | @inside path before _ o h k _ outer wfOpening entered each written =>
    obtain ⟨_, c, rest, opens, kept⟩ := opened
    rw [waits] at opens
    cases opens
    cases o with
    | block type => cases kept
    | loop type => cases kept
    | elseArm type first target =>
      obtain ⟨elsePos, same⟩ := kept
      cases same
    | thenArm type =>
      have divided : (Opening.elseArm type nodes target).enter h = .ok g := by
        have begun : h.push (.ifThen type 0 0) = .ok k := entered
        change (h.push (.ifThen type 0 0) >>= fun k =>
          k.pushForest (nodes ++ [.instr (.elseArm target)])) = _
        rw [begun]
        change k.pushForest _ = _
        rw [Flattener.pushForest_append, written]
        change f.pushForest _ = _
        rw [Flattener.pushForest_instr]
        exact run
      have wfOpening : (Opening.elseArm type nodes target).WellFormed leaf := each
      exact .inl ⟨_, [], .inside outer wfOpening divided
        (fun _ mem => absurd mem List.not_mem_nil)
        rfl⟩

theorem Flattener.Wrote.pushEnd (wrote : Wrote leaf path nodes f)
    (run : f.push .endOf = .ok g) : g.Sound leaf := by
  have opened := wrote.opened.2
  cases wrote with
  | outermost each before =>
    refine .inr ⟨?_, nodes ++ [.instr .endOf], ⟨nodes, rfl, each⟩, ?_⟩
    · cases run
      rw [Flattener.close]
      simp only [Flattener.emit, opened]
    · rw [Flattener.pushForest_append, before]
      exact (Flattener.pushForest_instr f .endOf).trans run
  | @inside path before _ o h k _ outer wfOpening entered each written =>
    have closed : h.pushNode (o.close nodes) = .ok g := by
      rw [Opening.pushNode_close, entered]
      change k.pushForest _ = _
      rw [Flattener.pushForest_append, written]
      exact (Flattener.pushForest_instr f .endOf).trans run
    exact .inl ⟨_, _, outer.snoc (wfOpening.close each) closed⟩

/-- One more instruction, whatever it is. -/
theorem Flattener.Wrote.push {i : Instr} (wrote : Wrote leaf path nodes f)
    (isLeaf : i.isStructural = false → leaf i) (run : f.push i = .ok g) : g.Sound leaf := by
  have opening (o : Opening) (wf : o.WellFormed leaf) (entered : o.enter f = .ok g) :
      g.Sound leaf :=
    .inl ⟨_, [], .inside wrote wf entered (fun _ mem => absurd mem List.not_mem_nil) rfl⟩
  cases i with
  | block type target => exact opening (.block type) trivial run
  | loop type target => exact opening (.loop type) trivial run
  | ifThen type target elseTarget => exact opening (.thenArm type) trivial run
  | elseArm target => exact wrote.pushElse run
  | endOf => exact wrote.pushEnd run
  | _ => exact .inl ⟨_, _, wrote.snoc (.instr rfl (isLeaf rfl)) run⟩

end Push

/-! ## Decoded sequences -/

/-- The code of a sequence is that of a body. -/
theorem Decoder.exists_body_of_sequenceFrom {f : Flattener} {s t : Input} {code : Code}
    (sound : f.Sound fun _ => True) (run : sequenceFrom f s = .ok (code, t)) :
    ∃ nodes, Forest.IsBody (fun _ => True) nodes ∧ flatten nodes 0 = .ok code := by
  fun_induction sequenceFrom f s with
  | case1 f s closed =>
    cases run
    rcases sound with ⟨path, nodes, wrote⟩ | ⟨-, nodes, body, written⟩
    · rw [wrote.opened.1] at closed
      cases closed
    · refine ⟨nodes, body, ?_⟩
      rw [flatten_eq_pushForest, written]
      rfl
  | case2 => cases run
  | case3 => cases run
  | case4 f s opened i t decoded g pushed ih =>
    refine ih ?_ run
    rcases sound with ⟨path, nodes, wrote⟩ | ⟨closed, -⟩
    · exact wrote.push (fun _ => trivial) pushed
    · exact absurd closed opened

theorem Decoder.exists_body_of_sequence {s t : Input} {code : Code}
    (run : sequence.run s = .ok (code, t)) :
    ∃ nodes, Forest.IsBody (fun _ => True) nodes ∧ flatten nodes 0 = .ok code :=
  exists_body_of_sequenceFrom
    (.inl ⟨[], [], .outermost (fun _ mem => absurd mem List.not_mem_nil) rfl⟩) run

theorem Decoder.sequence_resolved {s t : Input} {code : Code}
    (run : sequence.run s = .ok (code, t)) : code.Resolved := by
  obtain ⟨nodes, body, flat⟩ := exists_body_of_sequence run
  rw [body.flatten_eq] at flat
  cases flat
  exact body.resolved _

end WasmMachine
