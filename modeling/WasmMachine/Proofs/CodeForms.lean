import WasmMachine.Proofs.InstrReads
import WasmMachine.Proofs.Layout

/-!
# The forms of instruction sequences

The form of a nested sequence is that of its instructions in the order in which they are written:
what opens a construct comes before what it contains, and the terminators are instructions
themselves.  An `Expr` is a sequence that has a form, and `Expr.code` is its flat code; the
decoder reads the form and makes the flat code of it (`Decoder.Reads.sequence`).
-/

namespace WasmMachine

/-! ## Instructions in written order -/

mutual

/-- The instructions of a node in the order in which they are written, with targets of zero. -/
def Node.written : Node → List Instr
  | .instr i => [i]
  | .block type body => .block type 0 :: Forest.written body
  | .loop type body => .loop type 0 :: Forest.written body
  | .ifThen type thenArm elseArm =>
    .ifThen type 0 0 :: (Forest.written thenArm ++ Forest.written elseArm)

/-- The instructions of a sequence of nodes. -/
def Forest.written : List Node → List Instr
  | [] => []
  | n :: ns => n.written ++ Forest.written ns

end

theorem Forest.written_append (xs ys : List Node) :
    Forest.written (xs ++ ys) = Forest.written xs ++ Forest.written ys := by
  induction xs with
  | nil => rfl
  | cons n ns ih => rw [List.cons_append, Forest.written, ih, Forest.written, List.append_assoc]

theorem Forest.written_instr (i : Instr) : Forest.written [.instr i] = [i] := rfl

mutual

/-- To push a node is to push what is written for it. -/
theorem Flattener.pushNode_eq_foldlM (f : Flattener) :
    ∀ n : Node, f.pushNode n = n.written.foldlM Flattener.push f
  | .instr i => by
    rw [pushNode, Node.written, List.foldlM_cons]
    cases f.push i <;> rfl
  | .block type body => by
    rw [pushNode, Node.written, List.foldlM_cons]
    cases f.push (.block type 0) with
    | error e => rfl
    | ok g => exact pushForest_eq_foldlM g body
  | .loop type body => by
    rw [pushNode, Node.written, List.foldlM_cons]
    cases f.push (.loop type 0) with
    | error e => rfl
    | ok g => exact pushForest_eq_foldlM g body
  | .ifThen type thenArm elseArm => by
    rw [pushNode, Node.written, List.foldlM_cons]
    cases f.push (.ifThen type 0 0) with
    | error e => rfl
    | ok g =>
      change (g.pushForest thenArm >>= fun g => g.pushForest elseArm) = _
      rw [pushForest_eq_foldlM g thenArm]
      refine Eq.trans ?_ List.foldlM_append.symm
      cases (Forest.written thenArm).foldlM Flattener.push g with
      | error e => rfl
      | ok g' => exact pushForest_eq_foldlM g' elseArm

theorem Flattener.pushForest_eq_foldlM (f : Flattener) :
    ∀ ns : List Node, f.pushForest ns = (Forest.written ns).foldlM Flattener.push f
  | [] => rfl
  | n :: ns => by
    rw [pushForest, Forest.written, pushNode_eq_foldlM f n]
    refine Eq.trans ?_ List.foldlM_append.symm
    cases n.written.foldlM Flattener.push f with
    | error e => rfl
    | ok g => exact pushForest_eq_foldlM g ns

end

/-- All instructions of a sequence have a form. -/
def Forest.Encodable (ns : List Node) : Prop := ∀ i ∈ Forest.written ns, i.Encodable

theorem Forest.Encodable.nil : Forest.Encodable [] := fun _ mem => absurd mem List.not_mem_nil

theorem Forest.Encodable.single {i : Instr} (encodable : i.Encodable) :
    Forest.Encodable [.instr i] := by
  intro j mem
  rw [Forest.written_instr, List.mem_singleton] at mem
  rwa [mem]

theorem Forest.Encodable.append {xs ys : List Node} (left : Forest.Encodable xs)
    (right : Forest.Encodable ys) : Forest.Encodable (xs ++ ys) := by
  intro i mem
  rw [Forest.written_append] at mem
  exact (List.mem_append.mp mem).elim (left i) (right i)

theorem Forest.encodable_of_each {ns : List Node}
    (each : ∀ n ∈ ns, ∀ i ∈ n.written, i.Encodable) : Forest.Encodable ns := by
  induction ns with
  | nil => exact .nil
  | cons n ns ih =>
    intro i mem
    rw [Forest.written] at mem
    rcases List.mem_append.mp mem with first | rest
    · exact each n List.mem_cons_self i first
    · exact ih (fun m mem => each m (.tail n mem)) i rest

theorem Node.WellFormed.encodable {n : Node} (wf : n.WellFormed Instr.Encodable) :
    ∀ i ∈ n.written, i.Encodable := by
  induction wf with
  | @instr i _ encodable =>
    intro j mem
    rw [Node.written, List.mem_singleton] at mem
    rwa [mem]
  | block _ ih | loop _ ih =>
    intro i mem
    rw [Node.written] at mem
    rcases List.mem_cons.mp mem with rfl | inside
    · trivial
    · exact (Forest.encodable_of_each ih).append (.single (i := .endOf) trivial) i inside
  | ifThen _ ih =>
    intro i mem
    rw [Node.written, Forest.written, List.append_nil] at mem
    rcases List.mem_cons.mp mem with rfl | inside
    · trivial
    · exact (Forest.encodable_of_each ih).append (.single (i := .endOf) trivial) i inside
  | ifElse _ _ ih ih' =>
    intro i mem
    rw [Node.written] at mem
    rcases List.mem_cons.mp mem with rfl | inside
    · trivial
    · rcases List.mem_append.mp inside with first | second
      · exact (Forest.encodable_of_each ih).append (.single (i := .elseArm _) trivial) i first
      · exact (Forest.encodable_of_each ih').append (.single (i := .endOf) trivial) i second

/-! ## Expressions -/

/-- A whole sequence whose instructions have a form. -/
structure Expr where
  nodes : List Node
  body : Forest.IsBody Instr.Encodable nodes

namespace Expr

/-- The flat code of an expression, with every target filled in. -/
def code (e : Expr) : Code := (Forest.layout (Forest.count e.nodes) 0 e.nodes).toArray

def encode (e : Expr) : List UInt8 := (Forest.written e.nodes).flatMap Instr.encode

theorem flatten_eq (e : Expr) : flatten e.nodes 0 = .ok e.code := by
  have flat := e.body.flatten_eq 0
  rwa [Nat.zero_add] at flat

theorem encodable (e : Expr) : Forest.Encodable e.nodes := by
  obtain ⟨inner, same, wf⟩ := e.body
  rw [same]
  exact (Forest.encodable_of_each fun n mem => (wf n mem).encodable).append
    (.single (i := .endOf) trivial)

theorem encode_ne_nil (e : Expr) : e.encode ≠ [] := by
  obtain ⟨inner, same, -⟩ := e.body
  rw [encode, same, Forest.written_append, List.flatMap_append]
  exact List.append_ne_nil_of_right_ne_nil _ (List.cons_ne_nil _ _)

end Expr

/-! ## Reading a sequence -/

namespace Flattener

/-- The targets of an instruction are not read. -/
theorem push_withTargets (f : Flattener) (i : Instr) (target elseTarget : Nat) :
    f.push (i.withTargets target elseTarget) = f.push i := by
  cases i <;> rfl

theorem close_closed (f : Flattener) (closed : f.closed = true) : f.close.closed = true := by
  rw [close]
  split
  · rfl
  all_goals exact closed

theorem push_closed {f g : Flattener} {i : Instr} (pushed : f.push i = .ok g)
    (closed : f.closed = true) : g.closed = true := by
  cases i with
  | endOf =>
    cases pushed
    exact close_closed _ closed
  | elseArm target =>
    obtain ⟨pos, outside, -, rfl⟩ := exists_of_push_elseArm pushed
    exact closed
  | _ =>
    cases pushed
    exact closed

/-- A sequence that is pushed is pushed one instruction after the other. -/
theorem exists_of_foldlM_cons {f g : Flattener} {i : Instr} {is : List Instr}
    (pushed : (i :: is).foldlM Flattener.push f = .ok g) :
    ∃ h, f.push i = .ok h ∧ is.foldlM Flattener.push h = .ok g := by
  rw [List.foldlM_cons] at pushed
  cases first : f.push i with
  | error e =>
    rw [first] at pushed
    cases pushed
  | ok h =>
    rw [first] at pushed
    exact ⟨h, rfl, pushed⟩

/-- A sequence that is not closed has not been closed before. -/
theorem closed_of_foldlM {f g : Flattener} {is : List Instr}
    (pushed : is.foldlM Flattener.push f = .ok g) (opened : g.closed = false) :
    f.closed = false := by
  induction is generalizing f with
  | nil =>
    cases pushed
    exact opened
  | cons i is ih =>
    obtain ⟨h, first, rest⟩ := exists_of_foldlM_cons pushed
    have still := ih rest
    cases closed : f.closed with
    | false => rfl
    | true =>
      rw [push_closed first closed] at still
      cases still

end Flattener

namespace Decoder

theorem sequenceFrom_closed {f : Flattener} (s : Input) (closed : f.closed = true) :
    sequenceFrom f s = .ok (f.code, s) := by
  rw [sequenceFrom, if_pos closed]

theorem sequenceFrom_step {f g : Flattener} {i : Instr} {s t : Input} (opened : f.closed = false)
    (read : instr.run s = .ok (i, t)) (pushed : f.push i = .ok g) :
    sequenceFrom f s = sequenceFrom g t := by
  rw [sequenceFrom, if_neg (by rw [opened]; exact Bool.false_ne_true)]
  split
  · next failed =>
    rw [read] at failed
    cases failed
  · next j u found =>
    rw [read] at found
    cases found
    rw [pushed]

/-- As long as a sequence is not closed, its instructions are read one after another. -/
theorem sequenceFrom_written {f g : Flattener} {is : List Instr}
    (each : ∀ i ∈ is, i.Encodable) (pushed : is.foldlM Flattener.push f = .ok g)
    (opened : g.closed = false) (short : (is.flatMap Instr.encode).length < UInt32.size)
    (pos : Nat) (rest : List UInt8) :
    sequenceFrom f ⟨pos, is.flatMap Instr.encode ++ rest⟩
      = sequenceFrom g ⟨pos + (is.flatMap Instr.encode).length, rest⟩ := by
  induction is generalizing f pos with
  | nil =>
    cases pushed
    rfl
  | cons i is ih =>
    have start := Flattener.closed_of_foldlM pushed opened
    obtain ⟨h, first, after⟩ := Flattener.exists_of_foldlM_cons pushed
    rw [List.flatMap_cons, List.length_append] at short
    have read := Reads.instr (each i List.mem_cons_self) (by omega) pos
      (is.flatMap Instr.encode ++ rest)
    rw [← Flattener.push_withTargets f i 0 0] at first
    rw [List.flatMap_cons, List.append_assoc, sequenceFrom_step start read first,
      ih (fun j mem => each j (.tail i mem)) after (by omega), List.length_append, Nat.add_assoc]

/-- An expression is read back as its flat code. -/
theorem Reads.sequence (e : Expr) : Decoder.sequence.Reads e.encode e.code := by
  obtain ⟨inner, same, wf⟩ := e.body
  have each := e.encodable
  rw [same, Forest.Encodable, Forest.written_append, Forest.written_instr] at each
  intro short pos rest
  rw [Expr.encode, same, Forest.written_append, Forest.written_instr, List.flatMap_append,
    List.length_append] at short
  rw [Expr.encode, Expr.code, same, Forest.layout_append, Forest.layout_instr,
    Forest.written_append, Forest.written_instr, List.flatMap_append, List.append_assoc,
    List.length_append]
  generalize Forest.count (inner ++ [.instr .endOf]) = next
  -- the nodes before the terminator leave the sequence open
  have pushed := Flattener.pushForest_eq_extend (.start 0) next fun n mem => (wf n mem).laysOut
  rw [Flattener.pushForest_eq_foldlM] at pushed
  change sequenceFrom (.start 0) _ = _
  rw [sequenceFrom_written (fun i mem => each i (List.mem_append_left _ mem)) pushed rfl
    (by omega)]
  -- and the terminator closes it
  have ending := instr (i := .endOf) trivial (by decide)
    (pos + ((Forest.written inner).flatMap Instr.encode).length) rest
  rw [List.flatMap_singleton, ← Nat.add_assoc, sequenceFrom_step rfl ending rfl,
    sequenceFrom_closed _ rfl]
  simp [Flattener.close, Flattener.emit, Flattener.extend, Flattener.start, Flattener.here,
    Instr.withTargets]

end Decoder

end WasmMachine
