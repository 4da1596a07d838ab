import WasmMachine.Proofs.Discipline
import WasmMachine.Proofs.Moves
import WasmMachine.Proofs.Nesting

/-!
# The label stack

Labels are kept by running code and the nesting is read off it, and neither knows of the other.
In resolved code they agree all the same: a frame that is inside of something is at an
instruction, and its labels are the constructs that enclose this instruction, below them the label
of the function itself (`Frame.Aligned`).  Every instruction keeps it so (`Frame.Aligned.moves`).
-/

namespace WasmMachine

variable {f g : Frame}

/-- A frame whose labels are the constructs around its position. -/
structure Frame.Aligned (f : Frame) : Prop where
  resolved : f.code.Resolved
  inside : f.pc < f.code.size
  targets : f.labels.map (·.target) = f.code.enclosing f.pc ++ [f.code.size]

namespace Frame.Aligned

theorem new {code : Code} (resolved : code.Resolved) (func : Option Nat) (inst : Nat)
    (locals : Array Value) (arity : Nat) (prev : Option Nat) (count : Nat) :
    (Frame.new func code inst locals arity prev ⟨count, code.size, 0⟩).Aligned :=
  ⟨resolved, resolved.nonempty, rfl⟩

/-- There is one label for every construct around the position, and one for the function. -/
theorem length_labels (aligned : f.Aligned) :
    f.labels.length = (f.code.enclosing f.pc).length + 1 := by
  have lengths := congrArg List.length aligned.targets
  rwa [List.length_map, List.length_append] at lengths

/-- The label of a branch that does not leave the function is that of a construct. -/
theorem enclosing_level (aligned : f.Aligned) {level : Nat} {l : Label}
    (found : f.labels[level]? = some l) (more : f.labels.drop (level + 1) ≠ []) :
    (f.code.enclosing f.pc)[level]? = some l.target := by
  have within : level + 1 < f.labels.length := by
    refine Nat.lt_of_not_le fun few => more ?_
    exact List.drop_eq_nil_of_le few
  have target : (f.labels.map (·.target))[level]? = some l.target := by
    rw [List.getElem?_map, found]
    rfl
  have lengths := aligned.length_labels
  rw [aligned.targets, List.getElem?_append_left (by omega)] at target
  exact target

/-- An aligned frame stays so as long as it is inside of something. -/
theorem moves (aligned : f.Aligned) {i : Instr} (here : f.code[f.pc]? = some i) (same : f.Same g)
    (moved : i.Moves { f with pc := f.pc + 1 } g) (labels : g.labels ≠ []) : g.Aligned := by
  have fits := aligned.resolved.fits here
  have next := Code.enclosing_succ here
  have targets := aligned.targets
  have code : g.code = f.code := by rw [same]
  suffices arrives : g.pc < f.code.size ∧
      g.labels.map (·.target) = f.code.enclosing g.pc ++ [f.code.size] from
    ⟨code ▸ aligned.resolved, code ▸ arrives.1, code ▸ arrives.2⟩
  cases moved with
  | plain plain keeps goes =>
    rw [keeps, goes]
    have stays : i.nest (f.code.enclosing f.pc) = f.code.enclosing f.pc := by
      cases i <;> first | rfl | cases plain
    have follows : f.pc + 1 < f.code.size := by
      cases i <;> first | exact fits | cases plain
    exact ⟨follows, by rw [next, stays]; exact targets⟩
  | block l => exact ⟨fits.1, by rw [next]; exact congrArg (l.target :: ·) targets⟩
  | loop l => exact ⟨fits.1, by rw [next]; exact congrArg (l.target :: ·) targets⟩
  | thenArm l _ _ => exact ⟨fits.1, by rw [next]; exact congrArg (l.target :: ·) targets⟩
  | elseArm l _ other =>
    obtain ⟨below, encloses⟩ := fits.2.2.2.resolve_left other
    exact ⟨below, by rw [encloses]; exact congrArg (l.target :: ·) targets⟩
  | skip target _ => exact ⟨fits.2.1, by rw [fits.2.2.1]; exact targets⟩
  | @endThen _ l ls target opened =>
    change f.labels = l :: ls at opened
    rw [opened, fits.2] at targets
    exact ⟨fits.1, (List.cons.inj targets).2⟩
  | @endOf _ l ls opened =>
    change f.labels = l :: ls at opened
    rw [opened] at targets
    cases around : f.code.enclosing f.pc with
    | nil =>
      rw [around] at targets
      have empty : ls = [] := List.map_eq_nil_iff.mp (List.cons.inj targets).2
      exact absurd empty labels
    | cons target outside =>
      have some : f.code.enclosing f.pc ≠ [] := around ▸ List.cons_ne_nil _ _
      rw [around] at targets next
      refine ⟨fits some, ?_⟩
      rw [next]
      exact (List.cons.inj targets).2
  | pass l stack => exact ⟨fits, by rw [next]; exact targets⟩
  | @branch _ _ level l _ _ found _ =>
    have around := aligned.enclosing_level found labels
    obtain ⟨below, encloses⟩ := aligned.resolved.enclosing_target around
    refine ⟨below, ?_⟩
    have within : level + 1 ≤ (f.code.enclosing f.pc).length :=
      (List.getElem?_eq_some_iff.mp around).1
    have left := congrArg (List.drop (level + 1)) targets
    rw [List.drop_append_of_le_length within, ← encloses] at left
    exact (List.map_drop ..).trans left

end Frame.Aligned

/-- Resolved code keeps its frames aligned. -/
def Discipline.aligned : Discipline where
  code := Code.Resolved
  frame := Frame.Aligned
  callee resolved func inst locals arity caller := .new resolved func inst locals arity _ arity
  constant resolved inst := .new resolved none inst #[] 1 none 0
  steps {_ f i inst store _ b} aligned _ here run inside := by
    have kept := i.exec_same inst ⟨{ f with pc := f.pc + 1 }, store⟩
    rw [run] at kept
    exact aligned.moves here kept (Instr.exec_moves run) inside
  operands aligned _ := ⟨aligned.resolved, aligned.inside, aligned.targets⟩

end WasmMachine
