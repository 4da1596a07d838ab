import WasmMachine.Proofs.Counting
import WasmMachine.Proofs.Isolation

/-!
# Code and hosts that do not see where they are

What an instruction does depends on the operands, the locals, the position and the labels of its
frame, and on nothing else of it: it does the same in another frame that agrees in these
(`Instr.exec_over`). The outermost label may even be another one, as long as the instruction does
not branch to it.

A host function sees more: it gets a frame of its own, it can list the frames of the machine, and
it can step through them. One that does neither, and does not look at who has called it, is called
placeless (`HostFunc.Placeless`).
-/

namespace WasmMachine

variable {σ α : Type}

/-! ## Instructions in other frames -/

/-- A frame that is where another one is, with its labels changed on the way. -/
def Frame.over (g : Frame) (φ : List Label → List Label) (f : Frame) : Frame :=
  { g with locals := f.locals, stack := f.stack, labels := φ f.labels, pc := f.pc }

/-- An activation in another frame. -/
def Activation.over (g : Frame) (φ : List Label → List Label) (a : Activation σ) : Activation σ :=
  ⟨g.over φ a.frame, a.store⟩

/-- The label that an instruction branches to, counted from the innermost, if it does. -/
def Instr.level? (i : Instr) (f : Frame) : Option Nat :=
  match i with
  | .br l => some l.toNat
  | .brIf l => f.stack.back?.bind fun cond => if cond.u32.toNat = 0 then none else some l.toNat
  | .brTable ls fallback => f.stack.back?.map fun v => (ls[v.u32.toNat]?.getD fallback).toNat
  | .ret => if f.labels = [] then none else some (f.labels.length - 1)
  | _ => none

namespace Instr

variable {inst : Instance} {i : Instr} {f g : Frame} {s : Store σ} {φ : List Label → List Label}

/-- An instruction that branches takes its operand off and does nothing else before. -/
theorem exec_of_level? {level : Nat} (branches : i.level? f = some level) :
    i.exec inst ⟨f, s⟩ = Act.branched level ⟨f.without i.operands, s⟩ := by
  cases i with
  | br l =>
    cases branches
    change _ = Act.branched l.toNat ⟨f.without 0, s⟩
    rw [exec_br, Frame.without_zero]
  | brIf l =>
    obtain ⟨cond, top, taken⟩ := Option.bind_eq_some_iff.mp branches
    change _ = Act.branched level ⟨f.without 1, s⟩
    rw [exec_brIf, Frame.without_one]
    simp only [top]
    by_cases zero : cond.u32.toNat = 0
    · rw [if_pos zero] at taken
      cases taken
    · rw [if_neg zero] at taken
      cases taken
      rw [if_neg zero]
  | brTable ls fallback =>
    obtain ⟨v, top, rfl⟩ := Option.map_eq_some_iff.mp branches
    change _ = Act.branched _ ⟨f.without 1, s⟩
    rw [exec_brTable, Frame.without_one]
    simp only [top]
  | ret =>
    rw [level?] at branches
    cases labels : f.labels with
    | nil =>
      rw [if_pos labels] at branches
      cases branches
    | cons l ls =>
      rw [if_neg (labels ▸ List.cons_ne_nil l ls), labels] at branches
      cases branches
      change _ = Act.branched _ ⟨f.without 0, s⟩
      rw [exec_ret, Frame.without_zero]
      simp only [labels]
      rfl
  | _ => cases branches

theorem level?_over (length : (φ f.labels).length = f.labels.length) :
    i.level? (g.over φ f) = i.level? f := by
  cases i with
  | ret =>
    have empty : φ f.labels = [] ↔ f.labels = [] := by
      rw [← List.length_eq_zero_iff, length, List.length_eq_zero_iff]
    simp only [level?, Frame.over, length, empty]
  | _ => rfl

/-- A branch goes the same way in another frame if the labels agree where it goes. -/
theorem branched_over {level : Nat} {a : Activation σ}
    (label : (φ a.frame.labels)[level]? = a.frame.labels[level]?)
    (outer : (φ a.frame.labels).drop (level + 1) = φ (a.frame.labels.drop (level + 1))) :
    Act.branched level (a.over g φ) = mapState (·.over g φ) (Act.branched level a) := by
  unfold Act.branched FrameM.branch Activation.over Frame.over
  dsimp only
  rw [label, outer]
  cases a.frame.labels[level]? with
  | none => rfl
  | some l =>
    dsimp only
    by_cases there : l.height + l.arity ≤ a.frame.stack.size
    · simp only [if_pos there]
      rfl
    · simp only [if_neg there]
      rfl

/-- An instruction that does not branch does the same in another frame, if the labels are
changed from below. -/
theorem exec_over (nil : φ [] = []) (push : ∀ l, φ (l :: f.labels) = l :: φ f.labels)
    (pop : ∀ l ls, f.labels = l :: ls → ∃ l', φ (l :: ls) = l' :: φ ls)
    (stays : i.level? f = none) :
    i.exec inst ⟨g.over φ f, s⟩ = mapState (·.over g φ) (i.exec inst ⟨f, s⟩) := by
  cases control : i.isControl with
  | false =>
    have operandwise := (exec_plain (σ := σ) inst control).operandwise
    have here := operandwise f ⟨f.locals, f.stack, s⟩
    have there := operandwise (g.over φ f) ⟨f.locals, f.stack, s⟩
    refine there.trans (Eq.trans ?_ (congrArg (mapState (·.over g φ)) here.symm))
    cases (i.exec inst).onWorkspace ⟨f.locals, f.stack, s⟩ <;> rfl
  | true =>
    cases i with
    | block type target =>
      rw [exec_block, exec_block]
      cases inst.blockArity type with
      | error t => rfl
      | ok p =>
        by_cases there : p.1 ≤ f.stack.size <;>
          simp [Frame.over, Activation.over, mapState, push, there]
    | loop type target =>
      rw [exec_loop, exec_loop]
      cases inst.blockArity type with
      | error t => rfl
      | ok p =>
        by_cases there : p.1 ≤ f.stack.size <;>
          simp [Frame.over, Activation.over, mapState, push, there]
    | ifThen type target elseTarget =>
      rw [exec_ifThen, exec_ifThen]
      dsimp only [Frame.over]
      cases f.stack.back? with
      | none => rfl
      | some cond =>
        dsimp only
        cases inst.blockArity type with
        | error t => rfl
        | ok p =>
          by_cases skip : cond.u32.toNat = 0 ∧ elseTarget = target
          · simp [Frame.over, Activation.over, mapState, skip]
          · by_cases there : p.1 ≤ f.stack.size - 1 <;>
              simp [Frame.over, Activation.over, mapState, push, skip, there]
    | elseArm target =>
      rw [exec_elseArm, exec_elseArm]
      dsimp only [Frame.over]
      cases labels : f.labels with
      | nil => simp only [nil, mapState, Activation.over, Frame.over, labels]
      | cons l ls =>
        obtain ⟨l', changed⟩ := pop l ls labels
        simp only [changed, mapState, Activation.over, Frame.over]
    | endOf =>
      rw [exec_endOf, exec_endOf]
      dsimp only [Frame.over]
      cases labels : f.labels with
      | nil => simp only [nil, mapState, Activation.over, Frame.over, labels]
      | cons l ls =>
        obtain ⟨l', changed⟩ := pop l ls labels
        simp only [changed, mapState, Activation.over, Frame.over]
    | br l => cases stays
    | brIf l =>
      rw [exec_brIf, exec_brIf]
      dsimp only [Frame.over]
      rw [level?] at stays
      cases top : f.stack.back? with
      | none => rfl
      | some cond =>
        rw [top, Option.bind_some] at stays
        by_cases zero : cond.u32.toNat = 0
        · simp only [if_pos zero]
          rfl
        · rw [if_neg zero] at stays
          cases stays
    | brTable ls fallback =>
      rw [exec_brTable, exec_brTable]
      dsimp only [Frame.over]
      rw [level?, Option.map_eq_none_iff] at stays
      simp only [stays]
      rfl
    | ret =>
      rw [exec_ret, exec_ret]
      rw [level?] at stays
      cases labels : f.labels with
      | nil => simp only [Frame.over, nil, labels, mapState, Activation.over]
      | cons l ls =>
        rw [if_neg (labels ▸ List.cons_ne_nil l ls)] at stays
        cases stays
    | _ => cases control

end Instr

/-! ## Placeless host functions -/

/-- Host programs that do the same but for the frames that they end with, of which the results are
the same. They neither list the frames of the machine nor step through them, and what they
register is like that, too, whoever calls it. -/
inductive HostProg.Alike : HostProg σ → HostProg σ → Prop
  | done {f g : Frame} : f.top? f.arity = g.top? g.arity → Alike (.done f) (.done g)
  | halt (reason : Halt) : Alike (.halt reason) (.halt reason)
  | access {op : Access} {next next' : op.Reply → HostProg σ} : op ≠ .frames →
    (∀ reply, Alike (next reply) (next' reply)) → Alike (.access op next) (.access op next')
  | enter {op : Entry} {next next' : Except Halt op.Reply → HostProg σ} : op.Tame
      (fun _ => True) →
    (∀ reply, Alike (next reply) (next' reply)) → Alike (.enter op next) (.enter op next')
  | register {f : HostFunc σ} {next next' : HostProg σ} :
    (∀ frame prev, Alike (f.body frame) (f.body { frame with prev })) → Alike next next' →
    Alike (.register f next) (.register f next')
  | getState {next next' : σ → HostProg σ} : (∀ s, Alike (next s) (next' s)) →
    Alike (.getState next) (.getState next')
  | setState (s : σ) {next next' : HostProg σ} : Alike next next' →
    Alike (.setState s next) (.setState s next')

/-- Host functions that do the same wherever they are called from. -/
def HostFunc.Placeless (f : HostFunc σ) : Prop :=
  ∀ frame prev, (f.body frame).Alike (f.body { frame with prev })

/-- Functions of modules, and placeless host functions. -/
def StoreFunc.Placeless : StoreFunc σ → Prop
  | .module _ => True
  | .host f => HostFunc.Placeless f

/-- A machine all of whose host functions are placeless, the registered ones included. -/
structure Machine.Placeless (m : Machine σ) : Prop where
  funcs : ∀ f ∈ m.store.funcs, f.Placeless
  hosts : ∀ (key : String) (f : HostFunc σ), m.hostFuncs[key]? = some f → HostFunc.Placeless f

theorem Module.allCode_any (module : Module) : module.AllCode fun _ => True where
  funcs _ _ _ _ := trivial
  globals _ _ _ _ := trivial
  elems _ _ := ⟨fun _ _ _ => trivial, fun _ _ _ _ => trivial⟩
  datas _ _ _ _ _ := trivial

theorem HostProg.Alike.tame {p q : HostProg σ} (alike : p.Alike q) :
    p.Tame (Module.AllCode fun _ => True) := by
  induction alike with
  | done => exact .done _
  | halt reason => exact .halt reason
  | access _ _ ih => exact .access _ ih
  | enter tame _ ih => exact .enter (tame.mono fun module _ => module.allCode_any) ih
  | register _ _ body ih => exact .register (fun frame => body frame none) ih
  | getState _ ih => exact .getState ih
  | setState s _ ih => exact .setState s ih

namespace Machine.Placeless

variable {m m' : Machine σ}

/-- Placeless host functions leave stepping to the machine. -/
theorem tame (placeless : m.Placeless) : m.Tame fun _ => True where
  funcs f mem := by
    cases f with
    | module f => trivial
    | host f => exact fun frame => (placeless.funcs _ mem frame none).tame
  hosts key f found frame := (placeless.hosts key f found frame none).tame

theorem of_same (placeless : m.Placeless) (funcs : m'.store.funcs = m.store.funcs)
    (hosts : m'.hostFuncs = m.hostFuncs) : m'.Placeless :=
  ⟨funcs ▸ placeless.funcs, hosts ▸ placeless.hosts⟩

theorem register (placeless : m.Placeless) {f : HostFunc σ} (own : HostFunc.Placeless f) :
    (m.register f).Placeless := by
  refine ⟨placeless.funcs, fun key g found => ?_⟩
  rcases eq_or_found_of_register found with rfl | before
  · exact own
  · exact placeless.hosts key g before

theorem alters (placeless : m.Placeless) (alters : m.Alters m') : m'.Placeless := by
  induction alters with
  | refl m => exact placeless
  | trans _ _ first second => exact second (first placeless)
  | @store α x op m =>
    have kept := op.funcs_eq m.store
    rw [onStore_eq]
    cases result : x m.store <;> rw [result] at kept <;> exact placeless.of_same kept rfl
  | fuel n m => exact placeless.of_same rfl rfl
  | @link m key f found =>
    refine ⟨fun g mem => ?_, placeless.hosts⟩
    rcases Array.mem_push.mp mem with before | rfl
    · exact placeless.funcs g before
    · exact placeless.hosts key f found

theorem allocate (placeless : m.Placeless) (module : Module) (inst : Nat) (name : String) :
    Placeless { m with store := m.store.allocate module inst name } := by
  refine ⟨fun f mem => ?_, placeless.hosts⟩
  rcases Store.mem_funcs_allocate mem with before | ⟨g, -, rfl⟩
  · exact placeless.funcs f before
  · trivial

end Machine.Placeless

/-! ## Machines with other frames -/

/-- A machine with other frames and other settings. -/
def Machine.elsewhere (m : Machine σ) (frames : Array Frame) (config : Config) : Machine σ :=
  { m with frames, config }

theorem Machine.aside_elsewhere (frames : Array Frame) (config : Config) :
    Aside fun m : Machine σ => m.elsewhere frames config :=
  ⟨fun _ => rfl, fun _ => rfl, fun _ => rfl, fun _ => rfl, fun _ _ => rfl⟩

/-- An access that does not list the frames does the same whatever they are, and leaves them. -/
theorem Access.perform_elsewhere {op : Access} (blind : op ≠ .frames) (frames : Array Frame)
    (config : Config) (m : Machine σ) : op.perform (m.elsewhere frames config) =
      ((op.perform m).1, (op.perform m).2.elsewhere frames config) := by
  by_cases free : op.Unmetered
  · exact op.perform_aside (Machine.aside_elsewhere frames config) blind free m
  · cases op with
    | fuel | setFuel => rfl
    | _ => exact absurd trivial free

end WasmMachine
