import WasmMachine.Instantiate
import WasmMachine.Proofs.DecodedModule
import WasmMachine.Proofs.Accesses

/-!
# Tame host functions

A host function is tame if it leaves stepping to the machine: it enters it through calls and
instantiations alone, of modules of some kind.  What it registers has to be tame in turn.  A
machine whose code all has a property, the code that its host functions can bring in included,
stays so under every operation that does not run code (`Access.perform_quiet`), and none of these
touches a frame.
-/

namespace WasmMachine

variable {σ : Type} {P : Code → Prop}

/-! ## Tame programs -/

section Tame

variable (Q : Module → Prop)

/-- Entries that leave stepping to the machine and bring in modules of the kind alone. -/
def Entry.Tame : Entry → Prop
  | .instantiate _ module _ => Q module
  | .step | .execute _ => False
  | _ => True

/-- Host programs all whose entries are tame, and that register nothing else. -/
inductive HostProg.Tame : HostProg σ → Prop
  | done (frame : Frame) : Tame (.done frame)
  | halt (reason : Halt) : Tame (.halt reason)
  | access (op : Access) {next : op.Reply → HostProg σ} :
    (∀ reply, Tame (next reply)) → Tame (.access op next)
  | enter {op : Entry} {next : Except Halt op.Reply → HostProg σ} :
    op.Tame Q → (∀ reply, Tame (next reply)) → Tame (.enter op next)
  | register {f : HostFunc σ} {next : HostProg σ} :
    (∀ frame, Tame (f.body frame)) → Tame next → Tame (.register f next)
  | getState {next : σ → HostProg σ} : (∀ s, Tame (next s)) → Tame (.getState next)
  | setState (s : σ) {next : HostProg σ} : Tame next → Tame (.setState s next)

/-- Host functions whose programs are tame. -/
def HostFunc.Tame (f : HostFunc σ) : Prop := ∀ frame, (f.body frame).Tame Q

end Tame

section Kinds

variable {Q Q' : Module → Prop}

theorem Entry.Tame.mono (kinds : ∀ module, Q module → Q' module) {op : Entry} (tame : op.Tame Q) :
    op.Tame Q' := by
  cases op with
  | instantiate name module externs => exact kinds module tame
  | step | execute => exact tame
  | _ => trivial

/-- A program that brings in modules of one kind brings in no others. -/
theorem HostProg.Tame.mono (kinds : ∀ module, Q module → Q' module) {p : HostProg σ}
    (tame : p.Tame Q) : p.Tame Q' := by
  induction tame with
  | done frame => exact .done frame
  | halt reason => exact .halt reason
  | access op _ ih => exact .access op ih
  | enter opTame _ ih => exact .enter (opTame.mono kinds) ih
  | register _ _ ihBody ihNext => exact .register ihBody ihNext
  | getState _ ih => exact .getState ih
  | setState s _ ih => exact .setState s ih

end Kinds

section Tame

variable (P : Code → Prop)

/-- Functions whose code has the property, and tame host functions. -/
def StoreFunc.Tame : StoreFunc σ → Prop
  | .module f => P f.code
  | .host f => HostFunc.Tame (Module.AllCode P) f

/-- A machine whose functions are all tame, the registered ones included. -/
structure Machine.Tame (m : Machine σ) : Prop where
  funcs : ∀ f ∈ m.store.funcs, f.Tame P
  hosts : ∀ (key : String) (f : HostFunc σ), m.hostFuncs[key]? = some f →
    HostFunc.Tame (Module.AllCode P) f

end Tame

/-! ## What joins a machine -/

theorem Array.append_list {α : Type} (xs : Array α) (l : List α) : xs ++ l = xs ++ l.toArray :=
  Array.ext' (by rw [Array.toList_appendList, Array.toList_append])

theorem Array.mem_append_list {α : Type} {xs : Array α} {l : List α} {a : α} :
    a ∈ xs ++ l ↔ a ∈ xs ∨ a ∈ l := by
  rw [Array.append_list, Array.mem_append]
  exact or_congr_right List.mem_toArray

/-- The functions that a module defines join those that there are. -/
theorem Store.mem_funcs_allocate {s : Store σ} {module : Module} {inst : Nat} {name : String}
    {f : StoreFunc σ} (mem : f ∈ (s.allocate module inst name).funcs) :
    f ∈ s.funcs ∨ ∃ g ∈ module.definedFuncs inst name, .module g = f := by
  rcases Array.mem_append_list.mp mem with before | own
  · exact .inl before
  · exact .inr (List.mem_map.mp own)

namespace Machine

variable {α : Type} {m m' : Machine σ}

/-- A key finds what has been registered just now, or what it found before. -/
theorem eq_or_found_of_register {f g : HostFunc σ} {key : String}
    (found : (m.register f).hostFuncs[key]? = some g) : g = f ∨ m.hostFuncs[key]? = some g := by
  rw [register, Std.HashMap.getElem?_insert] at found
  split at found
  · exact .inl (Option.some.inj found).symm
  · exact .inr found

/-- Whether a machine is tame depends on its functions alone, and on what is registered. -/
theorem Tame.of_same (tame : m.Tame P) (funcs : m'.store.funcs = m.store.funcs)
    (hosts : m'.hostFuncs = m.hostFuncs) : m'.Tame P := by
  refine ⟨?_, ?_⟩
  · rw [funcs]
    exact tame.funcs
  · rw [hosts]
    exact tame.hosts

theorem new_tame (config : Config) (world : σ) : (Machine.new config world).Tame P := by
  refine ⟨fun f mem => absurd mem (Array.not_mem_empty f), fun key f found => ?_⟩
  simp [Machine.new] at found

/-- Registering a tame function is tame. -/
theorem Tame.register (tame : m.Tame P) {f : HostFunc σ}
    (own : HostFunc.Tame (Module.AllCode P) f) :
    (m.register f).Tame P := by
  refine ⟨tame.funcs, fun key g found => ?_⟩
  rcases eq_or_found_of_register found with rfl | before
  · exact own
  · exact tame.hosts key g before

theorem Tame.addFunc (tame : m.Tame P) {f : StoreFunc σ} (own : f.Tame P) :
    (m.addFunc f).2.Tame P := by
  refine ⟨fun g mem => ?_, tame.hosts⟩
  rcases Array.mem_push.mp mem with before | rfl
  · exact tame.funcs g before
  · exact own

/-! ## Accesses -/

/-- A change that leaves the frames and the tameness of a machine as they are. -/
def Quiet (P : Code → Prop) (m m' : Machine σ) : Prop :=
  m'.frames = m.frames ∧ (m.Tame P → m'.Tame P)

theorem Quiet.refl (m : Machine σ) : m.Quiet P m := ⟨rfl, id⟩

theorem Quiet.trans {m₁ m₂ m₃ : Machine σ} (first : m₁.Quiet P m₂) (second : m₂.Quiet P m₃) :
    m₁.Quiet P m₃ :=
  ⟨second.1.trans first.1, second.2 ∘ first.2⟩

/-- No access touches the frames, or adds a function that has not been registered. -/
theorem Alters.quiet (alters : m.Alters m') : m.Quiet P m' := by
  induction alters with
  | refl m => exact .refl m
  | trans _ _ first second => exact first.trans second
  | @store α x op m =>
    have kept := op.funcs_eq m.store
    rw [onStore_eq]
    cases result : x m.store <;> rw [result] at kept <;>
      exact ⟨rfl, fun tame => tame.of_same kept rfl⟩
  | fuel n m => exact ⟨rfl, fun tame => tame.of_same rfl rfl⟩
  | @link m key f found => exact ⟨rfl, fun tame => tame.addFunc (tame.hosts key f found)⟩

end Machine

/-- An access touches no frame, and it brings in nothing that is not tame. -/
theorem Access.perform_quiet (op : Access) (m : Machine σ) : m.Quiet P (op.perform m).2 :=
  (op.perform_alters m).quiet

end WasmMachine
