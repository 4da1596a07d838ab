import WasmMachine.Proofs.Families
import WasmMachine.Proofs.Programs

/-!
# Bounds of runs

A run has a bound, and its result is none if the bound was too small.  A result that is there does
not depend on it: it is the result within every larger bound (`Machine.enter_mono`).
-/

namespace WasmMachine

variable {σ α : Type}

/-- Two runs, the second of which has every result of the first. -/
def Run.Agree (α : Type) (x : Bool → Run σ α) : Prop :=
  ∀ ⦃m p⦄, x false m = some p → x true m = some p

namespace Run.Agree

/-- What ends within the smaller bound ends in the same way within the larger one, one run after
the other. -/
theorem bind {β : Type} {x : Bool → Run σ α} {k : α → Bool → Run σ β} (first : Agree α x)
    (rest : ∀ a, Agree β (k a)) : Agree β fun i => x i >>= fun a => k a i := by
  intro m p run
  dsimp only at run ⊢
  rw [bind_apply] at run ⊢
  cases head : x false m with
  | none =>
    rw [head] at run
    cases run
  | some q =>
    obtain ⟨r, m₁⟩ := q
    rw [head] at run
    rw [first head]
    cases r with
    | ok a => exact rest a run
    | error h => exact run

theorem catching {x : Bool → Run σ α} {k : Halt → Bool → Run σ α} (inner : Agree α x)
    (caught : ∀ h, Agree α (k h)) : Agree α fun i => tryCatch (x i) fun h => k h i := by
  intro m p run
  dsimp only at run ⊢
  rw [tryCatch_apply] at run ⊢
  cases head : x false m with
  | none =>
    rw [head] at run
    cases run
  | some q =>
    obtain ⟨r, m₁⟩ := q
    rw [head] at run
    rw [inner head]
    cases r with
    | ok a => exact run
    | error h => exact caught h run

/-- Runs that are the same agree. -/
theorem same (x : Run σ α) : Agree α fun _ => x := fun _ _ run => run

/-- Only loops and entries look at a bound, so that everything else agrees with itself. -/
theorem closed : ClosedOnFrames (fun _ : StoreFunc σ => True) Agree where
  pure _ := same _
  throw _ := same _
  bind := bind
  look _ rest := fun m _ run => rest m run
  op _ := same _
  func _ rest := bind (same _) fun f => rest f trivial
  charge := same _
  dispatch _ := same _
  popAll _ := same _
  frames _ := same _
  popFrame := same _
  catching inner caught _ := catching inner caught

section Parts

variable {enter : Bool → Enter σ} (entries : ∀ op, Agree _ fun i => enter i op)
include entries

theorem host (p : HostProg σ) : Agree Frame fun i => Run.host (enter i) p := by
  induction p using HostProg.induct with
  | done frame => exact same _
  | halt reason => exact same _
  | access op next ih => exact fun m _ run => ih (op.perform m).1 run
  | enter op next ih =>
    intro m q run
    dsimp only at run ⊢
    rw [host_enter] at run ⊢
    cases entered : enter false op m with
    | none =>
      rw [entered] at run
      cases run
    | some p =>
      obtain ⟨reply, m₁⟩ := p
      have entered' : enter true op m = some (reply, m₁) := entries op entered
      rw [entered] at run
      rw [entered']
      exact ih reply run
  | register f next _ ih => exact fun m _ run => ih run
  | getState next ih => exact fun m _ run => ih m.world run
  | setState s next ih => exact fun m _ run => ih run

theorem call (addr : Nat) : Agree Unit fun i => Run.call (enter i) addr :=
  closed.call enter (fun _ _ _ _ => same _) (fun f _ frame => host entries (f.body frame)) addr

theorem step : Agree Unit fun i => Run.step (enter i) := closed.step enter (call entries)

/-- A loop that ends within a bound has not used it up, by induction on the smaller one. -/
theorem stepWhile (more : Machine σ → Bool) {small large : Nat} (le : small ≤ large) :
    Agree Unit fun i => Run.stepWhile (enter i) more (cond i large small) := by
  induction small generalizing large with
  | zero =>
    intro m p run
    cases run
  | succ small ih =>
    obtain ⟨large, rfl⟩ : ∃ n, large = n + 1 := ⟨large - 1, by omega⟩
    intro m p run
    dsimp only [cond] at run ⊢
    rw [stepWhile_succ] at run ⊢
    split at run
    · next again =>
      rw [if_pos again]
      exact bind (step entries) (fun _ => ih (Nat.le_of_succ_le_succ le)) run
    · next ended =>
      rw [if_neg ended]
      exact run

theorem perform (op : Entry) {small large : Nat} (le : small ≤ large) :
    Agree _ fun i => op.perform (enter i) (cond i large small) :=
  closed.perform enter _ (call entries) (fun more _ => stepWhile entries more le) op
    fun _ _ _ _ constant invoke =>
      closed.toClosed.instantiate enter _ constant invoke (fun _ => same _) (same _)
        fun _ _ => same _

end Parts

end Run.Agree

/-- A result within a bound is the result within every larger one. -/
theorem Machine.enter_mono {small large : Nat} (le : small ≤ large) {op : Entry} {m : Machine σ}
    {p : Except Halt op.Reply × Machine σ} (run : Machine.enter small op m = some p) :
    Machine.enter large op m = some p := by
  induction small generalizing large op m p with
  | zero => cases run
  | succ small ih =>
    obtain ⟨large, rfl⟩ : ∃ n, large = n + 1 := ⟨large - 1, by omega⟩
    have le' : small ≤ large := by omega
    let enter (i : Bool) : Enter σ := Machine.enter (cond i large small)
    have entries (op : Entry) : Run.Agree _ fun i => enter i op := fun m p run => ih le' run
    exact Run.Agree.perform entries op le' run

/-- Machines that are entered within two bounds agree. -/
theorem Machine.entries_agree {small large : Nat} (le : small ≤ large) (op : Entry) :
    Run.Agree _ fun i => (Machine.enter (cond i large small) op : Run σ _) :=
  fun _ _ run => Machine.enter_mono le run

namespace Run

variable {small large : Nat} (le : small ≤ large) {m : Machine σ}
include le

/-- A host program that ends within a bound on its entries does so within a larger one. -/
theorem host_mono {program : HostProg σ} {p : Except Halt Frame × Machine σ}
    (run : host (Machine.enter small) program m = some p) :
    host (Machine.enter large) program m = some p :=
  Agree.host (Machine.entries_agree le) program run

theorem call_mono {addr : Nat} {p : Except Halt Unit × Machine σ}
    (run : call (Machine.enter small) addr m = some p) :
    call (Machine.enter large) addr m = some p :=
  Agree.call (Machine.entries_agree le) addr run

theorem step_mono {p : Except Halt Unit × Machine σ}
    (run : step (Machine.enter small) m = some p) : step (Machine.enter large) m = some p :=
  Agree.step (Machine.entries_agree le) run

theorem stepWhile_mono {more : Machine σ → Bool} {few many : Nat} (le' : few ≤ many)
    {p : Except Halt Unit × Machine σ}
    (run : stepWhile (Machine.enter small) more few m = some p) :
    stepWhile (Machine.enter large) more many m = some p :=
  Agree.stepWhile (Machine.entries_agree le) more le' run

end Run

end WasmMachine
