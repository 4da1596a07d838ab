import WasmMachine.Proofs.Accesses
import WasmMachine.Proofs.Families

/-!
# Metering

Fuel is looked at in one place, where a step is paid for.  `Run.Takes` says how many steps a run
calls, those within entries within calls included: it takes the run apart into steps being paid
for and parts that are blind to fuel.  If a run that is not metered takes `k` steps, then the same
run with fuel for `k` of them or more ends in the same way with that much less fuel, and with fuel
for fewer it ends in the trap of an exhausted budget, which everything on the way passes on
(`Run.Takes.metered`).  A metered run takes at most one step more than it has fuel for
(`Run.Takes.spent`), and if it has not run out it shows how the run without metering ends
(`Run.Takes.unmetered`).
-/

namespace WasmMachine

variable {σ α β : Type} {m m' : Machine σ}

/-- A run, and what is made of its end. -/
def Run.andThen (x : Run σ α) (f : Except Halt α → Run σ β) : Run σ β := fun m =>
  match x m with
  | none => none
  | some (r, m') => f r m'

/-- From a machine, a run takes a number of steps and ends with a result and a machine. Each step
begins by being paid for, and nothing else is; a part of a run that is blind to fuel pays for
nothing. What is made of a trap is a trap of the same wording. -/
inductive Run.Takes : {α : Type} → Run σ α → Machine σ → Nat → Except Halt α → Machine σ → Prop
  | free {α : Type} {x : Run σ α} {m m' : Machine σ} {r : Except Halt α} :
    x.Blind → x m = some (r, m') → Takes x m 0 r m'
  | charge {m m' : Machine σ} {r : Except Halt Unit} :
    Run.charge m = some (r, m') → Takes Run.charge m 1 r m'
  | andThen {α β : Type} {x : Run σ α} {f : Except Halt α → Run σ β} {m m₁ m' : Machine σ}
    {k l : Nat} {r : Except Halt α} {s : Except Halt β} :
    (∀ t, (f (.error (.trap t))).Returns t) → (∀ t, r ≠ .error (.trap t)) →
    Takes x m k r m₁ → Takes (f r) m₁ l s m' → Takes (x.andThen f) m (k + l) s m'
  | trapped {α β : Type} {x : Run σ α} {f : Except Halt α → Run σ β} {m m₁ m' : Machine σ}
    {k : Nat} {t : Trap} {s : Except Halt β} :
    (∀ t, (f (.error (.trap t))).Returns t) → Takes x m k (.error (.trap t)) m₁ →
    f (.error (.trap t)) m₁ = some (s, m') → Takes (x.andThen f) m k s m'
  | same {α : Type} {x y : Run σ α} {m m' : Machine σ} {k : Nat} {r : Except Halt α} :
    (∀ fuel, x (m.refuel fuel) = y (m.refuel fuel)) → Takes y m k r m' → Takes x m k r m'

/-- From a machine, a run ends in the trap of an exhausted budget, with nothing left of it. -/
def Run.Exhausts (x : Run σ α) (m : Machine σ) : Prop :=
  ∃ t m', x m = some (.error (.trap t), m') ∧ t.message = Trap.fuelExhausted.message ∧
    m'.fuel = some 0

namespace Run

variable {x : Run σ α} {f : Except Halt α → Run σ β} {k : Nat} {n : UInt64} {r : Except Halt α}

/-! ## Blind runs -/

theorem Blind.run (blind : x.Blind) (run : x m = some (r, m')) (fuel : Option UInt64) :
    x (m.refuel fuel) = some (r, m'.refuel fuel) := by
  rw [blind, run]
  rfl

theorem Blind.fuel_eq (blind : x.Blind) (run : x m = some (r, m')) : m'.fuel = m.fuel := by
  have again : x m = some (r, m'.refuel m.fuel) := blind.run run m.fuel
  exact congrArg (fun p => p.2.fuel) (Option.some.inj (run.symm.trans again))

/-- What passes a trap on passes an exhausted budget on. -/
theorem Exhausts.andThen (returns : ∀ t, (f (.error (.trap t))).Returns t)
    (exhausts : x.Exhausts m) : (x.andThen f).Exhausts m := by
  obtain ⟨t, m₁, run, message, fuel⟩ := exhausts
  obtain ⟨t', m', run', message'⟩ := (returns t).traps m₁
  refine ⟨t', m', ?_, message'.trans message, ((returns t).blind.fuel_eq run').trans fuel⟩
  rw [Run.andThen, run]
  exact run'

/-! ## Paying -/

theorem toNat_sub_ofNat (le : k ≤ n.toNat) : (n - .ofNat k).toNat = n.toNat - k := by
  have exact_ : (UInt64.ofNat k).toNat = k :=
    UInt64.toNat_ofNat_of_lt' (Nat.lt_of_le_of_lt le n.toNat_lt)
  rw [UInt64.toNat_sub_of_le n _ (UInt64.le_iff_toNat_le.mpr (by omega)), exact_]

theorem sub_ofNat_add (n : UInt64) (k l : Nat) :
    n - .ofNat (k + l) = n - .ofNat k - .ofNat l := by
  rw [UInt64.ofNat_add]
  grind

theorem charge_unmetered (unmetered : m.fuel = none) : charge m = some (.ok (), m) := by
  rw [charge_eq, Machine.paying, unmetered]

theorem charge_metered (metered : m.fuel = some n) : charge m =
    if 1 ≤ n.toNat then some (.ok (), m.refuel (some (n - .ofNat 1)))
    else some (.error (.trap .fuelExhausted), m) := by
  rw [charge_eq, Machine.paying, metered]
  by_cases enough : 1 ≤ n.toNat
  · simp only [enough, if_true]
    rfl
  · simp only [enough, if_false]

/-! ## Runs that take steps -/

namespace Takes

theorem run (takes : Takes x m k r m') : x m = some (r, m') := by
  induction takes with
  | free _ run => exact run
  | charge run => exact run
  | andThen _ _ _ _ first next =>
    rw [Run.andThen, first]
    exact next
  | trapped _ _ next first =>
    rw [Run.andThen, first]
    exact next
  | @same _ x y m _ _ _ alike _ ih => exact (alike m.fuel).trans ih

/-- A run that takes `k` steps without metering, metered: with fuel for `k` steps or more it ends
in the same way and has spent `k`; with fuel for fewer it runs out of it. -/
theorem metered (takes : Takes x m k r m') (unmetered : m.fuel = none) :
    m'.fuel = none ∧ ∀ n : UInt64,
      (k ≤ n.toNat → x (m.refuel (some n)) = some (r, m'.refuel (some (n - .ofNat k)))) ∧
      (n.toNat < k → x.Exhausts (m.refuel (some n))) := by
  induction takes with
  | free blind run =>
    refine ⟨(blind.fuel_eq run).trans unmetered, fun n => ⟨fun _ => ?_, fun lt => by omega⟩⟩
    rw [blind.run run]
    simp
  | @charge m m' r run =>
    rw [charge_unmetered unmetered] at run
    cases run
    refine ⟨unmetered, fun n => ?_⟩
    have fuel : (m.refuel (some n)).fuel = some n := rfl
    constructor
    · intro enough
      rw [charge_metered fuel, if_pos enough]
      rfl
    · intro lacking
      refine ⟨.fuelExhausted, m.refuel (some n), ?_, rfl, ?_⟩
      · rw [charge_metered fuel, if_neg (by omega)]
      · have zero : n = 0 := UInt64.toNat_inj.mp (by simpa using lacking)
        rw [fuel, zero]
  | @andThen α β x f m m₁ m' k l r s returns _ _ _ first next =>
    obtain ⟨unmetered₁, first⟩ := first unmetered
    obtain ⟨unmetered', next⟩ := next unmetered₁
    refine ⟨unmetered', fun n => ⟨fun enough => ?_, fun lacking => ?_⟩⟩
    · rw [Run.andThen, (first n).1 (by omega)]
      dsimp only
      rw [(next _).1 (by rw [toNat_sub_ofNat (by omega)]; omega), sub_ofNat_add]
    · rcases Nat.lt_or_ge n.toNat k with short | enough
      · exact ((first n).2 short).andThen returns
      · obtain ⟨t, m₂, run, message, fuel⟩ :=
          (next (n - .ofNat k)).2 (by rw [toNat_sub_ofNat enough]; omega)
        refine ⟨t, m₂, ?_, message, fuel⟩
        rw [Run.andThen, (first n).1 enough]
        exact run
  | @trapped α β x f m m₁ m' k t s returns _ next first =>
    obtain ⟨unmetered₁, first⟩ := first unmetered
    have blind := (returns t).blind
    refine ⟨(blind.fuel_eq next).trans unmetered₁, fun n => ⟨fun enough => ?_, fun lacking => ?_⟩⟩
    · rw [Run.andThen, (first n).1 enough]
      exact blind.run next _
    · exact ((first n).2 lacking).andThen returns
  | same alike _ ih =>
    obtain ⟨unmetered', ih⟩ := ih unmetered
    refine ⟨unmetered', fun n => ⟨fun enough => ?_, fun lacking => ?_⟩⟩
    · rw [alike, (ih n).1 enough]
    · obtain ⟨t, m', run, message, fuel⟩ := (ih n).2 lacking
      exact ⟨t, m', (alike _).trans run, message, fuel⟩

/-- A metered run has spent what it takes, or it has run out of fuel at its last step. -/
theorem spent (takes : Takes x m k r m') (metered : m.fuel = some n) :
    (k ≤ n.toNat ∧ m'.fuel = some (n - .ofNat k)) ∨
      (k = n.toNat + 1 ∧ m'.fuel = some 0 ∧
        ∃ t, r = .error (.trap t) ∧ t.message = Trap.fuelExhausted.message) := by
  induction takes generalizing n with
  | free blind run =>
    refine .inl ⟨Nat.zero_le _, ?_⟩
    rw [blind.fuel_eq run, metered]
    simp
  | charge run =>
    rw [charge_metered metered] at run
    split at run
    · next enough =>
      cases run
      exact .inl ⟨enough, rfl⟩
    · next lacking =>
      cases run
      have zero : n = 0 := UInt64.toNat_inj.mp (by simpa using lacking)
      exact .inr ⟨by rw [zero]; rfl, zero ▸ metered, .fuelExhausted, rfl, rfl⟩
  | @andThen α β x f m m₁ m' k l r s returns other _ _ first next =>
    obtain ⟨enough, fuel⟩ | ⟨_, _, t, trapped, _⟩ := first metered
    · have left := toNat_sub_ofNat enough
      obtain ⟨enough', fuel'⟩ | ⟨out, fuel', exhausted⟩ := next fuel
      · exact .inl ⟨by omega, by rw [fuel', sub_ofNat_add]⟩
      · exact .inr ⟨by omega, fuel', exhausted⟩
    · exact absurd trapped (other t)
  | @trapped α β x f m m₁ m' k t s returns _ next first =>
    have fuel_eq := (returns t).blind.fuel_eq next
    obtain ⟨enough, fuel⟩ | ⟨out, fuel, t', same, message⟩ := first metered
    · exact .inl ⟨enough, fuel_eq.trans fuel⟩
    · obtain ⟨t'', m'', run, message'⟩ := (returns t).traps m₁
      rw [run] at next
      cases next
      cases same
      exact .inr ⟨out, fuel_eq.trans fuel, t'', rfl, message'.trans message⟩
  | same _ _ ih => exact ih metered

/-- A metered run that had fuel for all its steps shows how the run without metering ends. -/
theorem unmetered (takes : Takes x m k r m') (metered : m.fuel = some n) (enough : k ≤ n.toNat) :
    x (m.refuel none) = some (r, m'.refuel none) := by
  induction takes generalizing n with
  | free blind run => exact blind.run run none
  | @charge m m' r run =>
    rw [charge_metered metered, if_pos enough] at run
    cases run
    exact charge_unmetered rfl
  | @andThen α β x f m m₁ m' k l r s returns other takes _ first next =>
    obtain ⟨enough₁, fuel⟩ | ⟨_, _, t, trapped, _⟩ := takes.spent metered
    · rw [Run.andThen, first metered (by omega)]
      exact next fuel (by rw [toNat_sub_ofNat enough₁]; omega)
    · exact absurd trapped (other t)
  | @trapped α β x f m m₁ m' k t s returns _ next first =>
    rw [Run.andThen, first metered enough]
    exact (returns t).blind.run next none
  | same alike _ ih => exact (alike none).trans (ih metered enough)

end Takes

end Run

end WasmMachine
