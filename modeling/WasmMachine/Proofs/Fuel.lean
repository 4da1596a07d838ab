import WasmMachine.Proofs.Termination

/-!
# Exact metering

Fuel counts the steps of a call, and changes nothing else about it (`Machine.metering_exact`).  A
call that takes `k` steps without metering takes them with fuel for `k` steps or more as well;
with fuel for fewer, or if it never ends, it runs out of fuel.
-/

namespace WasmMachine

variable {σ α : Type} {m m' : Machine σ}

/-- A call has ended in the trap of an exhausted budget: all fuel is spent, and the frames are
what they were. -/
structure Machine.RanOut (m : Machine σ) (r : Except Halt α) (m' : Machine σ) : Prop where
  trapped : ∃ t, r = .error (.trap t) ∧ t.message = "Step budget exceeded"
  spent : m'.fuel = some 0
  frames : m'.frames = m.frames

namespace Machine

variable {addr : Nat} {args : Array Value}

/-- A call that ends in the trap of an exhausted budget has run out of fuel. -/
theorem ranOut_of_trap {fuel : Option UInt64} {bound : Nat} {t : Trap}
    (run : enter bound (.invoke addr args) (m.refuel fuel) = some (.error (.trap t), m'))
    (message : t.message = Trap.fuelExhausted.message) (spent : m'.fuel = some 0) :
    m.RanOut (.error (.trap t) : Except Halt (Array Value)) m' := by
  have frames : m'.frames = (m.refuel fuel).frames :=
    (enter_level bound (.invoke addr args)).2 trivial run
  exact ⟨⟨t, rfl, message⟩, spent, frames⟩

/-- With fuel a call ends, after one step more than there is fuel for at most. -/
theorem Metered.invoke_takes {n : UInt64} (metered : (m.refuel (some n)).Metered n.toNat)
    (addr : Nat) (args : Array Value) :
    ∃ bound k r m', Run.Takes (enter bound (.invoke addr args)) (m.refuel (some n)) k r m' ∧
      k ≤ n.toNat + 1 := by
  obtain ⟨bound, ⟨r, m'⟩, run⟩ := metered.ends.enter (.invoke addr args)
  obtain ⟨k, takes⟩ := (enter_counts bound (.invoke addr args)).takes metered.hosts run
  refine ⟨bound, k, r, m', takes, ?_⟩
  obtain ⟨enough, _⟩ | ⟨out, _⟩ := takes.spent rfl
  · exact Nat.le_succ_of_le enough
  · exact Nat.le_of_eq out

/-- A call that does not end without metering runs out of any fuel. -/
theorem Metered.invoke_runs_out {n : UInt64} (metered : (m.refuel (some n)).Metered n.toNat)
    (unmetered : m.fuel = none) (endless : ∀ bound, enter bound (.invoke addr args) m = none) :
    ∃ bound r m', Run.Takes (enter bound (.invoke addr args)) (m.refuel (some n))
      (n.toNat + 1) r m' ∧
      m.RanOut r m' := by
  obtain ⟨bound, k, r, m', takes, _⟩ := metered.invoke_takes addr args
  obtain ⟨enough, _⟩ | ⟨rfl, spent, t, rfl, message⟩ := takes.spent rfl
  · have same : (m.refuel (some n)).refuel none = m := by
      rw [← unmetered]
      rfl
    have ended := takes.unmetered rfl enough
    rw [same, endless] at ended
    cases ended
  · exact ⟨bound, _, m', takes, ranOut_of_trap takes.run message spent⟩

/-- Metering is exact and changes no meaning, if host functions keep away from fuel. A call that
ends without metering has taken a number of steps. With fuel for as many or more it ends in the
same way, on the same machine but for the fuel, of which it has spent one for each step; with
fuel for fewer it runs out. A call that does not end without metering runs out of any fuel, at
the step that it cannot pay for. So a call with fuel ends, after one step more than there is
fuel for at most. -/
theorem metering_exact (unmetered : m.fuel = none) (hosts : m.Hosts HostProg.Indifferent)
    (addr : Nat) (args : Array Value) :
    (∀ bound r m', enter bound (.invoke addr args) m = some (r, m') →
      ∃ k, Run.Takes (enter bound (.invoke addr args)) m k r m') ∧
    (∀ bound k r m', Run.Takes (enter bound (.invoke addr args)) m k r m' → ∀ n : UInt64,
      (k ≤ n.toNat → enter bound (.invoke addr args) (m.refuel (some n)) =
        some (r, m'.refuel (some (n - .ofNat k)))) ∧
      (n.toNat < k → ∃ r' m'', enter bound (.invoke addr args)
        (m.refuel (some n)) = some (r', m'') ∧
        m.RanOut r' m'')) ∧
    ((∀ bound, enter bound (.invoke addr args) m = none) → ∀ n : UInt64, ∃ bound r m',
      Run.Takes (enter bound (.invoke addr args)) (m.refuel (some n)) (n.toNat + 1) r m' ∧
        m.RanOut r m') ∧
    ∀ n : UInt64, ∃ bound k r m',
      Run.Takes (enter bound (.invoke addr args)) (m.refuel (some n)) k r m' ∧
      k ≤ n.toNat + 1 := by
  have metered (n : UInt64) : (m.refuel (some n)).Metered n.toNat := ⟨hosts.of_same rfl rfl, rfl⟩
  refine ⟨fun bound r m' run => (enter_counts bound (.invoke addr args)).takes hosts run,
    fun bound k r m' takes n => ?_, fun endless n =>
      (metered n).invoke_runs_out unmetered endless,
    fun n => (metered n).invoke_takes addr args⟩
  obtain ⟨enough, lacking⟩ := (takes.metered unmetered).2 n
  refine ⟨enough, fun short => ?_⟩
  obtain ⟨t, m'', run, message, spent⟩ := lacking short
  exact ⟨_, m'', run, ranOut_of_trap run message spent⟩

/-- A guest calls a host function that enters the machine again, where another guest runs: four
steps, two of them inside. -/
theorem metering_exact_of_relay :
    let guest (code : Code) : StoreFunc Unit := .module ⟨⟨[], []⟩, [], code, 0, "guest"⟩
    let relay : HostFunc Unit := ⟨"env", "relay", ⟨[], []⟩, 0, 0, fun frame =>
      .enter (.invoke 1 #[]) fun
        | .ok _ => .done frame
        | .error h => .halt h⟩
    let m : Machine Unit := { Machine.new {} () with
      store := { funcs := #[.host relay, guest #[.nop, .endOf], guest #[.call ⟨0⟩, .endOf]] }
      instances := #[{ (default : Instance) with funcs := #[0, 1, 2] }] }
    ∃ r m', Run.Takes (enter 9 (.invoke 2 #[])) m 4 r m' ∧ ∀ n : UInt64,
      (4 ≤ n.toNat → enter 9 (.invoke 2 #[]) (m.refuel (some n)) =
        some (r, m'.refuel (some (n - 4)))) ∧
      (n.toNat < 4 → ∃ r' m'', enter 9 (.invoke 2 #[]) (m.refuel (some n)) = some (r', m'') ∧
        m.RanOut r' m'') := by
  intro guest relay m
  have own : StoreFunc.Hosts HostProg.Indifferent (.host relay) := by
    intro frame
    refine .enter (fun t => .halt rfl) fun reply => ?_
    cases reply with
    | ok values => exact .done frame
    | error h => exact .halt h
  have hosts : m.Hosts HostProg.Indifferent := by
    refine ⟨fun f stored => ?_, fun key f registered => ?_⟩
    · have listed : f ∈ [.host relay, guest #[.nop, .endOf], guest #[.call ⟨0⟩, .endOf]] :=
        Array.mem_def.mp stored
      simp only [List.mem_cons, List.not_mem_nil, or_false] at listed
      obtain rfl | rfl | rfl := listed
      · exact own
      · trivial
      · trivial
    · have listed : (∅ : Std.HashMap String (HostFunc Unit))[key]? = some f := registered
      simp at listed
  obtain ⟨ends, exactly, _⟩ := metering_exact (m := m) rfl hosts 2 #[]
  have ended : (enter 9 (.invoke 2 #[]) m).isSome := by decide +kernel
  have lacking : (enter 9 (.invoke 2 #[]) (m.refuel (some 3))).map (·.1.toBool) = some false := by
    decide +kernel
  have enough : (enter 9 (.invoke 2 #[]) (m.refuel (some 4))).map (·.1.toBool) = some true := by
    decide +kernel
  obtain ⟨⟨r, m'⟩, run⟩ := Option.isSome_iff_exists.mp ended
  obtain ⟨k, takes⟩ := ends 9 r m' run
  have atMost : ¬ 4 < k := by
    intro more
    obtain ⟨r', m'', run', out⟩ := (exactly 9 k r m' takes 4).2 more
    obtain ⟨t, rfl, _⟩ := out.trapped
    rw [run'] at enough
    simp [Except.toBool] at enough
  have atLeast : ¬ k ≤ 3 := by
    intro less
    have less' : k ≤ 4 := by omega
    have run₃ := (exactly 9 k r m' takes 3).1 less
    have run₄ := (exactly 9 k r m' takes 4).1 less'
    rw [run₃] at lacking
    rw [run₄] at enough
    exact absurd (Option.some.inj lacking) (by rw [Option.some.inj enough]; decide)
  obtain rfl : k = 4 := by omega
  exact ⟨r, m', takes, exactly 9 4 r m' takes⟩

end Machine

end WasmMachine
