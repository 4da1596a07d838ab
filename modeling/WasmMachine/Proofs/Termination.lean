import WasmMachine.Proofs.Bounds
import WasmMachine.Proofs.Counting
import WasmMachine.Proofs.Grounded

/-!
# Metered runs end

A machine with fuel runs everything to its end (`Machine.Metered.ends`), if its host functions
keep away from fuel.  The argument is a double induction.  A step spends fuel, so that a loop of
steps ends, and whatever comes after a step may be assumed to end.  What comes before the first
step is calls of host functions within calls of host functions: each of them finds one more frame
on the machine, until the calls are too deep.
-/

namespace WasmMachine

variable {σ α β : Type}

/-- A machine with fuel for a number of steps, whose host functions keep away from fuel. -/
structure Machine.Metered (m : Machine σ) (n : Nat) : Prop where
  hosts : m.Hosts HostProg.Indifferent
  fuel : m.fuel.map (·.toNat) = some n

/-- A machine on which everything ends. -/
structure Machine.Ends (m : Machine σ) : Prop where
  host : ∀ {p : HostProg σ}, p.Indifferent →
    ∃ bound q, Run.host (Machine.enter bound) p m = some q
  call : ∀ addr, ∃ bound q, Run.call (Machine.enter bound) addr m = some q
  loop : ∀ more, ∃ bound q, Run.stepWhile (Machine.enter bound) more bound m = some q
  enter : ∀ op, ∃ bound q, Machine.enter bound op m = some q

variable {m m' : Machine σ} {n : Nat}

namespace Machine.Metered

theorem of_same (metered : m.Metered n) (hosts : m'.Hosts HostProg.Indifferent)
    (fuel : m'.fuel = m.fuel) : m'.Metered n :=
  ⟨hosts, fuel ▸ metered.fuel⟩

/-- No run adds fuel. -/
theorem after {x : Run σ α} (counts : Run.Counts α x) (metered : m.Metered n)
    {r : Except Halt α} (run : x m = some (r, m')) : ∃ n' ≤ n, m'.Metered n' := by
  obtain ⟨k, takes⟩ := counts.takes metered.hosts run
  obtain ⟨u, fuel, rfl⟩ := Option.map_eq_some_iff.mp metered.fuel
  have hosts := (counts.evolving metered.hosts (Nat.zero_le _) run).hosts metered.hosts
  obtain ⟨enough, left⟩ | ⟨_, left, _⟩ := takes.spent fuel
  · refine ⟨u.toNat - k, Nat.sub_le _ _, hosts, ?_⟩
    rw [left]
    exact congrArg some (Run.toNat_sub_ofNat enough)
  · refine ⟨0, Nat.zero_le _, hosts, ?_⟩
    rw [left]
    rfl

theorem unique (metered : m.Metered n) {n' : Nat} (metered' : m.Metered n') : n = n' :=
  Option.some.inj (metered.fuel.symm.trans metered'.fuel)

/-- An instruction spends fuel, or there was none and nothing has happened. -/
theorem instruction (metered : m.Metered n) {r : Except Halt Flow}
    (run : Run.instruction m = some (r, m')) :
    (m' = m ∧ ∃ h, r = .error h) ∨ ∃ n' < n, m'.Metered n' := by
  obtain ⟨u, fuel, rfl⟩ := Option.map_eq_some_iff.mp metered.fuel
  unfold Run.instruction at run
  rw [Run.bind_apply, Run.charge_metered fuel] at run
  by_cases enough : 1 ≤ u.toNat
  · rw [if_pos enough] at run
    have paid : (m.refuel (some (u - .ofNat 1))).Metered (u.toNat - 1) :=
      ⟨metered.hosts.of_same rfl rfl, congrArg some (Run.toNat_sub_ofNat enough)⟩
    have rest : Run.Counts Flow (Run.fetch >>= Run.dispatch : Run σ Flow) :=
      Run.Counts.bind Run.Counts.closed.fetch fun i => Run.Counts.closed.dispatch i
    obtain ⟨n', le, metered'⟩ := after rest paid run
    exact .inr ⟨n', by omega, metered'⟩
  · rw [if_neg enough] at run
    cases run
    exact .inl ⟨rfl, _, rfl⟩

end Machine.Metered

/-! ## Runs that do not loop -/

/-- A run that comes to an end on every machine. -/
def Run.Total (α : Type) (x : Run σ α) : Prop := ∀ m, ∃ q, x m = some q

namespace Run.Total

variable {x : Run σ α}

theorem bind {k : α → Run σ β} (first : Total α x) (next : ∀ a, Total β (k a)) :
    Total β (x >>= k) := by
  intro m
  obtain ⟨⟨r, m₁⟩, run⟩ := first m
  rw [bind_apply, run]
  cases r with
  | ok a => exact next a m₁
  | error h => exact ⟨_, rfl⟩

theorem catching {k : Halt → Run σ α} (inner : Total α x) (caught : ∀ h, Total α (k h)) :
    Total α (tryCatch x k) := by
  intro m
  obtain ⟨⟨r, m₁⟩, run⟩ := inner m
  rw [tryCatch_apply, run]
  cases r with
  | ok a => exact ⟨_, rfl⟩
  | error h => exact caught h m₁

theorem store (x : StoreM σ α) : Total α (Run.store x) := by
  intro m
  rw [store_eq]
  cases x m.store <;> exact ⟨_, rfl⟩

theorem charge : Total Unit (Run.charge : Run σ Unit) := by
  intro m
  rw [charge_eq]
  cases m.paying 1 <;> exact ⟨_, rfl⟩

theorem act (a : Act σ α) : Total α (Run.act a) := by
  intro m
  by_cases empty : m.frames = #[]
  · exact ⟨_, act_empty empty⟩
  · obtain ⟨outer, f, top⟩ := Array.exists_push_of_ne_empty empty
    rw [act_push top]
    cases a ⟨f, m.store⟩ <;> exact ⟨_, rfl⟩

theorem dispatch (i : Instr) : Total Flow (Run.dispatch i : Run σ Flow) := by
  refine bind (fun m => ?_) fun inst => act _
  rw [currentInstance_eq]
  split
  · exact ⟨_, rfl⟩
  · split <;> exact ⟨_, rfl⟩

theorem closed : ClosedOnFrames (fun _ : StoreFunc σ => True)
    fun α (x : Unit → Run σ α) => Total α (x ()) where
  pure _ _ := ⟨_, rfl⟩
  throw _ _ := ⟨_, rfl⟩
  bind := bind
  look _ next m := next m m
  op _ := store _
  func _ next := bind (store _) fun f => next f trivial
  charge := charge
  dispatch := dispatch
  popAll _ := act _
  frames _ _ := ⟨_, rfl⟩
  popFrame _ := ⟨_, rfl⟩
  catching inner caught _ := catching inner caught

theorem instruction : Total Flow (Run.instruction : Run σ Flow) := closed.instruction

theorem finish : Total Unit (Run.finish : Run σ Unit) := closed.finish

end Run.Total

namespace Machine

/-! ## Steps and loops -/

section Steps

variable (less : ∀ n' < n, ∀ m : Machine σ, m.Metered n' → m.Ends)
include less

/-- A step ends, and if it does not halt it has spent fuel. -/
theorem Metered.step_ends (metered : m.Metered n) :
    ∃ bound r m', Run.step (enter bound) m = some (r, m') ∧
      (r = .ok () → ∃ n' < n, m'.Metered n') := by
  obtain ⟨⟨r, m₁⟩, ran⟩ := Run.Total.instruction m
  cases r with
  | error h =>
    refine ⟨0, .error h, m₁, ?_, fun ok => by cases ok⟩
    rw [Run.step_eq_instruction, Run.bind_apply, ran]
  | ok flow =>
    obtain ⟨_, h, failed⟩ | ⟨n₁, lt, metered₁⟩ := metered.instruction ran
    · cases failed
    have finishes : Run.Counts Unit (Run.finish : Run σ Unit) := Run.Counts.closed.finish
    have spent {m₂ m' : Machine σ} {n₂ : Nat} (le : n₂ ≤ n₁) (metered₂ : m₂.Metered n₂)
        {r : Except Halt Unit} (run : Run.finish m₂ = some (r, m')) : ∃ n' < n,
        m'.Metered n' := by
      obtain ⟨n', le', metered'⟩ := metered₂.after finishes run
      exact ⟨n', by omega, metered'⟩
    cases flow with
    | next =>
      obtain ⟨⟨r, m'⟩, run⟩ := Run.Total.finish m₁
      refine ⟨0, r, m', ?_, fun _ => spent (Nat.le_refl _) metered₁ run⟩
      rw [Run.step_eq_instruction, Run.bind_apply, ran]
      exact run
    | call addr =>
      obtain ⟨bound, ⟨r, m₂⟩, called⟩ := (less n₁ lt m₁ metered₁).call addr
      cases r with
      | error h =>
        refine ⟨bound, .error h, m₂, ?_, fun ok => by cases ok⟩
        rw [Run.step_eq_instruction, Run.bind_apply, ran]
        dsimp only
        rw [Run.bind_apply, called]
      | ok _ =>
        have calls := Run.Counts.call (enter_counts (σ := σ) bound) addr
        obtain ⟨n₂, le, metered₂⟩ := metered₁.after calls called
        obtain ⟨⟨r, m'⟩, run⟩ := Run.Total.finish m₂
        refine ⟨bound, r, m', ?_, fun _ => spent le metered₂ run⟩
        rw [Run.step_eq_instruction, Run.bind_apply, ran]
        dsimp only
        rw [Run.bind_apply, called]
        exact run

/-- A loop of steps ends. -/
theorem Metered.loop_ends (metered : m.Metered n) (more : Machine σ → Bool) :
    ∃ bound q, Run.stepWhile (enter bound) more bound m = some q := by
  by_cases again : more m = true
  · obtain ⟨bound, r, m₁, stepped, spent⟩ := metered.step_ends less
    cases r with
    | error h =>
      refine ⟨bound + 1, (.error h, m₁), ?_⟩
      rw [Run.stepWhile_succ, if_pos again, Run.bind_apply, Run.step_mono (Nat.le_succ _) stepped]
    | ok _ =>
      obtain ⟨n', lt, metered'⟩ := spent rfl
      obtain ⟨bound', q, ran⟩ := (less n' lt m₁ metered').loop more
      have le : bound ≤ max bound bound' + 1 := Nat.le_succ_of_le (Nat.le_max_left _ _)
      have le' : bound' ≤ max bound bound' + 1 := Nat.le_succ_of_le (Nat.le_max_right _ _)
      refine ⟨max bound bound' + 1, q, ?_⟩
      rw [Run.stepWhile_succ, if_pos again, Run.bind_apply, Run.step_mono le stepped]
      exact Run.stepWhile_mono le' (Nat.le_max_right _ _) ran
  · refine ⟨1, (.ok (), m), ?_⟩
    rw [Run.stepWhile_succ, if_neg again]

end Steps

/-! ## Calls within calls -/

/-- On machines like this one and not less deep, host programs end. -/
def HostsEnd (m : Machine σ) (n : Nat) : Prop :=
  ∀ m', m'.Metered n → m'.config = m.config → m'.frames.size = m.frames.size →
    ∀ p : HostProg σ, p.Indifferent → ∃ bound q, Run.host (enter bound) p m' = some q

/-- On machines one frame deeper than this one, host programs end. -/
def DeeperEnd (m : Machine σ) (n : Nat) : Prop :=
  m.frames.size + 1 < m.config.maxCallDepth → ∀ f, HostsEnd { m with frames := m.frames.push f } n

/-- Only the number of frames counts. -/
theorem DeeperEnd.of_same {m₀ : Machine σ} (deeper : m₀.DeeperEnd n)
    (config : m.config = m₀.config) (size : m.frames.size = m₀.frames.size) : m.DeeperEnd n := by
  intro shallow f m' metered' config' size'
  rw [size, config] at shallow
  refine deeper shallow f m' metered' (config'.trans config) ?_
  rw [size', Array.size_push, Array.size_push, size]

/-- A call ends if it is too deep, or host programs end as deep as it is. -/
theorem Metered.call_ends (metered : m.Metered n)
    (hosts : m.frames.size < m.config.maxCallDepth → m.HostsEnd n) (addr : Nat) :
    ∃ bound q, Run.call (enter bound) addr m = some q := by
  by_cases empty : m.frames = #[]
  · obtain ⟨t, called⟩ := Run.call_empty (enter 0) addr empty
    exact ⟨0, _, called⟩
  · obtain ⟨outer, f, top⟩ := Array.exists_push_of_ne_empty empty
    have size : m.frames.size = outer.size + 1 := by rw [top, Array.size_push]
    simp only [Run.call_eq _ addr top]
    by_cases deep : m.config.maxCallDepth ≤ outer.size + 1
    · exact ⟨0, by simp [deep]⟩
    · simp only [if_neg deep]
      cases found : m.store.funcs[addr]? with
      | none => exact ⟨0, _, rfl⟩
      | some func =>
        cases func with
        | module g =>
          dsimp only
          cases f.top? g.type.params.length <;> exact ⟨0, _, rfl⟩
        | host g =>
          dsimp only
          cases f.top? g.numArgs with
          | none => exact ⟨0, _, rfl⟩
          | some args =>
            dsimp only
            have shallow : m.frames.size < m.config.maxCallDepth := by omega
            have own := metered.hosts.stored _ (Array.mem_of_getElem? found)
            have popped : Metered { m with frames := outer.push (f.without g.numArgs) } n :=
              metered.of_same (metered.hosts.of_same rfl rfl) rfl
            obtain ⟨bound, ⟨r, m₁⟩, ran⟩ :=
              hosts shallow _ popped rfl (by simp [size]) _
                (own (Run.hostFrame addr g f.inst args outer.size))
            refine ⟨bound, ?_⟩
            rw [Run.bind_apply, ran]
            cases r with
            | error h => exact ⟨_, rfl⟩
            | ok frame =>
              have total : Run.Total Unit (Run.handBack outer.size frame : Run σ Unit) := by
                unfold Run.handBack
                cases frame.top? frame.arity with
                | none => exact Run.Total.closed.trap _
                | some results => exact Run.Total.closed.pushOperands _ results
              exact total m₁

section Depth

variable (less : ∀ n' < n, ∀ m : Machine σ, m.Metered n' → m.Ends)
include less

/-- Loops end at once, or after others that spend fuel. -/
theorem Metered.loop_ends_of_le {n' : Nat} (le : n' ≤ n) (metered : m.Metered n')
    (more : Machine σ → Bool) : ∃ bound q, Run.stepWhile (enter bound) more bound m = some q :=
  metered.loop_ends (fun n₁ lt => less n₁ (by omega)) more

/-- A constant expression ends. -/
theorem Metered.constant_ends {n' : Nat} (le : n' ≤ n) (metered : m.Metered n') (inst : Nat)
    (code : Code) : ∃ bound q, Run.constant (enter bound) bound inst code m = some q := by
  have started : Metered { m with
      frames := m.frames.push (.new none code inst #[] 1 none ⟨0, code.size, 0⟩) } n' :=
    metered.of_same (metered.hosts.of_same rfl rfl) rfl
  obtain ⟨bound, ⟨r, m₁⟩, ran⟩ :=
    started.loop_ends_of_le less le (Run.openAt m.frames.size)
  refine ⟨bound, ?_⟩
  rw [Run.constant_eq, Run.get_bind, Run.bind_apply, Run.pushFrame, Run.modify_apply]
  dsimp only
  rw [Run.bind_apply, Run.restoring_apply, ran]
  cases r with
  | error h => exact ⟨_, rfl⟩
  | ok _ =>
    dsimp only
    rw [Run.bind_apply, Run.truncate, Run.modify_apply]
    dsimp only
    rw [Run.bind_apply, Run.popFrame?]
    cases (m₁.frames.shrink (m.frames.size + 1)).back? with
    | none => exact ⟨_, rfl⟩
    | some base =>
      dsimp only
      rcases base.stack.toList with _ | ⟨v, _ | ⟨w, more⟩⟩ <;> exact ⟨_, rfl⟩

omit less in
/-- A call from outside ends if the call in its own frame does, with the steps that follow it. -/
theorem invoke_ends_of {bound addr : Nat} {args : Array Value}
    (body : ∀ func, m.store.funcs[addr]? = some func → ∃ q,
      (do Run.call (enter bound) addr
          Run.execute (enter bound) bound (m.frames.size + 1))
        { m with frames := m.frames.push (.entry (Run.entryInst m func) args) } = some q) :
    ∃ q, enter (bound + 1) (.invoke addr args) m = some q := by
  change ∃ q, Run.invoke (enter bound) bound addr args m = some q
  rw [Run.invoke_eq]
  cases found : m.store.funcs[addr]? with
  | none => exact ⟨_, rfl⟩
  | some func =>
    dsimp only
    by_cases count : args.size ≠ func.type.params.length
    · rw [if_pos count]
      exact ⟨_, rfl⟩
    · obtain ⟨⟨r, m₁⟩, ran⟩ := body func found
      rw [if_neg count, ran]
      cases r with
      | error h => exact ⟨_, rfl⟩
      | ok _ =>
        dsimp only
        cases m₁.frames.back? <;> exact ⟨_, rfl⟩

/-- A call from outside ends if host programs end one frame deeper. -/
theorem Metered.invoke_ends (metered : m.Metered n) (deeper : m.DeeperEnd n) (addr : Nat)
    (args : Array Value) :
    ∃ bound q, enter bound (.invoke addr args) m = some q := by
  cases found : m.store.funcs[addr]? with
  | none =>
    refine ⟨1, invoke_ends_of fun func found' => ?_⟩
    rw [found] at found'
    cases found'
  | some func =>
    generalize entered : { m with
      frames := m.frames.push (.entry (Run.entryInst m func) args) } = m₀
    have metered₀ : m₀.Metered n := entered ▸ metered.of_same (metered.hosts.of_same rfl rfl) rfl
    have hosts (shallow : m₀.frames.size < m₀.config.maxCallDepth) : m₀.HostsEnd n := by
      subst entered
      exact deeper (by simpa using shallow) _
    obtain ⟨bound, ⟨r, m₁⟩, called⟩ := metered₀.call_ends hosts addr
    cases r with
    | error h =>
      refine ⟨bound + 1, invoke_ends_of fun func' found' => ⟨(.error h, m₁), ?_⟩⟩
      cases found.symm.trans found'
      rw [entered, Run.bind_apply, called]
    | ok _ =>
      obtain ⟨n', le, metered₁⟩ :=
        metered₀.after (Run.Counts.call (enter_counts bound) addr) called
      obtain ⟨bound', q, ran⟩ :=
        metered₁.loop_ends_of_le less le fun m' => m.frames.size + 1 < m'.frames.size
      have le' := Nat.le_max_right bound bound'
      refine ⟨max bound bound' + 1, invoke_ends_of fun func' found' => ⟨q, ?_⟩⟩
      cases found.symm.trans found'
      rw [entered, Run.bind_apply, Run.call_mono (Nat.le_max_left bound bound') called]
      exact Run.stepWhile_mono le' le' ran

end Depth

/-- A machine that has spent some of its fuel, or none of it and has as many frames as before. -/
structure Since (m₀ : Machine σ) (n : Nat) (m : Machine σ) : Prop where
  config : m.config = m₀.config
  fuel : ∃ n', m.Metered n' ∧ (n' < n ∨ n' = n ∧ m.frames.size = m₀.frames.size)

theorem Since.after {m₀ : Machine σ} (since : m₀.Since n m) {x : Run σ α}
    (counts : Run.Counts α x)
    (level : Run.Level α x) {r : Except Halt α} (run : x m = some (r, m')) : m₀.Since n m' := by
  obtain ⟨n₁, metered, spent⟩ := since.fuel
  obtain ⟨n₂, le, metered'⟩ := metered.after counts run
  refine ⟨(counts.evolving metered.hosts (Nat.zero_le _) run).config_eq.trans since.config, n₂,
    metered', ?_⟩
  obtain less | ⟨same, size⟩ := spent
  · exact .inl (by omega)
  · obtain less | same' := Nat.lt_or_eq_of_le (same ▸ le)
    · exact .inl less
    · exact .inr ⟨same', (congrArg Array.size (level run)).trans size⟩

end Machine

/-- A run, within each bound, that ends on machines of some kind and leaves a machine of the
kind. -/
structure Run.Ending (P : Machine σ → Prop) (α : Type) (x : Nat → Run σ α) : Prop where
  mono : ∀ ⦃small large⦄, small ≤ large → Agree α fun i => x (cond i large small)
  ends : ∀ ⦃m⦄, P m → ∃ bound r m', x bound m = some (r, m') ∧ P m'

namespace Run.Ending

variable {m₀ : Machine σ}

/-- Runs that have no bound, count no steps and leave the frames alone. -/
theorem still {x : Run σ α} (total : Total α x) (counts : Counts α x) (level : Level α x) :
    Ending (m₀.Since n) α fun _ => x := by
  refine ⟨fun _ _ _ => .same x, fun m since => ?_⟩
  obtain ⟨⟨r, m'⟩, run⟩ := total m
  exact ⟨0, r, m', run, since.after counts level run⟩

theorem bind {x : Nat → Run σ α} {k : α → Nat → Run σ β} (first : Ending (m₀.Since n) α x)
    (next : ∀ a, Ending (m₀.Since n) β (k a)) :
    Ending (m₀.Since n) β fun bound => x bound >>= fun a => k a bound := by
  refine ⟨fun _ _ le => (first.mono le).bind fun a => (next a).mono le, fun m since => ?_⟩
  obtain ⟨bound, r, m₁, ran, since₁⟩ := first.ends since
  cases r with
  | error h => exact ⟨bound, .error h, m₁, by rw [bind_apply, ran], since₁⟩
  | ok a =>
    obtain ⟨bound', r, m', ran', since'⟩ := (next a).ends since₁
    have ran₁ : x (max bound bound') m = some (.ok a, m₁) :=
      first.mono (Nat.le_max_left bound bound') ran
    have ran₂ : k a (max bound bound') m₁ = some (r, m') :=
      (next a).mono (Nat.le_max_right bound bound') ran'
    exact ⟨max bound bound', r, m', by rw [bind_apply, ran₁]; exact ran₂, since'⟩

theorem closed : Closed (Ending (m₀.Since n)) where
  pure a := still (Total.closed.pure a) (Counts.closed.pure a) (.pure a)
  throw h := still (Total.closed.throw h) (Counts.closed.throw h) (.throw h)
  bind := bind
  look _ next := ⟨fun _ _ le m _ run => (next m).mono le run, fun m since => (next m).ends since⟩
  op op := still (.store _) (Counts.closed.op op) (.store _)

end Run.Ending

namespace Machine

section Depth

variable (less : ∀ n' < n, ∀ m : Machine σ, m.Metered n' → m.Ends)
include less

theorem ending_constant {m₀ : Machine σ} (inst : Nat) (code : Code) :
    Run.Ending (m₀.Since n) Value fun bound => Run.constant (enter bound) bound inst code := by
  refine ⟨fun small large le => ?_, fun m since => ?_⟩
  · exact Run.Agree.closed.constant (fun i => enter (cond i large small))
      (fun i => cond i large small)
      (fun more _ => Run.Agree.stepWhile (entries_agree le) more le) inst code
  · obtain ⟨n', metered, spent⟩ := since.fuel
    obtain ⟨bound, ⟨r, m'⟩, run⟩ := metered.constant_ends less (by omega) inst code
    have counts : Run.Counts Value (Run.constant (enter bound) bound inst code : Run σ Value) :=
      Run.Counts.closed.constant (fun _ => enter bound) (fun _ => bound)
        (fun _ free => .stepWhile (enter_counts bound) free bound) inst code
    have level : Run.Level Value (Run.constant (enter bound) bound inst code : Run σ Value) :=
      .constant (enter_grounds bound) bound inst code
    exact ⟨bound, r, m', run, since.after counts level run⟩

section Deeper

variable {m₀ : Machine σ} (deeper : m₀.DeeperEnd n)
include deeper

theorem ending_invoke (addr : Nat) (args : Array Value) :
    Run.Ending (m₀.Since n) _ fun bound => Run.invoke (enter bound) bound addr args := by
  refine ⟨fun small large le => ?_, fun m since => ?_⟩
  · exact Run.Agree.closed.invoke (fun i => enter (cond i large small))
      (fun i => cond i large small)
      (Run.Agree.call (entries_agree le))
      (fun more _ => Run.Agree.stepWhile (entries_agree le) more le) addr args
  · obtain ⟨n', metered, spent⟩ := since.fuel
    have ends : ∃ bound q, enter bound (.invoke addr args) m = some q := by
      obtain lt | ⟨rfl, size⟩ := spent
      · exact (less n' lt m metered).enter _
      · exact metered.invoke_ends less (deeper.of_same since.config size) addr args
    obtain ⟨bound, ⟨r, m'⟩, run⟩ := ends
    cases bound with
    | zero => cases run
    | succ bound =>
      have run' : Run.invoke (enter bound) bound addr args m = some (r, m') := run
      have counts : Run.Counts _ (Run.invoke (enter bound) bound addr args : Run σ _) :=
        Run.Counts.closed.invoke (fun _ => enter bound) (fun _ => bound)
          (Run.Counts.call (enter_counts bound))
          (fun _ free => .stepWhile (enter_counts bound) free bound) addr args
      have level : Run.Level _ (Run.invoke (enter bound) bound addr args : Run σ _) :=
        .invoke (enter_grounds bound) bound addr args
      exact ⟨bound, r, m', run', since.after counts level run'⟩

theorem ending_instantiate (name : String) (module : Module) (e : Externs) :
    Run.Ending (m₀.Since n) _ fun bound =>
      Run.instantiate (enter bound) bound name module e := by
  refine Run.Ending.closed.instantiate (fun bound => enter bound) (fun bound => bound)
    (ending_constant less) (ending_invoke less deeper) (fun inst => .still ?_ ?_ ?_)
    (.still ?_ ?_ (.allocate name module e)) fun addr values => .still (.store _) ?_ (.store _)
  · exact fun m => ⟨_, rfl⟩
  · exact .publish inst name
  · exact .modify fun _ => rfl
  · intro m
    rw [Run.allocate_eq]
    split
    · exact ⟨_, rfl⟩
    · split <;> exact ⟨_, rfl⟩
  · exact .allocate name module e
  · exact .fill addr values

/-- An entry ends if host programs end one frame deeper. -/
theorem Metered.enter_ends (metered : m₀.Metered n) (op : Entry) :
    ∃ bound q, enter bound op m₀ = some q := by
  have invoke := metered.invoke_ends less deeper
  cases op with
  | invoke addr args => exact invoke addr args
  | trampoline addr args =>
    obtain ⟨bound, q, ran⟩ := invoke addr args
    exact ⟨bound, _, by rw [enter_trampoline, ran]; rfl⟩
  | callExport inst name args =>
    have ends (bound : Nat) {q}
        (ran : enter (bound + 1) (.callExport inst name args) m₀ = some q) :
        ∃ bound q, enter bound (.callExport inst name args) m₀ = some q := ⟨_, _, ran⟩
    have split (bound : Nat) : enter (bound + 1) (.callExport inst name args) m₀ = _ :=
      Run.callExport_eq (enter bound) bound inst name args m₀
    cases found : m₀.exported? inst name with
    | none => exact ends 0 ((split 0).trans (by rw [found]))
    | some v =>
      cases v with
      | func addr =>
        obtain ⟨bound, q, ran⟩ := invoke addr args
        cases bound with
        | zero => cases ran
        | succ bound =>
          have ran' : Run.invoke (enter bound) bound addr args m₀ = some q := ran
          exact ends bound ((split bound).trans (by rw [found]; dsimp only; rw [ran']; rfl))
      | table addr | mem addr | global addr => exact ends 0 ((split 0).trans (by rw [found]))
  | step =>
    obtain ⟨bound, r, m', ran, _⟩ := metered.step_ends less
    exact ⟨bound + 1, _, ran⟩
  | execute depth =>
    obtain ⟨bound, q, ran⟩ := metered.loop_ends less fun m => depth < m.frames.size
    exact ⟨bound + 1, q, ran⟩
  | instantiate name module e =>
    have since : m₀.Since n m₀ := ⟨rfl, n, metered, .inr ⟨rfl, rfl⟩⟩
    obtain ⟨bound, r, m', ran, _⟩ := (ending_instantiate less deeper name module e).ends since
    exact ⟨bound + 1, (r, m'), ran⟩

end Deeper

end Depth

/-! ## Host programs -/

/-- A step spends fuel, or it has found none and done nothing. -/
theorem Metered.step_spends (metered : m.Metered n) {bound : Nat} {r : Except Halt Unit}
    (run : Run.step (enter bound) m = some (r, m')) :
    (m' = m ∧ ∃ h, r = .error h) ∨ ∃ n' < n, m'.Metered n' := by
  rw [Run.step_eq_instruction] at run
  rcases Run.bind_cases run with ⟨h, ran, rfl⟩ | ⟨flow, m₁, ran, run⟩
  · obtain ⟨same, _⟩ | spent := metered.instruction ran
    · exact .inl ⟨same, h, rfl⟩
    · exact .inr spent
  · obtain ⟨_, _, failed⟩ | ⟨n₁, lt, metered₁⟩ := metered.instruction ran
    · cases failed
    have rest : Run.Counts Unit (match flow with
        | .next => Run.finish
        | .call addr => Run.call (enter bound) addr >>= fun _ => Run.finish : Run σ Unit) := by
      cases flow with
      | next => exact Run.Counts.closed.finish
      | call addr =>
        exact (Run.Counts.call (enter_counts bound) addr).bind fun _ => Run.Counts.closed.finish
    obtain ⟨n', le, metered'⟩ := metered₁.after rest (by cases flow <;> exact run)
    exact .inr ⟨n', by omega, metered'⟩

/-- A loop of steps spends fuel, or it has done nothing. -/
theorem Metered.loop_spends (metered : m.Metered n) {more : Machine σ → Bool}
    (free : ∀ m fuel, more (m.refuel fuel) = more m) {inner bound : Nat} {r : Except Halt Unit}
    (run : Run.stepWhile (enter inner) more bound m = some (r, m')) :
    m' = m ∨ ∃ n' < n, m'.Metered n' := by
  cases bound with
  | zero => cases run
  | succ bound =>
    rw [Run.stepWhile_succ] at run
    split at run
    · rcases Run.bind_cases run with ⟨h, ran, -⟩ | ⟨_, m₁, ran, run⟩
      · obtain ⟨same, _⟩ | spent := metered.step_spends ran
        · exact .inl same
        · exact .inr spent
      · obtain ⟨_, _, failed⟩ | ⟨n₁, lt, metered₁⟩ := metered.step_spends ran
        · cases failed
        have loops : Run.Counts Unit (Run.stepWhile (enter inner) more bound : Run σ Unit) :=
          .stepWhile (enter_counts inner) free bound
        obtain ⟨n', le, metered'⟩ := metered₁.after loops run
        exact .inr ⟨n', by omega, metered'⟩
    · cases run
      exact .inl rfl

/-- An entry that has spent nothing leaves as many frames as there were. -/
theorem Metered.size_of_unspent (metered : m.Metered n) {bound : Nat} {op : Entry}
    {r : Except Halt op.Reply} (run : enter bound op m = some (r, m')) (metered' : m'.Metered n) :
    m'.frames.size = m.frames.size := by
  have level (tame : op.Tame fun _ => True) : m'.frames.size = m.frames.size :=
    congrArg Array.size ((enter_level bound op).2 tame run)
  have unspent (spent : m' = m ∨ ∃ n' < n, m'.Metered n') : m'.frames.size = m.frames.size := by
    obtain rfl | ⟨n', lt, other⟩ := spent
    · rfl
    · exact absurd (other.unique metered') (Nat.ne_of_lt lt)
  cases bound with
  | zero => cases run
  | succ bound =>
    cases op with
    | invoke | trampoline | callExport | instantiate => exact level trivial
    | step => exact unspent ((metered.step_spends run).imp_left And.left)
    | execute depth =>
      have loop : Run.stepWhile (enter bound) (fun m => depth < m.frames.size) bound m
          = some (r, m') := run
      exact unspent (metered.loop_spends (fun _ _ => rfl) loop)

section Programs

variable (less : ∀ n' < n, ∀ m : Machine σ, m.Metered n' → m.Ends)
include less

/-- A host program ends if those do that run one frame deeper. -/
theorem Metered.host_ends_of {m₀ : Machine σ} (deeper : m₀.DeeperEnd n) (metered : m.Metered n)
    (config : m.config = m₀.config) (size : m.frames.size = m₀.frames.size) {p : HostProg σ}
    (own : p.Indifferent) : ∃ bound q, Run.host (enter bound) p m = some q := by
  induction own generalizing m with
  | done frame => exact ⟨0, _, rfl⟩
  | halt reason => exact ⟨0, _, rfl⟩
  | @access op next free _ ih =>
    have evolves : m.Evolves (fun _ => True) HostProg.Indifferent (0 ≤ ·) (op.perform m).2 :=
      (op.perform_alters m).evolves
    have frames : (op.perform m).2.frames = m.frames :=
      (op.perform_quiet (P := fun _ => True) m).1
    refine ih (op.perform m).1 ?_ (evolves.config_eq.trans config)
      ((congrArg Array.size frames).trans size)
    exact metered.of_same (evolves.hosts metered.hosts) (op.perform_fuel free m)
  | @enter op next _ all ih =>
    obtain ⟨bound, ⟨reply, m₁⟩, entered⟩ :=
      metered.enter_ends less (deeper.of_same config size) op
    obtain ⟨n', le, metered₁⟩ := metered.after (enter_counts bound op) entered
    have ends : ∃ bound q, Run.host (enter bound) (next reply) m₁ = some q := by
      obtain lt | rfl := Nat.lt_or_eq_of_le le
      · exact (less n' lt m₁ metered₁).host (all reply)
      · have evolves := (enter_counts bound op).evolving metered.hosts (Nat.zero_le _) entered
        refine ih reply metered₁ (evolves.config_eq.trans config) ?_
        rw [metered.size_of_unspent entered metered₁, size]
    obtain ⟨bound', q, ran⟩ := ends
    refine ⟨max bound bound', q, ?_⟩
    rw [Run.host_enter, enter_mono (Nat.le_max_left _ _) entered]
    exact Run.host_mono (Nat.le_max_right _ _) ran
  | @register f next own _ _ ih =>
    have evolves : m.Evolves (fun _ => True) HostProg.Indifferent (0 ≤ ·) (m.register f) :=
      .register own m
    have metered' : (m.register f).Metered n :=
      metered.of_same (evolves.hosts metered.hosts) rfl
    exact ih metered' config size
  | getState _ ih => exact ih m.world metered config size
  | @setState s next _ ih =>
    have metered' : Metered { m with world := s } n :=
      metered.of_same (metered.hosts.of_same rfl rfl) rfl
    exact ih metered' config size

/-- Host programs end, by induction on how many more calls within each other the machine
allows. -/
theorem Metered.host_ends (metered : m.Metered n) {p : HostProg σ} (own : p.Indifferent) :
    ∃ bound q, Run.host (enter bound) p m = some q := by
  generalize depth : m.config.maxCallDepth - m.frames.size = d
  induction d generalizing m p with
  | zero => exact metered.host_ends_of less (fun shallow => by omega) rfl rfl own
  | succ d ih =>
    refine metered.host_ends_of less
      (fun shallow f m' metered' config size p own => ?_) rfl rfl own
    rw [Array.size_push] at size
    have config' : m'.config = m.config := config
    refine ih metered' own ?_
    rw [config', size]
    omega

end Programs

/-- Everything that is asked of a metered machine ends. -/
theorem Metered.ends (metered : m.Metered n) : m.Ends := by
  induction n using Nat.strongRecOn generalizing m with
  | ind n less =>
    have hosts (m : Machine σ) : m.HostsEnd n := fun _ metered _ _ _ own =>
      metered.host_ends (fun n' lt _ => less n' lt) own
    have less' (n' : Nat) (lt : n' < n) (m : Machine σ) (metered : m.Metered n') : m.Ends :=
      less n' lt metered
    exact {
      host := metered.host_ends less'
      call := metered.call_ends fun _ => hosts m
      loop := metered.loop_ends less'
      enter := metered.enter_ends less' fun _ _ => hosts _ }

end Machine

end WasmMachine
