import WasmMachine.Proofs.Bounds
import WasmMachine.Proofs.Grounded
import WasmMachine.Proofs.Reached

/-!
# Unwinding

A host function can leave a run on purpose: it exits, or jumps back to the nearest trampoline.
`Unwinds` follows a run forwards to such a halt, through steps and calls, and through host
functions that enter the machine again and pass on what they get.  What is entered then ends with
that very halt (`Unwinds.halts`); only a trampoline and a call of an export make an outcome of it,
and neither leaves frames behind (`Machine.enter_unwinds`).
-/

namespace WasmMachine

variable {σ : Type} {h : Halt} {m m' : Machine σ}

/-- Carrying out a task comes to a host program that halts, and nothing on the way catches the
halt. Where a rule steps over a part that has ended well, that part is run by its own
definition. -/
inductive Unwinds (h : Halt) : Task σ → Machine σ → Prop
  -- within a host program
  | halt {m : Machine σ} : Unwinds h (.host (.halt h)) m
  | access {op : Access} {next : op.Reply → HostProg σ} {m : Machine σ} :
    Unwinds h (.host (next (op.perform m).1)) (op.perform m).2 →
    Unwinds h (.host (.access op next)) m
  | register {f : HostFunc σ} {next : HostProg σ} {m : Machine σ} :
    Unwinds h (.host next) (m.register f) → Unwinds h (.host (.register f next)) m
  | getState {next : σ → HostProg σ} {m : Machine σ} :
    Unwinds h (.host (next m.world)) m → Unwinds h (.host (.getState next)) m
  | setState {s : σ} {next : HostProg σ} {m : Machine σ} :
    Unwinds h (.host next) { m with world := s } → Unwinds h (.host (.setState s next)) m
  | entered {op : Entry} {next : Except Halt op.Reply → HostProg σ} {m m' : Machine σ}
    {reply : Except Halt op.Reply} (inner : Nat) : Machine.enter inner op m = some (reply, m') →
    Unwinds h (.host (next reply)) m' → Unwinds h (.host (.enter op next)) m
  | passed {op : Entry} {next : Except Halt op.Reply → HostProg σ} {m : Machine σ} :
    Unwinds h (.enter op) m → next (.error h) = .halt h → Unwinds h (.host (.enter op next)) m
  -- entries
  | trampoline {addr : Nat} {args : Array Value} {m : Machine σ} :
    Unwinds h (.enter (.invoke addr args)) m → h ≠ .longjmp →
    Unwinds h (.enter (.trampoline addr args)) m
  | invoke {addr : Nat} {args : Array Value} {func : StoreFunc σ} {m : Machine σ} :
    m.store.funcs[addr]? = some func → args.size = func.type.params.length →
    Unwinds h (.call addr)
      { m with frames := m.frames.push (.entry (Run.entryInst m func) args) } →
    Unwinds h (.enter (.invoke addr args)) m
  | invoked {addr : Nat} {args : Array Value} {func : StoreFunc σ} {m m' : Machine σ}
      (inner : Nat) :
    m.store.funcs[addr]? = some func → args.size = func.type.params.length →
    Run.call (Machine.enter inner) addr
      { m with frames := m.frames.push (.entry (Run.entryInst m func) args) } =
        some (.ok (), m') →
    Unwinds h (.loop fun m' => m.frames.size + 1 < m'.frames.size) m' →
    Unwinds h (.enter (.invoke addr args)) m
  -- steps
  | step {more : Machine σ → Bool} {m : Machine σ} :
    more m = true → Unwinds h .step m → Unwinds h (.loop more) m
  | stepped {more : Machine σ → Bool} {m m' : Machine σ} (inner : Nat) :
    more m = true → Run.step (Machine.enter inner) m = some (.ok (), m') →
    Unwinds h (.loop more) m' → Unwinds h (.loop more) m
  | call {m m' : Machine σ} {addr : Nat} : Run.instruction m = some (.ok (.call addr), m') →
    Unwinds h (.call addr) m' → Unwinds h .step m
  | callHost {addr : Nat} {f : Frame} {func : HostFunc σ} {args : Array Value} {m : Machine σ} :
    m.frames.size < m.config.maxCallDepth → m.frames.back? = some f →
    m.store.funcs[addr]? = some (.host func) → f.top? func.numArgs = some args →
    Unwinds h (.host (func.body (Run.hostFrame addr func f.inst args (m.frames.size - 1))))
      { m with frames := m.frames.pop.push (f.without func.numArgs) } →
    Unwinds h (.call addr) m

/-- What it means that a task ends with a halt: its run does, within some bound. -/
def Task.Halts (h : Halt) (m : Machine σ) : Task σ → Prop
  | .host p => ∃ bound m', Run.host (Machine.enter bound) p m = some (.error h, m')
  | .enter op => ∃ bound m', Machine.enter bound op m = some (.error h, m')
  | .call addr => ∃ bound m', Run.call (Machine.enter bound) addr m = some (.error h, m')
  | .loop more =>
    ∃ bound m', Run.stepWhile (Machine.enter bound) more bound m = some (.error h, m')
  | .step => ∃ bound m', Run.step (Machine.enter bound) m = some (.error h, m')
  | _ => False

namespace Unwinds

/-- A call from outside ends with the halt that its call ends with. -/
theorem invoke_halts {bound addr : Nat} {args : Array Value} {func : StoreFunc σ}
    (found : m.store.funcs[addr]? = some func) (count : args.size = func.type.params.length)
    (run : (do Run.call (Machine.enter bound) addr
               Run.execute (Machine.enter bound) bound (m.frames.size + 1))
      { m with frames := m.frames.push (.entry (Run.entryInst m func) args) }
        = some (.error h, m')) :
    ∃ m'', Machine.enter (bound + 1) (.invoke addr args) m = some (.error h, m'') := by
  refine ⟨{ m' with frames := m'.frames.shrink m.frames.size }, ?_⟩
  change Run.invoke (Machine.enter bound) bound addr args m = _
  rw [Run.invoke_eq, found]
  dsimp only
  rw [if_neg (not_not_intro count), run]

/-- What unwinds ends with the halt that it comes to. -/
theorem halts {task : Task σ} (unwinds : Unwinds h task m) : task.Halts h m := by
  induction unwinds with
  | @halt m => exact ⟨0, m, rfl⟩
  | access _ ih | register _ ih | getState _ ih | setState _ ih => exact ih
  | @entered op next m m₁ reply inner entered _ ih =>
    obtain ⟨bound, m', run⟩ := ih
    refine ⟨max inner bound, m', ?_⟩
    rw [Run.host_enter, Machine.enter_mono (Nat.le_max_left _ _) entered]
    exact Run.host_mono (Nat.le_max_right _ _) run
  | @passed op next m _ passes ih =>
    obtain ⟨bound, m', run⟩ := ih
    refine ⟨bound, m', ?_⟩
    rw [Run.host_enter, run]
    dsimp only
    rw [passes]
    rfl
  | @trampoline addr args m _ other ih =>
    obtain ⟨bound, m', run⟩ := ih
    cases bound with
    | zero => cases run
    | succ bound =>
      have invoked : Run.invoke (Machine.enter bound) bound addr args m = some (.error h, m') :=
        run
      refine ⟨bound + 1, m', ?_⟩
      change Run.trampoline (Machine.enter bound) bound addr args m = _
      rw [Run.Level.trampoline_eq (Machine.enter_grounds bound), invoked]
      cases h with
      | longjmp => exact absurd rfl other
      | trap t | exit code => rfl
  | invoke found count _ ih =>
    obtain ⟨bound, m₁, called⟩ := ih
    obtain ⟨m', run⟩ := invoke_halts found count (by rw [Run.bind_apply, called])
    exact ⟨bound + 1, m', run⟩
  | @invoked addr args func m m₁ inner found count called _ ih =>
    obtain ⟨bound, m₂, ran⟩ := ih
    have called' := Run.call_mono (Nat.le_max_left inner bound) called
    have le := Nat.le_max_right inner bound
    have ran' := Run.stepWhile_mono le le ran
    obtain ⟨m', run⟩ := invoke_halts found count (by rw [Run.bind_apply, called']; exact ran')
    exact ⟨max inner bound + 1, m', run⟩
  | @step more m holds _ ih =>
    obtain ⟨bound, m', ran⟩ := ih
    have ran' := Run.step_mono (Nat.le_succ bound) ran
    refine ⟨bound + 1, m', ?_⟩
    rw [Run.stepWhile_succ, if_pos holds, Run.bind_apply, ran']
  | @stepped more m m₁ inner holds stepped _ ih =>
    obtain ⟨bound, m', ran⟩ := ih
    have le : inner ≤ max inner bound + 1 := Nat.le_succ_of_le (Nat.le_max_left _ _)
    have le' : bound ≤ max inner bound + 1 := Nat.le_succ_of_le (Nat.le_max_right _ _)
    refine ⟨max inner bound + 1, m', ?_⟩
    rw [Run.stepWhile_succ, if_pos holds, Run.bind_apply, Run.step_mono le stepped]
    exact Run.stepWhile_mono le' (Nat.le_max_right _ _) ran
  | @call m m₁ addr asked _ ih =>
    obtain ⟨bound, m', called⟩ := ih
    refine ⟨bound, m', ?_⟩
    rw [Run.step_eq_instruction, Run.bind_apply, asked]
    dsimp only
    rw [Run.bind_apply, called]
  | @callHost addr f func args m shallow back found popped _ ih =>
    obtain ⟨bound, m', ran⟩ := ih
    obtain ⟨outer, top⟩ := Array.back?_eq_some_iff.mp back
    rw [top, Array.size_push, Nat.add_sub_cancel, Array.pop_push] at ran
    rw [top, Array.size_push] at shallow
    refine ⟨bound, m', ?_⟩
    rw [Run.call_eq _ _ top, if_neg (Nat.not_le.mpr shallow), found]
    dsimp only
    rw [popped]
    dsimp only
    rw [Run.bind_apply, ran]

/-- A guest without parameters that calls right away, on a machine that is not metered. -/
theorem guest {addr called : Nat} {g : ModuleFunc} {inst : Instance} {f : FuncIdx}
    (found : m.store.funcs[addr]? = some (.module g)) (params : g.type.params = [])
    (shallow : m.frames.size + 1 < m.config.maxCallDepth) (unmetered : m.fuel = none)
    (first : g.code[0]? = some (.call f)) (there : m.instances[g.inst]? = some inst)
    (denotes : inst.funcAddr f = .ok called)
    (inner : Unwinds h (.call called) { m with
      frames := (m.frames.push (.entry g.inst #[])).push
        { Run.callee addr g #[] m.frames.size with pc := 1 } }) :
    Unwinds h (.enter (.invoke addr #[])) m := by
  have start : Run.call (Machine.enter 0) addr
      { m with frames := m.frames.push (.entry (Run.entryInst m (.module g)) #[]) } =
      some (.ok (), { m with
        frames :=
          (m.frames.push (.entry g.inst #[])).push (Run.callee addr g #[] m.frames.size) }) := by
    rw [Run.call_eq _ _ rfl, if_neg (Nat.not_le.mpr shallow)]
    dsimp only
    rw [found]
    dsimp only
    rw [params]
    rfl
  refine .invoked 0 found (by simp [StoreFunc.type, params]) start
    (.step (by simp) (.call ?_ inner))
  have asks (a : Activation σ) : (Instr.call f).exec inst a = .ok (.call called) a := by
    simp [Instr.exec, Act.ofExcept, denotes]
  rw [Run.instruction_eq rfl]
  simp only [Machine.paying, unmetered, Run.callee, Frame.new, first, there, asks, Machine.within,
    Nat.zero_add]

end Unwinds

theorem Trampolined.ofCall_eq_unwound {r : Except Halt (Array Value)} :
    Trampolined.ofCall r = .ok .unwound ↔ r = .error .longjmp := by
  cases r with
  | ok values => simp [ofCall]
  | error h => cases h <;> simp [ofCall]

theorem Trampolined.ofCall_eq_error {r : Except Halt (Array Value)} :
    Trampolined.ofCall r = .error h ↔ h ≠ .longjmp ∧ r = .error h := by
  cases r with
  | ok values => simp [ofCall]
  | error h' => cases h' <;> simp [ofCall] <;> grind

theorem Outcome.ofCall_eq_exited {r : Except Halt (Array Value)} {code : Int32} :
    Outcome.ofCall r = .ok (.exited code) ↔ r = .error (.exit code) := by
  cases r with
  | ok values => constructor <;> intro same <;> cases same
  | error h =>
    cases h with
    | exit code' => constructor <;> intro same <;> cases same <;> rfl
    | trap t => constructor <;> intro same <;> cases same
    | longjmp => constructor <;> intro same <;> cases same

theorem eq_some_of_ofCall {α β γ : Type} {f : α → β} {x : Option (α × γ)} {b : β} {c : γ} :
    (x.map fun (a, c) => (f a, c)) = some (b, c) ↔ ∃ a, x = some (a, c) ∧ f a = b := by
  rw [Option.map_eq_some_iff]
  constructor
  · rintro ⟨⟨a, c'⟩, found, same⟩
    cases same
    exact ⟨a, found, rfl⟩
  · rintro ⟨a, found, rfl⟩
    exact ⟨(a, c), found, rfl⟩

/-- Entries are neutral on the frames. However a call, a call through a trampoline, a call of an
export or an instantiation ends, the frames are what they were. A halt that a host function
raises ends every call that encloses it, through frames of guests and through hosts that pass it
on; a trampoline makes an outcome of the end of its call exactly if that is a long jump, and
passes any other halt on; and a call of an export ends with an exit code exactly if its call
ended in that. -/
theorem Machine.enter_unwinds (m : Machine σ) :
    (∀ bound op r m', op.Tame (fun _ => True) → Machine.enter bound op m = some (r, m') →
      m'.frames = m.frames) ∧
    (∀ h addr args, Unwinds h (.enter (.invoke addr args)) m →
      ∃ bound m', Machine.enter bound (.invoke addr args) m = some (.error h, m')) ∧
    (∀ bound addr args m', Machine.enter bound (.trampoline addr args) m =
      some (.ok .unwound, m') ↔
      Machine.enter bound (.invoke addr args) m = some (.error .longjmp, m')) ∧
    (∀ bound addr args h m', Machine.enter bound (.trampoline addr args) m = some (.error h, m') ↔
      h ≠ .longjmp ∧ Machine.enter bound (.invoke addr args) m = some (.error h, m')) ∧
    ∀ bound inst name args code m',
      Machine.enter bound (.callExport inst name args) m = some (.ok (.exited code), m') ↔
        ∃ addr, m.exported? inst name = some (.func addr) ∧
          Machine.enter bound (.invoke addr args) m = some (.error (.exit code), m') := by
  refine ⟨fun bound op r m' tame run => (enter_level bound op).2 tame run,
    fun h addr args unwinds => unwinds.halts, fun bound addr args m' => ?_,
    fun bound addr args h m' => ?_, fun bound inst name args code m' => ?_⟩
  · rw [enter_trampoline, eq_some_of_ofCall]
    simp only [Trampolined.ofCall_eq_unwound, exists_eq_right]
  · rw [enter_trampoline, eq_some_of_ofCall]
    simp only [Trampolined.ofCall_eq_error]
    exact ⟨fun ⟨r, run, other, ended⟩ => ⟨other, ended ▸ run⟩,
      fun ⟨other, run⟩ => ⟨_, run, other, rfl⟩⟩
  · cases bound with
    | zero => exact ⟨fun run => by (cases run), fun ⟨_, _, run⟩ => by cases run⟩
    | succ bound =>
      change Run.callExport (Machine.enter bound) bound inst name args m = _ ↔ _
      rw [Run.callExport_eq]
      constructor
      · intro run
        split at run
        · next addr found =>
          obtain ⟨r, run, ended⟩ := eq_some_of_ofCall.mp run
          exact ⟨addr, found, Outcome.ofCall_eq_exited.mp ended ▸ run⟩
        · cases run
      · rintro ⟨addr, found, run⟩
        rw [found]
        exact eq_some_of_ofCall.mpr ⟨_, run, rfl⟩

/-- In the middle of a host call: a guest calls a host function that enters the machine again, and
the guest that it calls there calls one that jumps. -/
theorem Machine.enter_unwinds_of_jump :
    let calling (f : UInt32) : StoreFunc Unit :=
      .module ⟨⟨[], []⟩, [], #[.call ⟨f⟩, .endOf], 0, "guest"⟩
    let jump : HostFunc Unit := ⟨"env", "jump", ⟨[], []⟩, 0, 0, fun _ => .halt .longjmp⟩
    let again : HostFunc Unit := ⟨"env", "again", ⟨[], []⟩, 0, 0, fun frame =>
      .enter (.invoke 1 #[]) fun
        | .ok _ => .done frame
        | .error h => .halt h⟩
    let start : Machine Unit := { Machine.new {} () with
      store := { funcs := #[.host jump, calling 0, .host again, calling 2] }
      instances := #[{ (default : Instance) with funcs := #[0, 1, 2, 3] }]
      frames :=
        #[.entry 0 #[.null], .new (some 3) #[.call ⟨2⟩, .endOf] 0 #[] 0 (some 0) ⟨0, 2, 0⟩] }
    ∃ bound m', Machine.enter bound (.trampoline 3 #[]) start = some (.ok .unwound, m') ∧
      m'.frames = start.frames := by
  intro calling jump again start
  have unwinds : Unwinds .longjmp (.enter (.invoke 3 #[])) start := by
    refine .guest rfl rfl (by decide) rfl rfl rfl rfl ?_
    refine .callHost (by decide) rfl rfl rfl (.passed ?_ rfl)
    refine .guest rfl rfl (by decide) rfl rfl rfl rfl ?_
    exact .callHost (by decide) rfl rfl rfl .halt
  obtain ⟨frames, halts, caught, _, _⟩ := Machine.enter_unwinds start
  obtain ⟨bound, m', run⟩ := halts .longjmp 3 #[] unwinds
  have run' := (caught bound 3 #[] m').mpr run
  exact ⟨bound, m', run', frames bound (.trampoline 3 #[]) _ _ trivial run'⟩

end WasmMachine
