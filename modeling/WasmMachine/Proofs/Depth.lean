import WasmMachine.Proofs.CallLimit
import WasmMachine.Proofs.Moments
import WasmMachine.Proofs.Stability

/-!
# The depth of frames

Three parts of a run put frames on top of others: a call of a guest function, a call from outside
and a constant expression.  Only calls look at the limit of the configuration.  The other two are
within it all the same, but for one frame: they are entered by host programs, a host function is
started by a call, and the limit leaves room for one frame above it (`Frame.Chain`).  A host
program that steps the machine itself can fill that room before it enters the machine, and then
the frames go beyond the limit by one (`Visited.beyond_limit`); they never go further.

`Visited.depth_bounded` has the bounds, and what a call does at the limit; and frames are a chain,
in which every caller is right below.
-/

namespace WasmMachine

variable {σ α β : Type} {fs gs hs : Array Frame} {f : Frame} {limit n N : Nat}

/-! ## Chains of frames -/

/-- Frames that are no more than some others and have their callers where those have theirs. -/
def Frame.Under (fs gs : Array Frame) : Prop :=
  ∀ ⦃i : Nat⦄ ⦃g⦄, gs[i]? = some g → ∃ f, fs[i]? = some f ∧ g.prev = f.prev

/-- A number of frames at most, in which each that has a caller is right above it and within the
limit on calls. -/
structure Frame.Chain (limit n : Nat) (fs : Array Frame) : Prop where
  linked : ∀ ⦃i f caller⦄, fs[i]? = some f → f.prev = some caller → caller + 1 = i ∧ i < limit
  size : fs.size ≤ n

namespace Frame.Under

theorem refl (fs : Array Frame) : Under fs fs := fun _ g there => ⟨g, there, rfl⟩

theorem trans (first : Under fs gs) (second : Under gs hs) : Under fs hs := by
  intro i h there
  obtain ⟨g, there, same⟩ := second there
  obtain ⟨f, there, same'⟩ := first there
  exact ⟨f, there, same.trans same'⟩

theorem size_le (under : Under fs gs) : gs.size ≤ fs.size := by
  rcases Nat.lt_or_ge fs.size gs.size with longer | le
  · obtain ⟨f, there, -⟩ := under (Array.getElem?_eq_getElem longer)
    rw [Array.getElem?_eq_none (Nat.le_refl _)] at there
    cases there
  · exact le

theorem below (fs : Array Frame) (f : Frame) : Under (fs.push f) fs := by
  intro i g there
  have lt := (Array.getElem?_eq_some_iff.mp there).1
  exact ⟨g, by rw [Array.getElem?_push, if_neg (by omega), there], rfl⟩

theorem top {g : Frame} (same : g.prev = f.prev) : Under (fs.push f) (fs.push g) := by
  intro i h there
  rw [Array.getElem?_push] at there ⊢
  split at there
  · next last =>
    cases there
    exact ⟨f, by rw [if_pos last], same⟩
  · next inner => exact ⟨h, by rw [if_neg inner, there], rfl⟩

theorem operands (idx : Nat) (stack : Frame → Array Value) :
    Under fs (fs.modify idx fun f => { f with stack := stack f }) := by
  intro i g there
  rw [Array.getElem?_modify] at there
  split at there
  · obtain ⟨f, before, rfl⟩ := Option.map_eq_some_iff.mp there
    exact ⟨f, before, rfl⟩
  · exact ⟨g, there, rfl⟩

end Frame.Under

namespace Frame.Chain

theorem empty (limit n : Nat) : Chain limit n #[] where
  linked i f caller there := by simp at there
  size := Nat.zero_le n

theorem under (chain : Chain limit n fs) (under : Under fs gs) : Chain limit n gs where
  linked i g caller there calls := by
    obtain ⟨f, there, same⟩ := under there
    exact chain.linked there (same ▸ calls)
  size := Nat.le_trans under.size_le chain.size

theorem resize (chain : Chain limit n fs) (few : fs.size ≤ N) : Chain limit N fs :=
  ⟨chain.linked, few⟩

theorem mono (chain : Chain limit n fs) (le : n ≤ N) : Chain limit N fs :=
  chain.resize (Nat.le_trans chain.size le)

/-- A frame that has no caller can be put on top, also at the limit. -/
theorem push_free (chain : Chain limit n fs) (free : f.prev = none) :
    Chain limit (n + 1) (fs.push f) where
  linked i g caller there calls := by
    rw [Array.getElem?_push] at there
    split at there
    · cases there
      rw [free] at calls
      cases calls
    · exact chain.linked there calls
  size := by
    rw [Array.size_push]
    exact Nat.succ_le_succ chain.size

/-- A called frame can be put on its caller below the limit. -/
theorem push_called (chain : Chain limit n (fs.push f)) {g : Frame}
    (calls : g.prev = some fs.size)
    (room : fs.size + 1 < limit) (le : limit ≤ n) : Chain limit n ((fs.push f).push g) where
  linked i h caller there calls' := by
    rw [Array.getElem?_push, Array.size_push] at there
    split at there
    · next last =>
      cases there
      cases calls.symm.trans calls'
      exact ⟨last.symm, last ▸ room⟩
    · exact chain.linked there calls'
  size := by
    simp only [Array.size_push]
    omega

end Frame.Chain

/-! ## Runs that keep a chain -/

/-- Programs all whose entries are of a kind, those of the programs that they register
included. -/
abbrev HostProg.Enters (E : Entry → Prop) : HostProg σ → Prop :=
  HostProg.Obeys (fun _ => True) fun op _ => E op

/-- Programs that register only host functions whose programs have a property, whatever they do
themselves. -/
inductive HostProg.Registers (G : HostProg σ → Prop) : HostProg σ → Prop
  | done (frame : Frame) : Registers G (.done frame)
  | halt (reason : Halt) : Registers G (.halt reason)
  | access (op : Access) {next : op.Reply → HostProg σ} :
    (∀ reply, Registers G (next reply)) → Registers G (.access op next)
  | enter (op : Entry) {next : Except Halt op.Reply → HostProg σ} :
    (∀ reply, Registers G (next reply)) → Registers G (.enter op next)
  | register {f : HostFunc σ} {next : HostProg σ} :
    (∀ frame, G (f.body frame)) → Registers G next → Registers G (.register f next)
  | getState {next : σ → HostProg σ} : (∀ s, Registers G (next s)) → Registers G (.getState next)
  | setState (s : σ) {next : HostProg σ} : Registers G next → Registers G (.setState s next)

/-- A machine whose frames are a chain within its limit on calls, and whose host functions enter
it in ways of one kind alone. -/
structure Machine.Chained (E : Entry → Prop) (limit n : Nat) (m : Machine σ) : Prop where
  hosts : m.Hosts (HostProg.Enters E)
  config : m.config.maxCallDepth = limit
  chain : Frame.Chain limit n m.frames

/-- A run that keeps a chain, however it ends. -/
def Run.Keeps (E : Entry → Prop) (limit n : Nat) (α : Type) (x : Run σ α) : Prop :=
  ∀ ⦃m r m'⦄, m.Chained E limit n → x m = some (r, m') → m'.Chained E limit n

/-- An entry that leaves stepping to the machine; any other one needs room for every call. -/
def Entry.Fits (limit n : Nat) (op : Entry) : Prop := op.Tame (fun _ => True) ∨ limit ≤ n

variable {E : Entry → Prop} {m m' : Machine σ}

/-- What runs on a machine whose host functions enter it in ways of one kind. -/
abbrev Run.EvolvingOf (E : Entry → Prop) (α : Type) (x : Run σ α) : Prop :=
  Evolving (fun _ => True) (HostProg.Enters E) 0 α x

namespace Machine.Chained

variable (chained : m.Chained E limit n)
include chained

theorem evolved (evolves : m.Evolves (fun _ => True) (HostProg.Enters E) (0 ≤ ·) m')
    (chain : Frame.Chain limit N m'.frames) : m'.Chained E limit N :=
  ⟨evolves.hosts chained.hosts, by rw [evolves.config_eq, chained.config], chain⟩

theorem after {x : Run σ α} {r : Except Halt α} (evolving : Run.EvolvingOf E α x)
    (run : x m = some (r, m')) (chain : Frame.Chain limit N m'.frames) : m'.Chained E limit N :=
  chained.evolved (evolving chained.hosts (Nat.zero_le _) run) chain

theorem frames (fs : Array Frame) (chain : Frame.Chain limit N fs) :
    Chained E limit N { m with frames := fs } :=
  chained.evolved (.frames fs m) chain

theorem mono (le : n ≤ N) : m.Chained E limit N :=
  { chained with chain := chained.chain.mono le }

theorem ran {x : Run σ α} {r : Except Halt α} (keeps : Run.Keeps E limit n α x)
    (run : x m = some (r, m')) : m'.Chained E limit n :=
  keeps chained run

end Machine.Chained

namespace Run.Keeps

variable {x : Run σ α}

theorem of_under (evolving : Run.EvolvingOf E α x)
    (under : ∀ ⦃m r m'⦄, x m = some (r, m') → Frame.Under m.frames m'.frames) :
    Keeps E limit n α x :=
  fun _ _ _ chained run => chained.after evolving run (chained.chain.under (under run))

theorem of_level (evolving : Run.EvolvingOf E α x) (level : Level α x) : Keeps E limit n α x :=
  of_under evolving fun m r m' run => by rw [level run]; exact .refl _

theorem bind {k : α → Run σ β} (first : Keeps E limit n α x)
    (next : ∀ a, Keeps E limit n β (k a)) : Keeps E limit n β (x >>= k) := by
  intro m r m' chained run
  rcases bind_cases run with ⟨h, head, -⟩ | ⟨a, m₁, head, run⟩
  · exact first chained head
  · exact next a (first chained head) run

/-- Runs that keep a chain make up such runs. -/
theorem closed : Closed fun α (x : Unit → Run σ α) => Keeps E limit n α (x ()) where
  pure a := of_level (.pure a) (.pure a)
  throw h := of_level (.throw h) (.throw h)
  bind := bind
  look _ next := fun m _ _ chained run => next m chained run
  op change := of_level (Evolving.closed.op change) (.store _)

theorem allocate (name : String) (module : Module) (e : Externs) :
    Keeps E limit n _ (Run.allocate name module e : Run σ (Nat × Nat × Nat × Nat)) :=
  of_level (.allocate name trivial e) (.allocate name module e)

theorem fill (addr : Nat) (values : List Value) :
    Keeps E limit n Unit (Run.store (StoreM.fillElem addr values) : Run σ Unit) :=
  of_level (.fill (Nat.zero_le _) values) (.store _)

theorem constant (inner bound inst : Nat) (code : Code) :
    Keeps E limit n Value (Run.constant (Machine.enter inner) bound inst code : Run σ Value) :=
  of_level (Backing.constant (fun op _ _ => op.brings_all)
      (fun _ own => Machine.enter_backing (fun op _ _ => op.brings_all) inner own)
      bound inst code).evolving
    (Level.constant (fun outer op => Machine.enter_grounds inner outer op) bound inst code)

section Instantiation

variable (inner bound inst : Nat)

theorem elemValues (items : ElemItems) :
    Keeps E limit n _ (Run.elemValues (Machine.enter inner) bound inst items :
      Run σ (List Value)) :=
  @ClosedOnStore.elemValues _ _ _ (fun _ => Machine.enter inner)
    (fun _ => bound) closed.toClosedOnStore
    (constant inner bound) inst items

theorem initElem (addr : Nat) (segment : ElemSegment) :
    Keeps E limit n Unit (Run.initElem (Machine.enter inner) bound inst addr segment :
      Run σ Unit) :=
  @ClosedOnStore.initElem _ _ _ (fun _ => Machine.enter inner)
    (fun _ => bound) closed.toClosedOnStore
    (constant inner bound) inst addr segment (fill addr)

theorem initData (addr : Nat) (segment : DataSegment) :
    Keeps E limit n Unit (Run.initData (Machine.enter inner) bound inst addr segment :
      Run σ Unit) :=
  @ClosedOnStore.initData _ _ _ (fun _ => Machine.enter inner)
    (fun _ => bound) closed.toClosedOnStore
    (constant inner bound) inst addr segment

variable (name : String) (module : Module) (e : Externs)

theorem withGlobals : Keeps E limit n _
    (Run.withGlobals (Machine.enter inner) bound name module e : Run σ (Nat × Nat × Nat)) :=
  closed.withGlobals (fun _ => Machine.enter inner) (fun _ => bound) (constant inner bound)
    (allocate name module e)

theorem withElems : Keeps E limit n _
    (Run.withElems (Machine.enter inner) bound name module e : Run σ (Nat × Nat)) :=
  closed.withElems (fun _ => Machine.enter inner) (fun _ => bound) (constant inner bound)
    (allocate name module e) fill

theorem withDatas : Keeps E limit n _
    (Run.withDatas (Machine.enter inner) bound name module e : Run σ Nat) :=
  closed.withDatas (fun _ => Machine.enter inner) (fun _ => bound) (constant inner bound)
    (allocate name module e) fill

end Instantiation

theorem instruction : Keeps E limit n Flow (Run.instruction : Run σ Flow) := by
  refine of_under Evolving.closed.instruction fun m r m' run => ?_
  by_cases empty : m.frames = #[]
  · obtain ⟨t, m₁, trapped, none⟩ := instruction_empty empty
    rw [trapped] at run
    cases run
    rw [empty, none]
    exact .refl _
  · obtain ⟨outer, f, top⟩ := Array.exists_push_of_ne_empty empty
    cases instructs top run with
    | unpaid => exact .refl _
    | ended paid _ | homeless paid _ =>
      rw [Machine.paying_eq paid]
      exact .refl _
    | @traps paid i inst t b _ _ _ ran | @runs paid i inst t b _ _ _ ran =>
      have kept := (i.exec_same inst ⟨{ f with pc := f.pc + 1 }, paid.store⟩).prev
      rw [ran] at kept
      rw [top]
      exact .top kept

theorem finish : Keeps E limit n Unit (Run.finish : Run σ Unit) := by
  refine of_under Evolving.closed.finish fun m r m' run => ?_
  by_cases empty : m.frames = #[]
  · rw [Run.finish, get_bind, empty] at run
    cases run
    exact .refl _
  · obtain ⟨outer, f, top⟩ := Array.exists_push_of_ne_empty empty
    cases finishes top run with
    | stays => exact .refl _
    | fails => exact top ▸ .below _ _
    | returns =>
      rw [top]
      exact (Frame.Under.below _ _).trans (.operands _ _)

theorem handBack (caller : Nat) (frame : Frame) :
    Keeps E limit n Unit (Run.handBack caller frame : Run σ Unit) := by
  unfold Run.handBack
  split
  · exact of_level (Evolving.closed.trap _) fun m r m' run => by cases run; rfl
  · refine of_under (Evolving.closed.pushOperands caller _) fun m r m' run => ?_
    rw [Run.pushOperands, get_bind] at run
    split at run <;> cases run
    · exact .operands caller _
    · exact .refl _

section Entries

variable (room : limit ≤ n + 1) {inner : Nat}
  (entries : ∀ op, E op → Keeps E limit n _ (Machine.enter inner op : Run σ op.Reply))
include entries

theorem host {p : HostProg σ} (enters : p.Enters E) :
    Keeps E limit n _ (Run.host (Machine.enter inner) p) := by
  induction enters with
  | done frame =>
    intro m r m' chained run
    cases run
    exact chained
  | halt reason =>
    intro m r m' chained run
    cases run
    exact chained
  | @access op next _ _ ih =>
    intro m r m' chained run
    have frames : (op.perform m).2.frames = m.frames :=
      (op.perform_quiet (P := fun _ => True) m).1
    have same : Frame.Chain limit n (op.perform m).2.frames := frames ▸ chained.chain
    exact ih _ (chained.evolved (op.perform_alters m).evolves same) run
  | @enter op next own _ ih =>
    intro m r m' chained run
    obtain ⟨reply, m₁, entered, run⟩ := host_enter_cases run
    exact ih reply (entries op own chained entered) run
  | @register f next own _ _ ih =>
    exact fun m r m' chained run => ih (chained.evolved (.register own m) chained.chain) run
  | getState _ ih => exact fun m r m' chained run => ih m.world chained run
  | setState s _ ih =>
    exact fun m r m' chained run => ih (chained.evolved (.world s m) chained.chain) run

include room

/-- A call keeps a chain that has room for every call: a guest function is started below the
limit, and so is a host function, whose program then has room for a frame that has no caller. -/
theorem call (calls : limit ≤ N) (host : n ≤ N) (addr : Nat) :
    Keeps E limit N Unit (Run.call (Machine.enter inner) addr : Run σ Unit) := by
  intro m r m' chained run
  by_cases empty : m.frames = #[]
  · obtain ⟨t, called⟩ := call_empty (Machine.enter inner) addr empty
    rw [called] at run
    cases run
    exact chained
  · obtain ⟨outer, f, top⟩ := Array.exists_push_of_ne_empty empty
    have popped (count : Nat) : Frame.Chain limit N (outer.push (f.without count)) :=
      chained.chain.under (top ▸ .top rfl)
    have limited := chained.config
    cases Run.calls top run with
    | refused => exact chained
    | guest shallow => exact chained.frames _ ((popped _).push_called rfl (by omega) calls)
    | @host g _ _ _ shallow stored _ run =>
      have own := chained.hosts.stored _ (Array.mem_of_getElem? stored)
      have few : (outer.push (f.without g.numArgs)).size ≤ n := by
        rw [Array.size_push]
        omega
      have started := chained.frames _ ((popped g.numArgs).resize few)
      exact ((Keeps.host entries (own _)).bind (handBack outer.size) started run).mono host

theorem step (calls : limit ≤ N) (host : n ≤ N) :
    Keeps E limit N Unit (Run.step (Machine.enter inner) : Run σ Unit) := by
  rw [step_eq_instruction]
  refine bind instruction fun flow => ?_
  cases flow with
  | next => exact finish
  | call addr => exact bind (Keeps.call room entries calls host addr) fun _ => finish

theorem stepWhile (calls : limit ≤ N) (host : n ≤ N) (more : Machine σ → Bool) (bound : Nat) :
    Keeps E limit N Unit (Run.stepWhile (Machine.enter inner) more bound) := by
  induction bound with
  | zero =>
    intro m r m' _ run
    cases run
  | succ bound ih =>
    intro m r m' chained run
    rw [stepWhile_succ] at run
    split at run
    · exact bind (Keeps.step room entries calls host) (fun _ => ih) chained run
    · cases run
      exact chained

end Entries

end Run.Keeps

section Entries

variable (steps : ∀ op, E op → op.Fits limit n) (room : limit ≤ n + 1)
include steps room

/-- An entry keeps a chain that leaves room for one frame without a caller. Entries that leave
stepping to the machine leave all frames as they were; a host program's own steps are as good as
those of the machine if there is room for every call. -/
theorem Machine.enter_keeps (inner : Nat) {op : Entry} (own : E op) :
    Run.Keeps E limit n _ (Machine.enter inner op : Run σ op.Reply) := by
  induction inner generalizing op with
  | zero =>
    intro m r m' _ run
    cases run
  | succ inner ih =>
    have evolving : Run.EvolvingOf E _ (Machine.enter (inner + 1) op : Run σ op.Reply) :=
      Machine.enter_evolves (fun op _ _ => op.brings_all) (inner + 1) op.brings_all
    rcases steps op own with tame | calls
    · exact .of_level evolving ((Machine.enter_level (inner + 1) op).2 tame)
    · cases op with
      | step => exact .step room (fun op own => ih own) calls (Nat.le_refl n)
      | execute depth =>
        exact .stepWhile room (fun op own => ih own) calls (Nat.le_refl n) _ inner
      | _ => exact .of_level evolving ((Machine.enter_level (inner + 1) _).2 trivial)

end Entries

/-! ## Whatever is visited -/

/-- How many frames there are at most when the machine is busy with something, if there are `n` at
most whenever a host program has control. -/
def Task.room (n : Nat) : Task σ → Nat
  | .call _ | .loop _ | .step => n + 1
  | _ => n

/-- What is left to do enters the machine in ways of one kind, or starts without frames and
registers only what does so. -/
def Task.Ready (E : Entry → Prop) (limit n : Nat) (m : Machine σ) : Task σ → Prop
  | .host p => p.Enters E ∨ m.frames = #[] ∧ p.Registers (HostProg.Enters E)
  | .enter op => op.Fits limit n ∨ m.frames = #[]
  | _ => True

/-- Without frames an entry has nothing to step. -/
theorem Machine.enter_bare {inner : Nat} {op : Entry} {reply : Except Halt op.Reply}
    (empty : m.frames = #[]) (run : Machine.enter inner op m = some (reply, m')) :
    m'.frames = #[] := by
  cases inner with
  | zero => cases run
  | succ inner =>
    cases op with
    | step =>
      obtain ⟨t, m₁, trapped, none⟩ := Run.instruction_empty empty
      change Run.step _ m = _ at run
      rw [Run.step_eq_instruction, Run.bind_apply, trapped] at run
      cases run
      exact none
    | execute depth =>
      change Run.stepWhile _ _ inner m = _ at run
      cases inner with
      | zero => cases run
      | succ inner =>
        rw [Run.stepWhile_succ, empty] at run
        cases run
        exact empty
    | _ =>
      refine ((Machine.enter_level _ _).2 ?_ run).trans empty
      trivial

section Visited

variable (steps : ∀ op, E op → op.Fits limit n) (room : limit ≤ n + 1)
include steps room

/-- One transition keeps the chain of frames. -/
theorem Task.Leads.keeps {task task' : Task σ} (leads : task.Leads m task' m')
    (chained : m.Chained E limit (task.room n)) (ready : task.Ready E limit n m) :
    m'.Chained E limit (task'.room n) ∧ task'.Ready E limit n m' := by
  have entries (inner : Nat) (op : Entry) (own : E op) :
      Run.Keeps E limit n _ (Machine.enter inner op : Run σ op.Reply) :=
    Machine.enter_keeps steps room inner own
  have entering {m : Machine σ} (chained : m.Chained E limit n) (func : StoreFunc σ)
      (args : Array Value) : (m.entering func args).Chained E limit (n + 1) :=
    chained.frames _ (chained.chain.push_free rfl)
  have closed : Run.Closed fun α (x : Unit → Run σ α) => Run.Keeps E limit n α (x ()) :=
    Run.Keeps.closed
  cases leads with
  | @access op next =>
    have frames : (op.perform m).2.frames = m.frames :=
      (op.perform_quiet (P := fun _ => True) m).1
    have same : Frame.Chain limit n (op.perform m).2.frames := frames ▸ chained.chain
    refine ⟨chained.evolved (op.perform_alters m).evolves same, ?_⟩
    rcases ready with enters | ⟨empty, registers⟩
    · cases enters with
      | access _ rest => exact .inl (rest _)
    · cases registers with
      | access _ rest => exact .inr ⟨frames.trans empty, rest _⟩
  | register =>
    rcases ready with enters | ⟨empty, registers⟩
    · cases enters with
      | register own rest => exact ⟨chained.evolved (.register own m) chained.chain, .inl rest⟩
    · cases registers with
      | register own rest =>
        exact ⟨chained.evolved (.register own m) chained.chain, .inr ⟨empty, rest⟩⟩
  | getState =>
    refine ⟨chained, ?_⟩
    rcases ready with enters | ⟨empty, registers⟩
    · cases enters with
      | getState rest => exact .inl (rest _)
    · cases registers with
      | getState rest => exact .inr ⟨empty, rest _⟩
  | @setState s next =>
    refine ⟨chained.evolved (.world s m) chained.chain, ?_⟩
    rcases ready with enters | ⟨empty, registers⟩
    · cases enters with
      | setState _ rest => exact .inl rest
    · cases registers with
      | setState _ rest => exact .inr ⟨empty, rest⟩
  | @enter op next =>
    rcases ready with enters | ⟨empty, -⟩
    · cases enters with
      | enter own _ => exact ⟨chained, .inl (steps op own)⟩
    · exact ⟨chained, .inr empty⟩
  | @entered op next m m' reply inner run =>
    rcases ready with enters | ⟨empty, registers⟩
    · cases enters with
      | enter own rest => exact ⟨chained.ran (entries inner op own) run, .inl (rest reply)⟩
    · have empty' := Machine.enter_bare empty run
      have evolving : Run.EvolvingOf E _ (Machine.enter inner op : Run σ op.Reply) :=
        Machine.enter_evolves (fun op _ _ => op.brings_all) inner op.brings_all
      cases registers with
      | enter _ rest =>
        exact ⟨chained.after evolving run (empty' ▸ .empty limit n), .inr ⟨empty', rest reply⟩⟩
  | trampoline | callExport => exact ⟨chained, .inl (.inl trivial)⟩
  | invoke => exact ⟨entering chained _ _, trivial⟩
  | invoked inner _ _ run =>
    exact ⟨(entering chained _ _).ran (.call room (entries inner) room (Nat.le_succ n) _) run,
      trivial⟩
  | stepping | executing => exact ⟨chained.mono (Nat.le_succ n), trivial⟩
  | globals run => exact ⟨chained.ran (.allocate _ _ _) run, trivial⟩
  | global | items | dataOffset | item => exact ⟨chained, trivial⟩
  | globalSet inner bound run =>
    refine ⟨chained.ran (.bind (.constant inner bound _ _) fun v => ?_) run, trivial⟩
    exact closed.op (.setGlobal _ v)
  | elems inner bound run => exact ⟨chained.ran (.withGlobals inner bound _ _ _) run, trivial⟩
  | elemOffset inner bound _ run => exact ⟨chained.ran (.elemValues inner bound _ _) run, trivial⟩
  | elemSet inner bound run => exact ⟨chained.ran (.initElem inner bound _ _ _) run, trivial⟩
  | datas inner bound run => exact ⟨chained.ran (.withElems inner bound _ _ _) run, trivial⟩
  | dataSet inner bound run => exact ⟨chained.ran (.initData inner bound _ _ _) run, trivial⟩
  | start inner bound run =>
    exact ⟨chained.ran (.withDatas inner bound _ _ _) run, .inl (.inl trivial)⟩
  | itemDone inner bound run => exact ⟨chained.ran (.constant inner bound _ _) run, trivial⟩
  | constant => exact ⟨chained.frames _ (chained.chain.push_free rfl), trivial⟩
  | step => exact ⟨chained, trivial⟩
  | stepped inner _ run =>
    exact ⟨chained.ran (.step room (entries inner) room (Nat.le_succ n)) run, trivial⟩
  | call run => exact ⟨chained.ran .instruction run, trivial⟩
  | @callHost m outer caller addr f args top shallow stored popped =>
    -- below the limit on calls there is room for the program and one frame more
    have few : (outer.push (caller.without f.numArgs)).size ≤ n := by
      rw [top, Array.size_push, chained.config] at shallow
      rw [Array.size_push]
      omega
    have popped : Frame.Chain limit (n + 1) (outer.push (caller.without f.numArgs)) :=
      chained.chain.under (top ▸ .top rfl)
    exact ⟨chained.frames _ (popped.resize few),
      .inl (chained.hosts.stored _ (Array.mem_of_getElem? stored) _)⟩

/-- Whatever is visited from a program that is ready, the frames are a chain. -/
theorem Visited.keeps {config : Config} {world : σ} {program : HostProg σ} {task : Task σ}
    (calls : config.maxCallDepth = limit)
    (ready : (Task.host program).Ready E limit n (Machine.new config world))
    (visited : Visited config world program task m) :
    m.Chained E limit (task.room n) ∧ task.Ready E limit n m := by
  induction visited with
  | begin => exact ⟨⟨Machine.new_hosts config world, calls, .empty limit n⟩, ready⟩
  | next _ leads ih => exact leads.keeps steps room ih.1 ih.2

end Visited

theorem Task.room_le (n : Nat) (task : Task σ) : task.room n ≤ n + 1 := by
  cases task <;> simp [room]

/-- Host programs that leave stepping to the machine, those that they register included. -/
abbrev HostProg.Calling : HostProg σ → Prop := HostProg.Enters fun op => op.Tame fun _ => True

section Main

variable {config : Config} {world : σ} {program : HostProg σ} {task : Task σ}

/-- Frames are at most one more than the limit on calls, whatever the host functions do, and if
these leave stepping to the machine they are within the limit, but for the frame that the very
first call from outside needs. The caller of a frame is the frame right below it, and frames with
a caller are within the limit. A step that asks for a call at the limit traps, before the call has
done anything. -/
theorem Visited.depth_bounded (visited : Visited config world program task m) :
    m.frames.size ≤ config.maxCallDepth + 1 ∧
    (program.Registers HostProg.Calling → m.frames.size ≤ max config.maxCallDepth 1) ∧
    (∀ i f caller, m.frames[i]? = some f → f.prev = some caller →
      caller + 1 = i ∧ i < config.maxCallDepth) ∧
    ∀ inner addr m', config.maxCallDepth ≤ m.frames.size →
      Run.instruction m = some (.ok (.call addr), m') →
      m.Asking m' ∧ ∃ t, Run.step (Machine.enter inner) m = some (.error (.trap t), m') ∧
        t.message = "call stack exhausted" := by
  have chained := (visited.keeps (n := config.maxCallDepth) (fun op _ => .inr (Nat.le_refl _))
    (Nat.le_succ _) rfl (.inl program.obeys_all)).1
  refine ⟨Nat.le_trans chained.chain.size (task.room_le _), fun calling => ?_,
    fun i f caller there calls => chained.chain.linked there calls,
    fun inner addr m' full run => ⟨Run.instruction_asks run, .callDepth, ?_, rfl⟩⟩
  · have within := (visited.keeps (n := config.maxCallDepth - 1) (fun op tame => .inl tame)
      (by omega) rfl (.inr ⟨rfl, calling⟩)).1
    have few := Nat.le_trans within.chain.size (task.room_le _)
    omega
  · exact Run.step_of_full _ (chained.config ▸ full) run

end Main

/-- A function that calls itself, called from outside with room for two frames: the second call
is one too many. -/
theorem Visited.depth_bounded_of_recursion :
    let sections : Sections := {
      types := [⟨[], []⟩], funcs := [⟨0⟩], bodies := [⟨[], #[.call ⟨0⟩, .endOf]⟩] }
    ∃ module, sections.build = .ok module ∧
      let program : HostProg Unit := .enter (.instantiate "a" module {}) fun _ =>
        .enter (.invoke 0 #[]) fun _ => .done default
      ∃ m m', Visited { maxCallDepth := 2 } () program .step m ∧ m.frames.size = 2 ∧
        m.frames.size ≤ max 2 1 ∧ Run.instruction m = some (.ok (.call 0), m') ∧ m.Asking m' ∧
        ∃ t, Run.step (Machine.enter 9) m = some (.error (.trap t), m') ∧
          t.message = "call stack exhausted" := by
  intro sections
  have ended : (sections.build.toOption.bind fun module =>
      (Machine.enter 9 (.instantiate "a" module {}) (Machine.new { maxCallDepth := 2 } ())).bind
        fun p => p.2.store.funcs[0]?.bind fun func =>
          (Run.call (Machine.enter 9) 0 (p.2.entering func #[])).bind fun q =>
            q.1.toOption.bind fun _ => (Run.instruction q.2).bind fun s =>
              s.1.toOption.map fun flow =>
              (p.2.frames.size, func.type.params.length, q.2.frames.size, flow))
      = some (0, 0, 2, .call 0) := by
    decide +kernel
  obtain ⟨module, built, ended⟩ := Option.bind_eq_some_iff.mp ended
  obtain ⟨⟨r, m₁⟩, instantiated, ended⟩ := Option.bind_eq_some_iff.mp ended
  obtain ⟨func, stored, ended⟩ := Option.bind_eq_some_iff.mp ended
  obtain ⟨⟨r', m₂⟩, called, ended⟩ := Option.bind_eq_some_iff.mp ended
  obtain ⟨⟨⟩, success, ended⟩ := Option.bind_eq_some_iff.mp ended
  obtain ⟨⟨r'', m₃⟩, asked, ended⟩ := Option.bind_eq_some_iff.mp ended
  obtain ⟨flow, success', ended⟩ := Option.map_eq_some_iff.mp ended
  simp only [Prod.mk.injEq] at ended
  obtain ⟨empty, count, two, rfl⟩ := ended
  cases (Except.of_toOption success : r' = _)
  cases (Except.of_toOption success' : r'' = _)
  have visited : Visited { maxCallDepth := 2 } () (.enter (.instantiate "a" module {}) fun _ =>
      .enter (.invoke 0 #[]) fun _ => .done default) _ _ := .begin
  have looping := ((visited.next (.entered 9 instantiated)).next .enter).next
    (.invoked 9 stored count.symm called)
  have stepping := looping.next (.step (by simp [empty, two]))
  have calling : HostProg.Registers HostProg.Calling (.enter (.instantiate "a" module {}) fun _ =>
      .enter (.invoke 0 #[]) fun _ => .done default : HostProg Unit) :=
    .enter _ fun _ => .enter _ fun _ => .done default
  obtain ⟨-, within, -, traps⟩ := Visited.depth_bounded stepping
  exact ⟨module, Except.of_toOption built, m₂, m₃, stepping, two, within calling, asked,
    traps 9 0 m₃ (Nat.le_of_eq two.symm) asked⟩

section Calls

variable {inner addr : Nat}

theorem Machine.later_of_call {r : Except Halt Unit}
    (run : Run.call (Machine.enter inner) addr m = some (r, m')) : m.Later m' := by
  have evolving : Run.EvolvingOf (σ := σ) (fun _ => True) _
      (Run.call (Machine.enter inner) addr) :=
    .call (fun op _ _ => op.brings_all)
      (fun _ own => Machine.enter_evolves (fun op _ _ => op.brings_all) inner own) addr
  exact (evolving m.hosts_all (Nat.zero_le _) run).later

theorem Machine.later_of_instruction {r : Except Halt Flow}
    (run : Run.instruction m = some (r, m')) : m.Later m' := by
  have evolving : Run.EvolvingOf (σ := σ) (fun _ => True) _ Run.instruction :=
    Run.Evolving.closed.instruction
  exact (evolving m.hosts_all (Nat.zero_le _) run).later

/-- A host function that has just been registered is found. -/
theorem Machine.resolve_registered (f : HostFunc σ) (expected : FuncType) (m : Machine σ) :
    (m.register f).resolveHostFunc f.module f.name expected
      = (.ok m.store.funcs.size, ((m.register f).addFunc (.host f)).2) := by
  have there : (m.register f).hostFuncs[HostFunc.key f.module f.name]? = some f :=
    Std.HashMap.getElem?_insert_self
  simp only [resolveHostFunc, there]
  rfl

/-- A call of a host function that takes no arguments starts its program. -/
theorem Visited.host_of_call {config : Config} {world : σ} {program : HostProg σ} {f : HostFunc σ}
    (visited : Visited config world program (.call addr) m)
    (stored : m.store.funcs[addr]? = some (.host f)) (none : f.numArgs = 0)
    (shallow : m.frames.size < m.config.maxCallDepth) (called : m.frames ≠ #[]) :
    ∃ frame, Visited config world program (.host (f.body frame)) m := by
  obtain ⟨outer, caller, top⟩ := Array.exists_push_of_ne_empty called
  have popped : caller.top? f.numArgs = some #[] := by simp [Frame.top?, none]
  have same : { m with frames := outer.push (caller.without f.numArgs) } = m := by
    rw [none, Frame.without_zero, ← top]
  have started := visited.next (.callHost top shallow stored popped)
  rw [same] at started
  exact ⟨_, started⟩

end Calls

/-- A host function that steps the machine before it instantiates a module. The step is a call
that takes the last of three frames, and then the initialiser of a global is evaluated in a
fourth. -/
theorem Visited.beyond_limit :
    let first : Sections := {
      types := [⟨[], []⟩], imports := [⟨"h", "f", .func ⟨0⟩⟩], funcs := [⟨0⟩, ⟨0⟩]
      bodies := [⟨[], #[.call ⟨0⟩, .call ⟨2⟩, .endOf]⟩, ⟨[], #[.endOf]⟩] }
    let second : Sections := { globals := [⟨⟨.i32, .const⟩, #[.i32Const 7, .endOf]⟩] }
    ∃ a b, first.build = .ok a ∧ second.build = .ok b ∧
      let f : HostFunc Unit := {
        module := "h", name := "f", type := ⟨[], []⟩, numArgs := 0, arity := 0
        body := fun frame => .enter .step fun _ => .enter (.instantiate "b" b {}) fun _ =>
          .done frame }
      let program : HostProg Unit := .register f <| .access (.resolveHostFunc "h" "f" f.type)
        fun _ => .enter (.instantiate "a" a { funcs := #[0] }) fun _ =>
          .enter (.invoke 1 #[]) fun _ => .done default
      ∃ task m, Visited { maxCallDepth := 3 } () program task m ∧ max 3 1 < m.frames.size := by
  intro first second
  let host (b : Module) : HostFunc Unit := {
    module := "h", name := "f", type := ⟨[], []⟩, numArgs := 0, arity := 0
    body :=
      fun frame => .enter .step fun _ => .enter (.instantiate "b" b {}) fun _ => .done frame }
  let linked (b : Module) : Machine Unit :=
    (((Machine.new { maxCallDepth := 3 } ()).register (host b)).addFunc (.host (host b))).2
  have ended : (first.build.toOption.bind fun a => second.build.toOption.bind fun b =>
      (Machine.enter 9 (.instantiate "a" a { funcs := #[0] }) (linked b)).bind fun p =>
        p.2.store.funcs[1]?.bind fun func =>
          (Run.call (Machine.enter 9) 1 (p.2.entering func #[])).bind fun q =>
            q.1.toOption.bind fun _ => (Run.instruction q.2).bind fun s =>
              s.1.toOption.bind fun flow => (Machine.enter 9 .step s.2).bind fun t =>
                (Run.allocate "b" b {} t.2).bind fun u => u.1.toOption.map fun _ =>
                  (flow, func.type.params.length, [p.2.frames.size, q.2.frames.size,
                    s.2.frames.size, s.2.config.maxCallDepth, b.globalInits.length,
                    u.2.frames.size]))
      = some (.call 0, 0, [0, 2, 2, 3, 1, 3]) := by
    decide +kernel
  obtain ⟨a, built, ended⟩ := Option.bind_eq_some_iff.mp ended
  obtain ⟨b, built', ended⟩ := Option.bind_eq_some_iff.mp ended
  obtain ⟨⟨r, m₁⟩, instantiated, ended⟩ := Option.bind_eq_some_iff.mp ended
  obtain ⟨func, stored, ended⟩ := Option.bind_eq_some_iff.mp ended
  obtain ⟨⟨r', m₂⟩, called, ended⟩ := Option.bind_eq_some_iff.mp ended
  obtain ⟨⟨⟩, success, ended⟩ := Option.bind_eq_some_iff.mp ended
  obtain ⟨⟨r'', m₃⟩, asked, ended⟩ := Option.bind_eq_some_iff.mp ended
  obtain ⟨flow, success', ended⟩ := Option.bind_eq_some_iff.mp ended
  obtain ⟨⟨reply, m₄⟩, stepped, ended⟩ := Option.bind_eq_some_iff.mp ended
  obtain ⟨⟨places, m₅⟩, allocated, ended⟩ := Option.bind_eq_some_iff.mp ended
  obtain ⟨⟨inst, addr, rest⟩, success'', ended⟩ := Option.map_eq_some_iff.mp ended
  simp only [Prod.mk.injEq, List.cons.injEq, and_true] at ended
  obtain ⟨rfl, count, empty, two, two', limit, one, three⟩ := ended
  cases (Except.of_toOption success : r' = _)
  cases (Except.of_toOption success' : r'' = _)
  cases (Except.of_toOption success'' : places = _)
  refine ⟨a, b, Except.of_toOption built, Except.of_toOption built', ?_⟩
  intro f program
  -- the embedder links the host function and calls the module
  have begun : Visited { maxCallDepth := 3 } () program _ _ := .begin
  have resolved : (Access.resolveHostFunc "h" "f" f.type).perform
      ((Machine.new { maxCallDepth := 3 } ()).register f) = (.ok 0, linked b) :=
    Machine.resolve_registered f f.type _
  have instantiating := (begun.next .register).next .access
  rw [resolved] at instantiating
  have looping := ((instantiating.next (.entered 9 instantiated)).next .enter).next
    (.invoked 9 stored count.symm called)
  -- the module calls the host function
  have asking := (looping.next (.step (by simp [empty, two]))).next (.call asked)
  have later : (linked b).Later m₃ :=
    (Machine.later_of_enter instantiated).trans <| (Machine.Evolves.frames _ m₁).trans <|
      (Machine.later_of_call called).trans (Machine.later_of_instruction asked)
  have nonempty : m₃.frames ≠ #[] := fun none => by simp [none] at two'
  obtain ⟨frame, hosting⟩ :=
    asking.host_of_call (later.func_kept rfl) (f := f) rfl (by omega) nonempty
  -- the host function steps the module, and then instantiates another
  have setting := ((hosting.next (.entered 9 stepped)).next .enter).next (.globals allocated)
  obtain ⟨code, inits⟩ := List.length_eq_one_iff.mp one
  rw [inits] at setting
  refine ⟨_, _, (setting.next .global).next .constant, ?_⟩
  simp [Run.starting, three]

end WasmMachine
