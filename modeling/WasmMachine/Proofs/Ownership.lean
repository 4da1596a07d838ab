import WasmMachine.Proofs.Homes
import WasmMachine.Proofs.Reached

/-!
# Functions run where they belong

A frame of a function has the function's code and runs in the instance whose number the function
carries (`Machine.Backed`), whatever runs on the machine.  Together with what
`Machine.Evolves.homes` says of that instance, no function is ever run against the types,
memories, tables or globals of another module, provided that the modules brought in are exporting
(`Reached.at_home`).  Without the proviso a function can be run so (`Reached.stray`).
-/

namespace WasmMachine

variable {σ α β : Type} {m m' : Machine σ} {f f₀ : Frame}

/-- A frame that has the code and the instance of the function that it says it is a call of. -/
def Machine.Backs (m : Machine σ) (f : Frame) : Prop :=
  ∀ a, f.func = some a → ∃ g, m.store.funcs[a]? = some (.module g) ∧ f.code = g.code ∧
  f.inst = g.inst

/-- A machine all whose frames are so. -/
def Machine.Backed (m : Machine σ) : Prop := ∀ f ∈ m.frames, m.Backs f

namespace Machine

/-- What backs a frame does not change while its code runs. -/
theorem Backs.of_same (backs : m.Backs f₀) (same : f₀.Same f) : m.Backs f := by
  unfold Frame.Same at same
  rw [same]
  exact backs

theorem Backs.of_none (free : f.func = none) : m.Backs f := by
  intro a calls
  rw [free] at calls
  cases calls

variable {Q : Module → Prop} {G : HostProg σ → Prop} {F : Nat → Prop}

/-- It is kept by whatever happens to the machine, since functions stay at their addresses. -/
theorem Backs.kept (backs : m.Backs f) (evolves : m.Evolves Q G F m') : m'.Backs f := by
  intro a calls
  obtain ⟨g, stored, same⟩ := backs a calls
  exact ⟨g, evolves.func_kept stored, same⟩

end Machine

theorem Frame.Follow.refl (fs : Array Frame) : Follow fs fs := fun f mem => .inr ⟨f, mem, .refl f⟩

theorem Frame.Follow.top {outer : Array Frame} (same : f₀.Same f) :
    Follow (outer.push f₀) (outer.push f) := by
  intro g mem
  obtain below | rfl := Array.mem_push.mp mem
  · exact .inr ⟨g, Array.mem_push_of_mem f₀ below, .refl g⟩
  · exact .inr ⟨f₀, Array.mem_push_self, same⟩

/-! ## Runs that back their frames -/

variable {Q : Module → Prop} {G : HostProg σ → Prop}

/-- A run that leaves the frames backed if they were. -/
structure Run.Backing (Q : Module → Prop) (G : HostProg σ → Prop) (α : Type) (x : Run σ α) :
    Prop where
  evolving : Evolving Q G 0 α x
  backs : ∀ ⦃m r m'⦄, m.Hosts G → m.Backed → x m = some (r, m') → m'.Backed

namespace Run.Backing

variable {x : Run σ α}

/-- A run whose frames follow from those before backs them, whatever else it does. -/
theorem of_follow (evolving : Evolving Q G 0 α x)
    (follow : ∀ ⦃m r m'⦄, x m = some (r, m') → Frame.Follow m.frames m'.frames) :
    Backing Q G α x := by
  refine ⟨evolving, fun m r m' hosts backed run f mem => ?_⟩
  have evolves := evolving hosts (Nat.zero_le _) run
  obtain free | ⟨f₀, before, same⟩ := follow run f mem
  · exact .of_none free
  · exact ((backed f₀ before).of_same same).kept evolves

theorem of_frames (evolving : Evolving Q G 0 α x)
    (frames : ∀ ⦃m r m'⦄, x m = some (r, m') → m'.frames = m.frames) : Backing Q G α x :=
  of_follow evolving fun _ _ _ run => by rw [frames run]; exact .refl _

/-- Frames that are backed after the first run are those that the second one starts from. -/
theorem bind {k : α → Run σ β} (first : Backing Q G α x) (next : ∀ a, Backing Q G β (k a)) :
    Backing Q G β (x >>= k) := by
  refine ⟨first.evolving.bind fun a => (next a).evolving, fun m r m' hosts backed run => ?_⟩
  rcases bind_cases run with ⟨h, head, -⟩ | ⟨a, m₁, head, run⟩
  · exact first.backs hosts backed head
  · have hosts₁ := (first.evolving hosts (Nat.zero_le _) head).hosts hosts
    exact (next a).backs hosts₁ (first.backs hosts backed head) run

theorem catching {k : Halt → Run σ α} (inner : Backing Q G α x)
    (caught : ∀ h, Backing Q G α (k h)) :
    Backing Q G α (tryCatch x k) := by
  refine ⟨inner.evolving.catching fun h => (caught h).evolving, fun m r m' hosts backed run => ?_⟩
  rcases tryCatch_cases run with ⟨a, head, -⟩ | ⟨h, m₁, head, run⟩
  · exact inner.backs hosts backed head
  · have hosts₁ := (inner.evolving hosts (Nat.zero_le _) head).hosts hosts
    exact (caught h).backs hosts₁ (inner.backs hosts backed head) run

theorem get {k : Machine σ → Run σ α} (next : ∀ m, Backing Q G α (k m)) :
    Backing Q G α (MonadState.get >>= k) :=
  ⟨.get fun m => (next m).evolving, fun m _ _ hosts backed run => (next m).backs hosts backed run⟩

theorem getFunc {k : StoreFunc σ → Run σ α} (addr : Nat)
    (next : ∀ f : StoreFunc σ, f.Hosts G → Backing Q G α (k f)) :
    Backing Q G α (Run.store (StoreM.getFunc addr) >>= k) := by
  refine ⟨.getFunc addr fun f own => (next f own).evolving, fun m r m' hosts backed run => ?_⟩
  rw [bind_apply, getFunc_eq] at run
  cases found : m.store.funcs[addr]? with
  | none =>
    rw [found] at run
    cases run
    exact backed
  | some f =>
    rw [found] at run
    exact (next f (hosts.stored f (Array.mem_of_getElem? found))).backs hosts backed run

theorem store {x : StoreM σ α} (evolving : Evolving Q G 0 α (Run.store x)) :
    Backing Q G α (Run.store x) := by
  refine of_frames evolving fun m r m' run => ?_
  rw [store_eq] at run
  split at run <;> cases run <;> rfl

theorem charge : Backing Q G Unit Run.charge := by
  refine of_frames .charge fun m r m' run => ?_
  rw [charge_eq] at run
  split at run <;> cases run
  · rfl
  · next paid => rw [Machine.paying_eq paid]

theorem popAll (count : Nat) : Backing Q G (Array Value) (Run.act (FrameM.popAll count)) := by
  refine of_follow (Evolving.closed.popAll count) fun m r m' run => ?_
  by_cases empty : m.frames = #[]
  · rw [act_empty empty] at run
    cases run
    exact .refl _
  · obtain ⟨outer, f, top⟩ := Array.exists_push_of_ne_empty empty
    rw [popAll_eq count top] at run
    split at run <;> cases run
    · exact .refl _
    · rw [top]
      exact .top rfl

/-- An instruction stays in its frame. -/
theorem dispatch (i : Instr) : Backing Q G Flow (Run.dispatch i) := by
  refine of_follow (.dispatch i) fun m r m' run => ?_
  by_cases empty : m.frames = #[]
  · rw [Run.dispatch, bind_apply, currentInstance_eq, empty] at run
    cases run
    exact .refl _
  · obtain ⟨outer, f, top⟩ := Array.exists_push_of_ne_empty empty
    rw [dispatch_eq i top] at run
    split at run
    · cases run
      exact .refl _
    · next inst _ =>
      have same := i.exec_same inst ⟨{ f with pc := f.pc + 1 }, m.store⟩
      have follow {b : Activation σ} (same : Frame.Same { f with pc := f.pc + 1 } b.frame) :
          Frame.Follow m.frames (m.within outer b).frames := by
        rw [top]
        exact .top (Frame.Same.trans (g := { f with pc := f.pc + 1 }) rfl same)
      split at run <;> next ran => rw [ran] at same; cases run; exact follow same

theorem closed : ClosedOnFrames (StoreFunc.Hosts G)
    fun α (x : Unit → Run σ α) => Backing Q G α (x ()) where
  pure a := of_frames (.pure a) fun _ _ _ run => by cases run; rfl
  throw h := of_frames (.throw h) fun _ _ _ run => by cases run; rfl
  bind := bind
  look _ := get
  op op := store (Evolving.closed.op op)
  func addr next := getFunc addr next
  charge := charge
  dispatch := dispatch
  popAll := popAll
  frames moves := of_follow (Evolving.closed.frames moves) fun m _ _ run => by
    cases run
    exact moves m.frames
  popFrame := of_follow Evolving.closed.popFrame fun m _ _ run => by
    cases run
    exact Moves.pop m.frames
  catching inner caught _ := catching inner caught

theorem allocate (name : String) {module : Module} (kind : Q module) (e : Externs) :
    Backing Q G _ (Run.allocate name module e) := by
  refine of_frames (.allocate name kind e) fun m r m' run => ?_
  rw [allocate_eq] at run
  split at run
  · cases run
    rfl
  · split at run <;> cases run <;> rfl

theorem publish (inst : Nat) (name : String) : Backing Q G Unit (Run.publish inst name) :=
  of_frames (.publish inst name) fun _ _ _ run => by cases run; rfl

theorem fill (addr : Nat) (values : List Value) :
    Backing Q G Unit (Run.store (StoreM.fillElem addr values)) :=
  store (.fill (Nat.zero_le _) values)

/-! ### Entries -/

section Entries

variable {A : Access → Prop} {E : (op : Entry) → (Except Halt op.Reply → HostProg σ) → Prop}
  (kinds : ∀ op next, E op next → op.Brings Q) {enter : Enter σ}
  (entries : ∀ op : Entry, op.Brings Q → Backing Q (HostProg.Obeys A E) _ (enter op))
include kinds entries

/-- A host program has frames only through its entries. -/
theorem host {p : HostProg σ} (obeys : p.Obeys A E) :
    Backing Q (HostProg.Obeys A E) _ (Run.host enter p) := by
  have evolving {p : HostProg σ} (obeys : p.Obeys A E) :
      Evolving Q (HostProg.Obeys A E) 0 _ (Run.host enter p) :=
    .host kinds (fun op brings => (entries op brings).evolving) obeys
  have after {m m₁ m' : Machine σ} {p : HostProg σ} {r : Except Halt Frame}
      (ih : Backing Q (HostProg.Obeys A E) _ (Run.host enter p))
      (hosts : m.Hosts (HostProg.Obeys A E)) (backed : m.Backed)
      (evolves : m.Evolves Q (HostProg.Obeys A E) (0 ≤ ·) m₁) (frames : m₁.frames = m.frames)
      (run : Run.host enter p m₁ = some (r, m')) : m'.Backed :=
    ih.backs (evolves.hosts hosts) (fun f mem => (backed f (frames ▸ mem)).kept evolves) run
  induction obeys with
  | done frame => exact closed.pure frame
  | halt reason => exact closed.throw reason
  | @access op next own all ih =>
    refine ⟨evolving (.access own all), fun m r m' hosts backed run => ?_⟩
    have frames : (op.perform m).2.frames = m.frames :=
      (op.perform_quiet (P := fun _ => True) m).1
    exact after (ih _) hosts backed (op.perform_alters m).evolves frames run
  | @enter op next own all ih =>
    refine ⟨evolving (.enter own all), fun m r m' hosts backed run => ?_⟩
    have backing := entries op (kinds op next own)
    obtain ⟨reply, m₁, entered, run⟩ := host_enter_cases run
    have hosts' := (backing.evolving hosts (Nat.zero_le _) entered).hosts hosts
    exact (ih _).backs hosts' (backing.backs hosts backed entered) run
  | @register f next own rest _ ih =>
    exact ⟨evolving (.register own rest), fun m r m' hosts backed run =>
      after ih hosts backed (.register own m) rfl run⟩
  | @getState next all ih => exact get fun m => ih m.world
  | @setState s next rest ih =>
    exact ⟨evolving (.setState s rest), fun m r m' hosts backed run =>
      after ih hosts backed (.world s m) rfl run⟩

/-- A call that starts a guest starts it in a frame that is backed. -/
theorem call (addr : Nat) : Backing Q (HostProg.Obeys A E) Unit (Run.call enter addr) := by
  refine ⟨.call kinds (fun op brings => (entries op brings).evolving) addr,
    fun m r m' hosts backed run => ?_⟩
  by_cases empty : m.frames = #[]
  · obtain ⟨t, called⟩ := call_empty enter addr empty
    rw [called] at run
    cases run
    exact backed
  · obtain ⟨outer, f, top⟩ := Array.exists_push_of_ne_empty empty
    have below (n : Nat) : Machine.Backed { m with frames := outer.push (f.without n) } := by
      intro g mem
      obtain below | rfl := Array.mem_push.mp mem
      · exact backed g (top ▸ Array.mem_push_of_mem f below)
      · exact backed f (top ▸ Array.mem_push_self)
    cases calls top run with
    | refused => exact backed
    | guest _ stored =>
      intro g' mem
      obtain before | rfl := Array.mem_push.mp mem
      · exact below _ g' before
      · intro a called
        cases called
        exact ⟨_, stored, rfl, rfl⟩
    | @host g _ _ _ _ stored _ run =>
      have own := hosts.stored _ (Array.mem_of_getElem? stored)
      have handed (n : Nat) (frame : Frame) :
          Backing Q (HostProg.Obeys A E) Unit (Run.handBack n frame : Run σ Unit) := by
        unfold Run.handBack
        split
        · exact closed.trap _
        · exact closed.pushOperands n _
      have popped : Machine.Hosts (HostProg.Obeys A E)
          { m with frames := outer.push (f.without g.numArgs) } := hosts.of_same rfl rfl
      exact ((host kinds entries (own _)).bind fun frame => handed _ frame).backs popped
        (below _) run

theorem step : Backing Q (HostProg.Obeys A E) Unit (Run.step enter) :=
  closed.step (fun _ => enter) (call kinds entries)

theorem stepWhile (more : Machine σ → Bool) (bound : Nat) :
    Backing Q (HostProg.Obeys A E) Unit (Run.stepWhile enter more bound) := by
  induction bound with
  | zero => exact ⟨fun _ _ _ _ _ run => by (cases run), fun _ _ _ _ _ run => by cases run⟩
  | succ bound ih =>
    refine get fun m => ?_
    split
    · exact bind (step kinds entries) fun _ => ih
    · exact closed.pure ()

theorem constant (bound inst : Nat) (code : Code) :
    Backing Q (HostProg.Obeys A E) Value (Run.constant enter bound inst code) :=
  closed.constant (fun _ => enter) (fun _ => bound)
    (fun more _ => stepWhile kinds entries more bound) inst code

theorem elemValues (bound inst : Nat) (items : ElemItems) :
    Backing Q (HostProg.Obeys A E) _ (Run.elemValues enter bound inst items) :=
  @ClosedOnStore.elemValues _ _ _ (fun _ => enter) (fun _ => bound) closed.toClosedOnStore
    (constant kinds entries bound) inst items

theorem initElem (bound inst addr : Nat) (segment : ElemSegment) :
    Backing Q (HostProg.Obeys A E) _ (Run.initElem enter bound inst addr segment) :=
  @ClosedOnStore.initElem _ _ _ (fun _ => enter) (fun _ => bound) closed.toClosedOnStore
    (constant kinds entries bound) inst addr segment (fill addr)

theorem initData (bound inst addr : Nat) (segment : DataSegment) :
    Backing Q (HostProg.Obeys A E) _ (Run.initData enter bound inst addr segment) :=
  @ClosedOnStore.initData _ _ _ (fun _ => enter) (fun _ => bound) closed.toClosedOnStore
    (constant kinds entries bound) inst addr segment

section Stages

variable (bound : Nat) (name : String) {module : Module} (kind : Q module) (e : Externs)
include kind

theorem withGlobals :
    Backing Q (HostProg.Obeys A E) _ (Run.withGlobals enter bound name module e) :=
  closed.toClosed.withGlobals (fun _ => enter) (fun _ => bound) (constant kinds entries bound)
    (allocate name kind e)

theorem withElems : Backing Q (HostProg.Obeys A E) _ (Run.withElems enter bound name module e) :=
  closed.toClosed.withElems (fun _ => enter) (fun _ => bound) (constant kinds entries bound)
    (allocate name kind e) fill

theorem withDatas : Backing Q (HostProg.Obeys A E) _ (Run.withDatas enter bound name module e) :=
  closed.toClosed.withDatas (fun _ => enter) (fun _ => bound) (constant kinds entries bound)
    (allocate name kind e) fill

end Stages

theorem perform (bound : Nat) {op : Entry} (brings : op.Brings Q) :
    Backing Q (HostProg.Obeys A E) _ (op.perform enter bound) := by
  refine closed.perform (fun _ => enter) (fun _ => bound) (call kinds entries)
    (fun more _ => stepWhile kinds entries more bound) op
    fun name module e same constant invoke => ?_
  subst same
  exact closed.toClosed.instantiate (fun _ => enter) (fun _ => bound) constant invoke
    (fun inst => publish inst name) (allocate name brings e) fill

end Entries

end Run.Backing

/-- Every entry leaves the frames backed if they were. -/
theorem Machine.enter_backing {A : Access → Prop}
    {E : (op : Entry) → (Except Halt op.Reply → HostProg σ) → Prop}
    (kinds : ∀ op next, E op next → op.Brings Q) (bound : Nat) {op : Entry}
    (brings : op.Brings Q) :
    Run.Backing Q (HostProg.Obeys A E) _ (Machine.enter bound op) := by
  induction bound generalizing op with
  | zero => exact ⟨fun _ _ _ _ _ run => by (cases run), fun _ _ _ _ _ run => by cases run⟩
  | succ bound ih => exact Run.Backing.perform kinds (fun op brings => ih brings) bound brings

/-! ## Whatever is reached -/

/-- A fresh machine has no host functions. -/
theorem Machine.new_hosts (config : Config) (world : σ) : (Machine.new config world).Hosts G := by
  refine ⟨fun f mem => absurd mem (Array.not_mem_empty f), fun key f found => ?_⟩
  simp [Machine.new] at found

section Reached

variable {A : Access → Prop} {E : (op : Entry) → (Except Halt op.Reply → HostProg σ) → Prop}
  {config : Config} {world : σ} {program : HostProg σ} {task : Task σ}

/-- What is left to do keeps to a rule of host programs and to what it lets in. -/
def Task.Obeys (Q : Module → Prop) (A : Access → Prop)
    (E : (op : Entry) → (Except Halt op.Reply → HostProg σ) → Prop) : Task σ → Prop
  | .host p => p.Obeys A E
  | .enter op => op.Brings Q
  | _ => True

/-- A machine that has evolved from a new one and has all its frames backed. -/
structure Machine.Settled (Q : Module → Prop) (G : HostProg σ → Prop)
    (config : Config) (world : σ) (m : Machine σ) : Prop where
  evolves : (Machine.new config world).Evolves Q G (0 ≤ ·) m
  backed : m.Backed

namespace Machine.Settled

variable (settled : m.Settled Q G config world)
include settled

theorem hosts : m.Hosts G := settled.evolves.hosts (Machine.new_hosts config world)

/-- What is settled stays so after any run that backs its frames. -/
theorem after {x : Run σ α} (backing : Run.Backing Q G α x) {r : Except Halt α}
    (run : x m = some (r, m')) : m'.Settled Q G config world :=
  ⟨settled.evolves.trans (backing.evolving settled.hosts (Nat.zero_le _) run),
    backing.backs settled.hosts settled.backed run⟩

/-- A change that touches no frame. -/
theorem quiet (evolves : m.Evolves Q G (0 ≤ ·) m') (frames : m'.frames = m.frames) :
    m'.Settled Q G config world :=
  ⟨settled.evolves.trans evolves, fun f mem => (settled.backed f (frames ▸ mem)).kept evolves⟩

theorem push {f : Frame} (free : f.func = none) :
    Settled Q G config world { m with frames := m.frames.push f } :=
  settled.after (Run.Backing.closed.pushFrame free) (r := .ok ()) rfl

end Machine.Settled

/-- Whatever is reached from a program that keeps to a rule, the machine has evolved as the rule
lets it, and its frames are backed. -/
theorem Reached.settled (kinds : ∀ op next, E op next → op.Brings Q) (obeys : program.Obeys A E)
    (reached : Reached config world program task m) :
    m.Settled Q (HostProg.Obeys A E) config world ∧ task.Obeys Q A E := by
  have entries (inner : Nat) (op : Entry) (brings : op.Brings Q) :
      Run.Backing Q (HostProg.Obeys A E) _ (Machine.enter inner op : Run σ op.Reply) :=
    Machine.enter_backing kinds inner brings
  induction reached with
  | begin => exact ⟨⟨.refl _, fun f mem => absurd mem (Array.not_mem_empty f)⟩, obeys⟩
  | @access op next m _ ih =>
    obtain ⟨settled, all⟩ := ih
    cases all with
    | access _ rest =>
      exact ⟨settled.quiet (op.perform_alters m).evolves
        (op.perform_quiet (P := fun _ => True) m).1, rest _⟩
  | @register f next m _ ih =>
    obtain ⟨settled, all⟩ := ih
    cases all with
    | register own rest => exact ⟨settled.quiet (.register own m) rfl, rest⟩
  | @getState next m _ ih =>
    obtain ⟨settled, all⟩ := ih
    cases all with
    | getState rest => exact ⟨settled, rest m.world⟩
  | @setState s next m _ ih =>
    obtain ⟨settled, all⟩ := ih
    cases all with
    | setState _ rest => exact ⟨settled.quiet (.world s m) rfl, rest⟩
  | @enter op next m _ ih =>
    obtain ⟨settled, all⟩ := ih
    cases all with
    | enter own _ => exact ⟨settled, kinds op next own⟩
  | @entered op next m m' reply inner _ run ih =>
    obtain ⟨settled, all⟩ := ih
    cases all with
    | enter own rest =>
      exact ⟨settled.after (entries inner op (kinds op next own)) run, rest reply⟩
  | trampoline _ ih => exact ⟨ih.1, trivial⟩
  | callExport _ _ ih => exact ⟨ih.1, trivial⟩
  | invoke inst _ ih => exact ⟨ih.1.push rfl, trivial⟩
  | invoked inst inner _ run ih =>
    exact ⟨(ih.1.push rfl).after (.call kinds (entries inner) _) run, trivial⟩
  | @globals name module e m m' inst addr rest _ run ih =>
    have brings : Q module := ih.2
    exact ⟨ih.1.after (.allocate name brings e) run, trivial⟩
  | global _ ih => exact ⟨ih.1, trivial⟩
  | @globalSet inst addr code codes m m' inner bound _ run ih =>
    refine ⟨ih.1.after (.bind (.constant kinds (entries inner) bound inst code) fun v => ?_) run,
      trivial⟩
    exact .store (Run.Evolving.closed.op (.setGlobal addr v))
  | @elems name module e m m' inst addr data inner bound _ run ih =>
    have brings : Q module := ih.2
    exact ⟨ih.1.after (.withGlobals kinds (entries inner) bound name brings e) run, trivial⟩
  | items _ _ ih => exact ⟨ih.1, trivial⟩
  | elemOffset inner bound _ _ run ih =>
    exact ⟨ih.1.after (.elemValues kinds (entries inner) bound _ _) run, trivial⟩
  | elemSet inner bound _ run ih =>
    exact ⟨ih.1.after (.initElem kinds (entries inner) bound _ _ _) run, trivial⟩
  | @datas name module e m m' inst addr inner bound _ run ih =>
    have brings : Q module := ih.2
    exact ⟨ih.1.after (.withElems kinds (entries inner) bound name brings e) run, trivial⟩
  | dataOffset _ _ ih => exact ⟨ih.1, trivial⟩
  | dataSet inner bound _ run ih =>
    exact ⟨ih.1.after (.initData kinds (entries inner) bound _ _ _) run, trivial⟩
  | @start name module e m m' inst idx inner bound addr _ run _ ih =>
    have brings : Q module := ih.2
    exact ⟨ih.1.after (.withDatas kinds (entries inner) bound name brings e) run, trivial⟩
  | item _ ih => exact ⟨ih.1, trivial⟩
  | itemDone inner bound _ run ih =>
    exact ⟨ih.1.after (.constant kinds (entries inner) bound _ _) run, trivial⟩
  | constant _ ih => exact ⟨ih.1.push rfl, trivial⟩
  | step _ _ ih => exact ⟨ih.1, trivial⟩
  | stepped inner _ _ run ih => exact ⟨ih.1.after (.step kinds (entries inner)) run, trivial⟩
  | call _ run ih => exact ⟨ih.1.after Run.Backing.closed.instruction run, trivial⟩
  | @callHost m m' addr f args inst caller _ found popped ih =>
    refine ⟨ih.1.after (.popAll _) popped, ?_⟩
    exact ih.1.hosts.stored _ (Array.mem_of_getElem? found) _

/-- What a program ends with is reached. -/
theorem Reached.ended {p : HostProg σ} (reached : Reached config world program (.host p) m)
    {bound : Nat} {frame : Frame}
    (run : Run.host (Machine.enter bound) p m = some (.ok frame, m')) :
    Reached config world program (.host (.done frame)) m' := by
  induction p using HostProg.induct generalizing m with
  | done frame =>
    cases run
    exact reached
  | halt reason => cases run
  | access op next ih => exact ih _ reached.access run
  | enter op next ih =>
    obtain ⟨reply, m₁, entered, run⟩ := Run.host_enter_cases run
    exact ih reply (reached.entered bound entered) run
  | register f next _ ih => exact ih reached.register run
  | getState next ih => exact ih m.world reached.getState run
  | setState s next ih => exact ih reached.setState run

/-- Host programs that bring in exporting modules alone. -/
abbrev HostProg.Exporting : HostProg σ → Prop :=
  HostProg.Obeys (fun _ => True) fun op _ => op.Brings Module.Exporting

/-- Functions run where they belong, whatever is reached from a program that brings in exporting
modules alone: every function that a module has defined has its home, and a frame of a function
has the code of that function and the instance that is its home. -/
theorem Reached.at_home (exporting : program.Exporting)
    (reached : Reached config world program task m) :
    (∀ a f, m.store.funcs[a]? = some (.module f) →
      Machine.Home Module.Exporting HostProg.Exporting (0 ≤ ·) (.new config world) m a f) ∧
    ∀ f ∈ m.frames, m.Backs f := by
  obtain ⟨settled, -⟩ := reached.settled (fun _ _ brings => brings) exporting
  have none (a : Nat) (f : ModuleFunc)
      (stored : (Machine.new config world).store.funcs[a]? = some (.module f)) :
      Machine.Home Module.Exporting HostProg.Exporting (0 ≤ ·) (.new config world)
        (.new config world) a f := by
    change (#[] : Array (StoreFunc σ))[a]? = _ at stored
    rw [Array.getElem?_empty] at stored
    cases stored
  exact ⟨settled.evolves.homes (.refl _) none, settled.backed⟩

end Reached

/-- A module with one function, which it exports. -/
theorem Reached.at_home_of_constant :
    let sections : Sections := {
      types := [⟨[], [.i32]⟩], funcs := [⟨0⟩], exports := [⟨"f", .func ⟨0⟩⟩]
      bodies := [⟨[], #[.i32Const 7, .endOf]⟩] }
    ∃ module, sections.build = .ok module ∧ ∃ task m f,
      Reached {} () (.enter (.instantiate "a" module {}) fun _ => .done default) task m ∧
      m.store.funcs[0]? = some (.module f) ∧
      Machine.Home Module.Exporting HostProg.Exporting (0 ≤ ·) (Machine.new {} ()) m 0 f := by
  intro sections
  refine ⟨_, rfl, ?_⟩
  generalize built : Module.mk _ _ _ _ _ _ _ _ _ _ _ _ = module
  have exporting : module.Exporting := by
    subst built
    exact ⟨⟨sections, rfl⟩, by decide⟩
  have ended : ((Machine.enter 9 (.instantiate "a" module {}) (Machine.new {} ())).bind
      fun p => p.2.store.funcs[0]?.bind (·.inst?)) = some 0 := by
    subst built
    decide +kernel
  obtain ⟨⟨reply, m⟩, run, added⟩ := Option.bind_eq_some_iff.mp ended
  obtain ⟨f, stored, inst⟩ := Option.bind_eq_some_iff.mp added
  have reached : Reached {} () (.enter (.instantiate "a" module {}) fun _ => .done default)
    (.host (.done default)) m := Reached.begin.entered 9 run
  cases f with
  | host f => cases inst
  | module f =>
    have allowed : HostProg.Exporting (.enter (.instantiate "a" module {}) fun _ =>
      .done default : HostProg Unit) := .enter exporting fun _ => .done default
    obtain ⟨homes, -⟩ := Reached.at_home allowed reached
    exact ⟨_, m, f, reached, stored, homes 0 f stored⟩

/-- The function of a module whose export denotes nothing is run in the instance of another
module: it reads the global of that module, which does not list it. -/
theorem Reached.stray :
    let first : Sections := {
      types := [⟨[], [.i32]⟩], funcs := [⟨0⟩]
      globals := [⟨⟨.i32, .const⟩, #[.i32Const 42, .endOf]⟩]
      exports := [⟨"f", .func ⟨5⟩⟩], bodies := [⟨[], #[.globalGet ⟨0⟩, .endOf]⟩] }
    let second : Sections := { globals := [⟨⟨.i32, .const⟩, #[.i32Const 7, .endOf]⟩] }
    ∃ a b, first.build = .ok a ∧ second.build = .ok b ∧
      let program : HostProg (Array Value) :=
        .enter (.instantiate "a" a {}) fun _ => .enter (.instantiate "b" b {}) fun _ =>
          .enter (.invoke 0 #[]) fun
            | .ok values => .setState values (.done default)
            | .error h => .halt h
      ∃ task m f i, Reached {} #[] program task m ∧ m.store.funcs[0]? = some (.module f) ∧
        m.instances[f.inst]? = some i ∧ i.name = "b" ∧ i.funcs = #[] ∧ m.world = #[⟨7, 0⟩] := by
  intro first second
  refine ⟨_, _, rfl, rfl, ?_⟩
  intro program
  let run := Run.host (Machine.enter 9) program (Machine.new {} #[])
  have added : (run.bind fun p => p.2.store.funcs[0]?.bind (·.inst?)) = some 0 := by
    decide +kernel
  have ended : run.map (fun p => (p.1.toBool, p.2.world)) = some (true, #[⟨7, 0⟩]) := by
    decide +kernel
  have there : (run.bind fun p => p.2.instances[0]?.map fun i => (i.name, i.funcs)) =
      some ("b", #[]) := by decide +kernel
  obtain ⟨⟨r, m⟩, ran, result⟩ := Option.map_eq_some_iff.mp ended
  rw [ran, Option.bind_some] at added there
  obtain ⟨f, stored, inst⟩ := Option.bind_eq_some_iff.mp added
  obtain ⟨i, listed, own⟩ := Option.map_eq_some_iff.mp there
  cases f with
  | host f => cases inst
  | module f =>
    cases r with
    | error h => cases congrArg Prod.fst result
    | ok frame =>
      have number : f.inst = 0 := Option.some.inj inst
      exact ⟨_, m, f, i, Reached.begin.ended ran, stored, number ▸ listed, congrArg Prod.fst own,
        congrArg Prod.snd own, congrArg Prod.snd result⟩

end WasmMachine
