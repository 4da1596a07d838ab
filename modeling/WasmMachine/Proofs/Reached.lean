import WasmMachine.Proofs.Neutral

/-!
# What a machine passes through

A run is a function of the machine that it starts from, and what is in between cannot be seen in
its result.  `Reached` says what is in between: what the machine is busy with (`Task`) and how it
looks then, at every point of the run of an embedder's program, within host functions, between any
two steps, and at any depth of entries within calls within entries.  Each of its rules is one
transition of the definitions that run: a part of them starts, or a part of them has ended and the
next one starts.  Where a rule steps over a part, that part is run by its own definition.

`Reached.fits` is the invariant: whatever is reached, the code is of the kind asked for, and the
frames keep the discipline of that code.
-/

namespace WasmMachine

variable {σ : Type}

/-- What a machine is busy with. -/
inductive Task (σ : Type) where
  | host (program : HostProg σ)
  | enter (op : Entry)
  | globals (inst addr : Nat) (codes : List Code)
  | elems (inst addr : Nat) (segments : List ElemSegment)
  | datas (inst addr : Nat) (segments : List DataSegment)
  | constants (inst : Nat) (codes : List Code)
  | constant (inst : Nat) (code : Code)
  | call (addr : Nat)
  /-- Stepping as long as a condition holds. -/
  | loop (more : Machine σ → Bool)
  | step

section Reached

variable (config : Config) (world : σ) (program : HostProg σ)

/-- What a machine is busy with, and how it looks, at some point of the run of a program. -/
inductive Reached : Task σ → Machine σ → Prop
  | begin : Reached (.host program) (.new config world)
  -- within a host program
  | access {op : Access} {next : op.Reply → HostProg σ} {m : Machine σ} :
    Reached (.host (.access op next)) m → Reached (.host (next (op.perform m).1)) (op.perform m).2
  | register {f : HostFunc σ} {next : HostProg σ} {m : Machine σ} :
    Reached (.host (.register f next)) m → Reached (.host next) (m.register f)
  | getState {next : σ → HostProg σ} {m : Machine σ} :
    Reached (.host (.getState next)) m → Reached (.host (next m.world)) m
  | setState {s : σ} {next : HostProg σ} {m : Machine σ} :
    Reached (.host (.setState s next)) m → Reached (.host next) { m with world := s }
  | enter {op : Entry} {next : Except Halt op.Reply → HostProg σ} {m : Machine σ} :
    Reached (.host (.enter op next)) m → Reached (.enter op) m
  | entered {op : Entry} {next : Except Halt op.Reply → HostProg σ} {m m' : Machine σ}
    {reply : Except Halt op.Reply} (inner : Nat) :
    Reached (.host (.enter op next)) m → Machine.enter inner op m = some (reply, m') →
    Reached (.host (next reply)) m'
  -- calls from outside
  | trampoline {addr : Nat} {args : Array Value} {m : Machine σ} :
    Reached (.enter (.trampoline addr args)) m → Reached (.enter (.invoke addr args)) m
  | callExport {inst addr : Nat} {name : String} {args : Array Value} {m : Machine σ} :
    Reached (.enter (.callExport inst name args)) m →
    m.exported? inst name = some (.func addr) → Reached (.enter (.invoke addr args)) m
  | invoke {addr : Nat} {args : Array Value} {m : Machine σ} (inst : Nat) :
    Reached (.enter (.invoke addr args)) m →
    Reached (.call addr) { m with frames := m.frames.push (.entry inst args) }
  | invoked {addr : Nat} {args : Array Value} {m m' : Machine σ} (inst inner : Nat) :
    Reached (.enter (.invoke addr args)) m →
    Run.call (Machine.enter inner) addr { m with frames := m.frames.push (.entry inst args) }
      = some (.ok (), m') →
    Reached (.loop fun m' => m.frames.size + 1 < m'.frames.size) m'
  -- instantiations
  | globals {name : String} {module : Module} {e : Externs} {m m' : Machine σ} {inst addr : Nat}
    {rest : Nat × Nat} : Reached (.enter (.instantiate name module e)) m →
    Run.allocate name module e m = some (.ok (inst, addr, rest), m') →
    Reached (.globals inst addr module.globalInits) m'
  | global {inst addr : Nat} {code : Code} {codes : List Code} {m : Machine σ} :
    Reached (.globals inst addr (code :: codes)) m → Reached (.constant inst code) m
  | globalSet {inst addr : Nat} {code : Code} {codes : List Code} {m m' : Machine σ}
    (inner bound : Nat) : Reached (.globals inst addr (code :: codes)) m →
    (do Run.store (StoreM.setGlobal addr (← Run.constant (Machine.enter inner) bound inst code)))
      m
      = some (.ok (), m') →
    Reached (.globals inst (addr + 1) codes) m'
  | elems {name : String} {module : Module} {e : Externs} {m m' : Machine σ}
      {inst addr data : Nat}
    (inner bound : Nat) : Reached (.enter (.instantiate name module e)) m →
    Run.withGlobals (Machine.enter inner) bound name module e m
      = some (.ok (inst, addr, data), m') →
    Reached (.elems inst addr module.elems) m'
  | items {inst addr : Nat} {segment : ElemSegment} {segments : List ElemSegment}
    {codes : List Code} {m : Machine σ} : Reached (.elems inst addr (segment :: segments)) m →
    segment.items = .exprs codes → Reached (.constants inst codes) m
  | elemOffset {inst addr : Nat} {segment : ElemSegment} {segments : List ElemSegment}
    {table : TableIdx} {code : Code} {values : List Value} {m m' : Machine σ}
      (inner bound : Nat) :
    Reached (.elems inst addr (segment :: segments)) m → segment.mode = .active table code →
    Run.elemValues (Machine.enter inner) bound inst segment.items m = some (.ok values, m') →
    Reached (.constant inst code) m'
  | elemSet {inst addr : Nat} {segment : ElemSegment} {segments : List ElemSegment}
    {m m' : Machine σ} (inner bound : Nat) :
    Reached (.elems inst addr (segment :: segments)) m →
    Run.initElem (Machine.enter inner) bound inst addr segment m = some (.ok (), m') →
    Reached (.elems inst (addr + 1) segments) m'
  | datas {name : String} {module : Module} {e : Externs} {m m' : Machine σ} {inst addr : Nat}
    (inner bound : Nat) : Reached (.enter (.instantiate name module e)) m →
    Run.withElems (Machine.enter inner) bound name module e m = some (.ok (inst, addr), m') →
    Reached (.datas inst addr module.datas) m'
  | dataOffset {inst addr : Nat} {segment : DataSegment} {segments : List DataSegment}
    {mem : MemIdx} {code : Code} {m : Machine σ} :
    Reached (.datas inst addr (segment :: segments)) m → segment.mode = .active mem code →
    Reached (.constant inst code) m
  | dataSet {inst addr : Nat} {segment : DataSegment} {segments : List DataSegment}
    {m m' : Machine σ} (inner bound : Nat) :
    Reached (.datas inst addr (segment :: segments)) m →
    Run.initData (Machine.enter inner) bound inst addr segment m = some (.ok (), m') →
    Reached (.datas inst (addr + 1) segments) m'
  | start {name : String} {module : Module} {e : Externs} {m m' : Machine σ} {inst : Nat}
    {idx : FuncIdx} (inner bound addr : Nat) : Reached (.enter (.instantiate name module e)) m →
    Run.withDatas (Machine.enter inner) bound name module e m = some (.ok inst, m') →
    module.start = some idx → Reached (.enter (.invoke addr #[])) m'
  -- constant expressions
  | item {inst : Nat} {code : Code} {codes : List Code} {m : Machine σ} :
    Reached (.constants inst (code :: codes)) m → Reached (.constant inst code) m
  | itemDone {inst : Nat} {code : Code} {codes : List Code} {v : Value} {m m' : Machine σ}
    (inner bound : Nat) : Reached (.constants inst (code :: codes)) m →
    Run.constant (Machine.enter inner) bound inst code m = some (.ok v, m') →
    Reached (.constants inst codes) m'
  | constant {inst : Nat} {code : Code} {m : Machine σ} : Reached (.constant inst code) m →
    Reached (.loop (Run.openAt m.frames.size))
      { m with frames := m.frames.push (.new none code inst #[] 1 none ⟨0, code.size, 0⟩) }
  -- code
  | step {more : Machine σ → Bool} {m : Machine σ} :
    Reached (.loop more) m → more m = true → Reached .step m
  | stepped {more : Machine σ → Bool} {m m' : Machine σ} (inner : Nat) :
    Reached (.loop more) m → more m = true →
    Run.step (Machine.enter inner) m = some (.ok (), m') → Reached (.loop more) m'
  | call {m m' : Machine σ} {addr : Nat} : Reached .step m →
    Run.instruction m = some (.ok (.call addr), m') →
    Reached (.call addr) m'
  | callHost {m m' : Machine σ} {addr : Nat} {f : HostFunc σ} {args : Array Value}
    (inst caller : Nat) : Reached (.call addr) m → m.store.funcs[addr]? = some (.host f) →
    Run.act (FrameM.popAll f.numArgs) m = some (.ok args, m') →
    Reached (.host (f.body (Run.hostFrame addr f inst args caller))) m'

end Reached

/-! ## The invariant -/

variable {D : Discipline} {m m' : Machine σ} {outer frames : Array Frame} {f : Frame}

/-- Frames that keep a discipline as long as they are inside of something. -/
def Discipline.Keeps (D : Discipline) (frames : Array Frame) : Prop :=
  ∀ f ∈ frames, f.labels ≠ [] → D.frame f

/-- What a machine is busy with agrees with the frames that it has. -/
def Discipline.Suits (D : Discipline) (m : Machine σ) : Task σ → Prop
  | .host program => program.Tame (Module.AllCode D.code)
  | .enter op => op.Tame (Module.AllCode D.code)
  | .globals _ _ codes => ∀ c ∈ codes, D.code c
  | .elems _ _ segments => ∀ e ∈ segments, e.AllCode D.code
  | .datas _ _ segments => ∀ d ∈ segments, d.AllCode D.code
  | .constants _ codes => ∀ c ∈ codes, D.code c
  | .constant _ code => D.code code
  | .call _ => True
  | .loop more => ∃ outer : Array Frame, D.Tower outer m.frames ∧
    ∀ (m : Machine σ) (base : Frame), m.frames = outer.push base → more m = true →
    base.labels ≠ []
  | .step => ∃ (outer : Array Frame) (f : Frame), m.frames = outer.push f ∧ f.labels ≠ []

/-- A machine that keeps a discipline, whatever it is busy with. -/
structure Discipline.Holds (D : Discipline) (task : Task σ) (m : Machine σ) : Prop where
  tame : m.Tame D.code
  keeps : D.Keeps m.frames
  suits : D.Suits m task

namespace Discipline

theorem Keeps.push (keeps : D.Keeps frames) (holds : f.labels ≠ [] → D.frame f) :
    D.Keeps (frames.push f) := by
  intro g mem inside
  rcases Array.mem_push.mp mem with before | rfl
  · exact keeps g before inside
  · exact holds inside

theorem Keeps.of_push (keeps : D.Keeps (frames.push f)) :
    D.Keeps frames ∧ (f.labels ≠ [] → D.frame f) :=
  ⟨fun g mem => keeps g (Array.mem_push.mpr (.inl mem)), keeps f Array.mem_push_self⟩

theorem Keeps.of_tower (keeps : D.Keeps frames) (tower : D.Tower outer frames) :
    D.Keeps outer := by
  obtain ⟨base, above, rfl, _, _⟩ := tower
  exact fun f mem => keeps f (Array.mem_append_left _ (Array.mem_push.mpr (.inl mem)))

theorem Tower.keeps (tower : D.Tower outer frames) (keeps : D.Keeps outer) : D.Keeps frames := by
  obtain ⟨base, above, rfl, callees, free⟩ := tower
  intro f mem inside
  rcases Array.mem_append.mp mem with below | here
  · exact keeps.push (fun inside => (free inside).2) f below inside
  · obtain ⟨j, before, same⟩ := Array.mem_iff_getElem.mp here
    exact (callees (same ▸ Array.getElem?_eq_getElem before)).holds

/-- The innermost frame of a tower is inside of something if its base is. -/
theorem Tower.inside (tower : D.Tower outer m.frames)
    (inside : ∀ base, m.frames = outer.push base → base.labels ≠ []) :
    ∃ (below : Array Frame) (f : Frame), m.frames = below.push f ∧ f.labels ≠ [] := by
  obtain ⟨base, above, frames, callees, _⟩ := tower
  by_cases alone : above = #[]
  · rw [alone, Array.append_empty] at frames
    exact ⟨outer, base, frames, inside base frames⟩
  · obtain ⟨rest, f, rfl⟩ := Array.exists_push_of_ne_empty alone
    rw [Array.append_push] at frames
    exact ⟨_, f, frames, callees.of_push.2.inside⟩

end Discipline

/-- An instruction that goes on leaves the frames with their discipline. -/
theorem Run.instruction_keeps (own : m.Tame D.code) (keeps : D.Keeps m.frames)
    (top : m.frames = outer.push f) (inside : f.labels ≠ []) {flow : Flow}
    (run : instruction m = some (.ok flow, m')) : m'.Tame D.code ∧ D.Keeps m'.frames := by
  rw [top] at keeps
  obtain ⟨below, holds⟩ := keeps.of_push
  refine ⟨(instruction_tame own top run).2, ?_⟩
  cases instructs top run with
  | runs _ here _ ran => exact below.push (D.steps (holds inside) inside here ran)

/-- Operands are popped off the innermost frame. -/
theorem Run.popAll_keeps (own : m.Tame D.code) (keeps : D.Keeps m.frames) {count : Nat}
    {args : Array Value} (run : act (FrameM.popAll count) m = some (.ok args, m')) :
    m'.Tame D.code ∧ D.Keeps m'.frames := by
  by_cases empty : m.frames = #[]
  · rw [act_empty empty] at run
    cases run
  · obtain ⟨outer, f, top⟩ := Array.exists_push_of_ne_empty empty
    rw [top] at keeps
    obtain ⟨below, holds⟩ := keeps.of_push
    rw [popAll_eq count top] at run
    split at run
    · cases run
    · cases run
      exact ⟨own.of_same rfl rfl, below.push fun inside => D.operands (holds inside) _⟩

/-- What is neutral puts the frames back, so that only the next task has to suit. -/
theorem Discipline.Holds.after {task next : Task σ} {x : Run σ α} {r : Except Halt α}
    (before : D.Holds task m) (neutral : Run.Neutral D.code x) (run : x m = some (r, m'))
    (suits : D.Suits m' next) : D.Holds next m' := by
  obtain ⟨frames, own⟩ := neutral before.tame run
  exact ⟨own, frames ▸ before.keeps, suits⟩

/-- Whatever is reached from a program that brings in code of a kind, the machine keeps the
discipline of that code. -/
theorem Reached.holds {config : Config} {world : σ} {program : HostProg σ} {task : Task σ}
    (tame : program.Tame (Module.AllCode D.code))
    (reached : Reached config world program task m) :
    D.Holds task m := by
  have neutral (inner : Nat) : Enter.Neutral D.code (Machine.enter inner : Enter σ) :=
    Machine.enter_neutral D inner
  induction reached with
  | begin =>
    exact ⟨Machine.new_tame config world, fun f mem => absurd mem (Array.not_mem_empty f), tame⟩
  | @access op next m _ ih =>
    obtain ⟨frames, own⟩ := op.perform_quiet (P := D.code) m
    cases ih.suits with
    | access _ rest => exact ⟨own ih.tame, frames ▸ ih.keeps, rest _⟩
  | register _ ih =>
    cases ih.suits with
    | register own rest => exact ⟨ih.tame.register own, ih.keeps, rest⟩
  | @getState next m _ ih =>
    cases ih.suits with
    | getState rest => exact ⟨ih.tame, ih.keeps, rest m.world⟩
  | setState _ ih =>
    cases ih.suits with
    | setState _ rest => exact ⟨ih.tame.of_same rfl rfl, ih.keeps, rest⟩
  | enter _ ih =>
    cases ih.suits with
    | enter opTame _ => exact ⟨ih.tame, ih.keeps, opTame⟩
  | entered inner _ run ih =>
    cases ih.suits with
    | enter opTame rest => exact ih.after (neutral inner opTame) run (rest _)
  | trampoline _ ih => exact ⟨ih.tame, ih.keeps, trivial⟩
  | callExport _ _ ih => exact ⟨ih.tame, ih.keeps, trivial⟩
  | invoke inst _ ih =>
    exact ⟨ih.tame.of_same rfl rfl, ih.keeps.push fun inside => absurd rfl inside, trivial⟩
  | @invoked addr args m m' inst inner _ run ih =>
    have own : Machine.Tame D.code { m with frames := m.frames.push (.entry inst args) } :=
      ih.tame.of_same rfl rfl
    obtain ⟨called, own'⟩ := Run.call_called (neutral inner) own rfl run
    have kept := called.kept fun inside => absurd rfl inside
    generalize after : m'.frames = fs at kept
    cases kept with
    | tower tower =>
      refine ⟨own', after ▸ tower.keeps ih.keeps, m.frames, after ▸ tower, ?_⟩
      intro m₁ base frames more
      have larger := of_decide_eq_true more
      rw [frames, Array.size_push] at larger
      omega
  | @globals name module e m m' inst addr rest _ run ih =>
    have good : module.AllCode D.code := ih.suits
    exact ih.after (.allocate name good e) run good.globalInits
  | global _ ih => exact ⟨ih.tame, ih.keeps, ih.suits _ List.mem_cons_self⟩
  | @globalSet inst addr code codes m m' inner bound _ run ih =>
    have constant : D.code code := ih.suits _ List.mem_cons_self
    refine ih.after ?_ run fun c mem => ih.suits c (List.mem_cons_of_mem _ mem)
    exact (Run.Neutral.constant (neutral inner) bound inst constant).bind fun v =>
      .op (.setGlobal addr v)
  | @elems name module e m m' inst addr data inner bound _ run ih =>
    have good : module.AllCode D.code := ih.suits
    exact ih.after (.withGlobals (neutral inner) bound name good e) run good.elems
  | items _ items ih =>
    exact ⟨ih.tame, ih.keeps, (ih.suits _ List.mem_cons_self).2 _ items⟩
  | @elemOffset inst addr segment segments table code values m m' inner bound _ mode run ih =>
    have all := ih.suits segment List.mem_cons_self
    exact ih.after (.elemValues (neutral inner) bound inst all.2) run (all.1 table code mode)
  | @elemSet inst addr segment segments m m' inner bound _ run ih =>
    have all := ih.suits segment List.mem_cons_self
    exact ih.after (.initElem (neutral inner) bound inst addr all) run
      fun e mem => ih.suits e (List.mem_cons_of_mem _ mem)
  | @datas name module e m m' inst addr inner bound _ run ih =>
    have good : module.AllCode D.code := ih.suits
    exact ih.after (.withElems (neutral inner) bound name good e) run good.datas
  | dataOffset _ mode ih =>
    exact ⟨ih.tame, ih.keeps, ih.suits _ List.mem_cons_self _ _ mode⟩
  | @dataSet inst addr segment segments m m' inner bound _ run ih =>
    have all := ih.suits segment List.mem_cons_self
    exact ih.after (.initData (neutral inner) bound inst addr all) run
      fun d mem => ih.suits d (List.mem_cons_of_mem _ mem)
  | @start name module e m m' inst idx inner bound addr _ run _ ih =>
    have good : module.AllCode D.code := ih.suits
    exact ih.after (.withDatas (neutral inner) bound name good e) run trivial
  | item _ ih => exact ⟨ih.tame, ih.keeps, ih.suits _ List.mem_cons_self⟩
  | @itemDone inst code codes v m m' inner bound _ run ih =>
    have constant : D.code code := ih.suits _ List.mem_cons_self
    exact ih.after (.constant (neutral inner) bound inst constant) run
      fun c mem => ih.suits c (List.mem_cons_of_mem _ mem)
  | @constant inst code m _ ih =>
    have started := D.constant ih.suits inst
    exact ⟨ih.tame.of_same rfl rfl, ih.keeps.push fun _ => started, m.frames,
      ⟨_, #[], rfl, D.callees_empty _, fun _ => ⟨rfl, started⟩⟩,
      fun m base => Run.labels_of_openAt⟩
  | @step more m _ holds ih =>
    obtain ⟨outer, tower, inside⟩ := ih.suits
    exact ⟨ih.tame, ih.keeps, tower.inside fun base frames => inside m base frames holds⟩
  | @stepped more m m' inner _ holds run ih =>
    obtain ⟨outer, tower, inside⟩ := ih.suits
    obtain ⟨kept, own⟩ := Run.step_kept (neutral inner) ih.tame tower
      (fun base frames => inside m base frames holds) run
    generalize after : m'.frames = fs at kept
    cases kept with
    | tower tower' =>
      exact ⟨own, after ▸ tower'.keeps (ih.keeps.of_tower tower), outer, after ▸ tower', inside⟩
  | call _ run ih =>
    obtain ⟨outer, f, top, inside⟩ := ih.suits
    obtain ⟨own, keeps⟩ := Run.instruction_keeps ih.tame ih.keeps top inside run
    exact ⟨own, keeps, trivial⟩
  | @callHost m m' addr f args inst caller _ found popped ih =>
    obtain ⟨own, keeps⟩ := Run.popAll_keeps ih.tame ih.keeps popped
    have bodies : HostFunc.Tame (Module.AllCode D.code) f :=
      ih.tame.funcs _ (Array.mem_of_getElem? found)
    exact ⟨own, keeps, bodies _⟩

end WasmMachine
