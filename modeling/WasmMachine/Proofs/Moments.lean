import WasmMachine.Proofs.Grounded
import WasmMachine.Proofs.Reached

/-!
# The moments of a run

`Reached` follows programs that leave stepping to the machine, and some of its rules let more
happen than does: a host function is entered there however deep the frames are.  This module
follows every program, and as closely as the definitions that run go.  A moment is what the
machine is busy with and how it looks then; `Task.Leads` is one transition, in which a part of a
run starts, or has ended and the next one starts, with all the conditions that the definitions put
on it; `Visited` is what the machine passes through from its beginning.

What is stepped over in a transition is run by its own definition, within any bound.
-/

namespace WasmMachine

variable {σ : Type}

/-- One transition of a run. -/
inductive Task.Leads : Task σ → Machine σ → Task σ → Machine σ → Prop
  -- within a host program
  | access {op : Access} {next : op.Reply → HostProg σ} {m : Machine σ} :
    Leads (.host (.access op next)) m (.host (next (op.perform m).1)) (op.perform m).2
  | register {f : HostFunc σ} {next : HostProg σ} {m : Machine σ} :
    Leads (.host (.register f next)) m (.host next) (m.register f)
  | getState {next : σ → HostProg σ} {m : Machine σ} :
    Leads (.host (.getState next)) m (.host (next m.world)) m
  | setState {s : σ} {next : HostProg σ} {m : Machine σ} :
    Leads (.host (.setState s next)) m (.host next) { m with world := s }
  | enter {op : Entry} {next : Except Halt op.Reply → HostProg σ} {m : Machine σ} :
    Leads (.host (.enter op next)) m (.enter op) m
  | entered {op : Entry} {next : Except Halt op.Reply → HostProg σ} {m m' : Machine σ}
    {reply : Except Halt op.Reply} (inner : Nat) :
    Machine.enter inner op m = some (reply, m') →
    Leads (.host (.enter op next)) m (.host (next reply)) m'
  -- calls from outside
  | trampoline {addr : Nat} {args : Array Value} {m : Machine σ} :
    Leads (.enter (.trampoline addr args)) m (.enter (.invoke addr args)) m
  | callExport {inst addr : Nat} {name : String} {args : Array Value} {m : Machine σ} :
    m.exported? inst name = some (.func addr) →
    Leads (.enter (.callExport inst name args)) m (.enter (.invoke addr args)) m
  | invoke {addr : Nat} {args : Array Value} {func : StoreFunc σ} {m : Machine σ} :
    m.store.funcs[addr]? = some func → args.size = func.type.params.length →
    Leads (.enter (.invoke addr args)) m (.call addr) (m.entering func args)
  | invoked {addr : Nat} {args : Array Value} {func : StoreFunc σ} {m m' : Machine σ}
    (inner : Nat) : m.store.funcs[addr]? = some func → args.size = func.type.params.length →
    Run.call (Machine.enter inner) addr (m.entering func args) = some (.ok (), m') →
    Leads (.enter (.invoke addr args)) m (.loop fun m' => m.frames.size + 1 < m'.frames.size) m'
  -- a host program's own steps
  | stepping {m : Machine σ} : Leads (.enter .step) m .step m
  | executing {depth : Nat} {m : Machine σ} :
    Leads (.enter (.execute depth)) m (.loop fun m => depth < m.frames.size) m
  -- instantiations
  | globals {name : String} {module : Module} {e : Externs} {m m' : Machine σ} {inst addr : Nat}
    {rest : Nat × Nat} : Run.allocate name module e m = some (.ok (inst, addr, rest), m') →
    Leads (.enter (.instantiate name module e)) m (.globals inst addr module.globalInits) m'
  | global {inst addr : Nat} {code : Code} {codes : List Code} {m : Machine σ} :
    Leads (.globals inst addr (code :: codes)) m (.constant inst code) m
  | globalSet {inst addr : Nat} {code : Code} {codes : List Code} {m m' : Machine σ}
    (inner bound : Nat) :
    (do Run.store (StoreM.setGlobal addr (← Run.constant (Machine.enter inner) bound inst code)))
      m
      = some (.ok (), m') →
    Leads (.globals inst addr (code :: codes)) m (.globals inst (addr + 1) codes) m'
  | elems {name : String} {module : Module} {e : Externs} {m m' : Machine σ}
      {inst addr data : Nat}
    (inner bound : Nat) :
    Run.withGlobals (Machine.enter inner) bound name module e m
      = some (.ok (inst, addr, data), m') →
    Leads (.enter (.instantiate name module e)) m (.elems inst addr module.elems) m'
  | items {inst addr : Nat} {segment : ElemSegment} {segments : List ElemSegment}
    {codes : List Code} {m : Machine σ} : segment.items = .exprs codes →
    Leads (.elems inst addr (segment :: segments)) m (.constants inst codes) m
  | elemOffset {inst addr : Nat} {segment : ElemSegment} {segments : List ElemSegment}
    {table : TableIdx} {code : Code} {values : List Value} {m m' : Machine σ}
      (inner bound : Nat) :
    segment.mode = .active table code →
    Run.elemValues (Machine.enter inner) bound inst segment.items m = some (.ok values, m') →
    Leads (.elems inst addr (segment :: segments)) m (.constant inst code) m'
  | elemSet {inst addr : Nat} {segment : ElemSegment} {segments : List ElemSegment}
    {m m' : Machine σ} (inner bound : Nat) :
    Run.initElem (Machine.enter inner) bound inst addr segment m = some (.ok (), m') →
    Leads (.elems inst addr (segment :: segments)) m (.elems inst (addr + 1) segments) m'
  | datas {name : String} {module : Module} {e : Externs} {m m' : Machine σ} {inst addr : Nat}
    (inner bound : Nat) :
    Run.withElems (Machine.enter inner) bound name module e m = some (.ok (inst, addr), m') →
    Leads (.enter (.instantiate name module e)) m (.datas inst addr module.datas) m'
  | dataOffset {inst addr : Nat} {segment : DataSegment} {segments : List DataSegment}
    {mem : MemIdx} {code : Code} {m : Machine σ} : segment.mode = .active mem code →
    Leads (.datas inst addr (segment :: segments)) m (.constant inst code) m
  | dataSet {inst addr : Nat} {segment : DataSegment} {segments : List DataSegment}
    {m m' : Machine σ} (inner bound : Nat) :
    Run.initData (Machine.enter inner) bound inst addr segment m = some (.ok (), m') →
    Leads (.datas inst addr (segment :: segments)) m (.datas inst (addr + 1) segments) m'
  | start {name : String} {module : Module} {e : Externs} {m m' : Machine σ} {inst addr : Nat}
    {i : Instance} {idx : FuncIdx} (inner bound : Nat) :
    Run.withDatas (Machine.enter inner) bound name module e m = some (.ok inst, m') →
    module.start = some idx → m'.instances[inst]? = some i → i.funcAddr idx = .ok addr →
    Leads (.enter (.instantiate name module e)) m (.enter (.invoke addr #[])) m'
  -- constant expressions
  | item {inst : Nat} {code : Code} {codes : List Code} {m : Machine σ} :
    Leads (.constants inst (code :: codes)) m (.constant inst code) m
  | itemDone {inst : Nat} {code : Code} {codes : List Code} {v : Value} {m m' : Machine σ}
    (inner bound : Nat) :
    Run.constant (Machine.enter inner) bound inst code m = some (.ok v, m') →
    Leads (.constants inst (code :: codes)) m (.constants inst codes) m'
  | constant {inst : Nat} {code : Code} {m : Machine σ} :
    Leads (.constant inst code) m (.loop (Run.openAt m.frames.size)) (Run.starting m inst code)
  -- code
  | step {more : Machine σ → Bool} {m : Machine σ} : more m = true → Leads (.loop more) m .step m
  | stepped {more : Machine σ → Bool} {m m' : Machine σ} (inner : Nat) : more m = true →
    Run.step (Machine.enter inner) m = some (.ok (), m') → Leads (.loop more) m (.loop more) m'
  | call {m m' : Machine σ} {addr : Nat} : Run.instruction m = some (.ok (.call addr), m') →
    Leads .step m (.call addr) m'
  | callHost {m : Machine σ} {outer : Array Frame} {caller : Frame} {addr : Nat} {f : HostFunc σ}
    {args : Array Value} : m.frames = outer.push caller →
    m.frames.size < m.config.maxCallDepth → m.store.funcs[addr]? = some (.host f) →
    caller.top? f.numArgs = some args →
    Leads (.call addr) m (.host (f.body (Run.hostFrame addr f caller.inst args outer.size)))
      { m with frames := outer.push (caller.without f.numArgs) }

section Visited

variable (config : Config) (world : σ) (program : HostProg σ)

/-- What a machine is busy with, and how it looks, at some moment of the run of a program. -/
inductive Visited : Task σ → Machine σ → Prop
  | begin : Visited (.host program) (.new config world)
  | next {task task' : Task σ} {m m' : Machine σ} :
    Visited task m → task.Leads m task' m' → Visited task' m'

end Visited

end WasmMachine
