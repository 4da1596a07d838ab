import WasmMachine.Proofs.Confinement
import WasmMachine.Proofs.Grounded
import WasmMachine.Proofs.Linking

/-!
# Modules without imports

An instance of a module without imports lists nothing but what it has brought along.  If the code
of the module does not forge, then whatever the instance can get hold of is its own
(`Machine.Houses`): its tables, globals and segments start out so, and a step of its code keeps
them so (`Run.step_confined`), as long as nobody else puts something into them
(`Instance.Undisturbed`).  So a run of one of its functions on numbers calls no function but the
instance's own, and touches nothing of the store but what the instance lists
(`Machine.self_contained`).

Without the condition on the code a module can make up a reference to any function of the store
and call it (`Machine.forged_call`).
-/

namespace WasmMachine

variable {σ α β : Type} {A : Instance} {n : Nat}

/-! ## Machines that house an instance -/

/-- A machine with an instance of a given number that is on its own: the functions that it lists
run in it and do not forge, and the store holds nothing for it but its own. -/
structure Machine.Houses (m : Machine σ) (A : Instance) (n : Nat) : Prop where
  listed : m.instances[n]? = some A
  funcs : ∀ a ∈ A.funcs, ∃ f, m.store.funcs[a]? = some (.module f) ∧ f.inst = n ∧ f.code.Unforging
  small : ∀ a ∈ A.funcs, a < UInt64.size
  holds : A.Holds m.store

/-- What becomes of a machine that houses an instance when it runs code of that instance. -/
structure Instance.Confines (A : Instance) (n : Nat) (m m' : Machine σ) : Prop where
  houses : m'.Houses A n
  spares : A.Spares m.store m'.store

/-- A frame that runs code of an instance, on nothing but its own values. -/
structure Instance.Runs (A : Instance) (n : Nat) (f : Frame) : Prop where
  inst : f.inst = n
  code : f.code.Unforging
  fills : A.Fills f

/-- Frames that are an instance's from a position on, the first of which has no caller. -/
structure Instance.Stacks (A : Instance) (n depth : Nat) (fs : Array Frame) : Prop where
  base : ∃ f, fs[depth]? = some f ∧ f.prev = none
  above : ∀ (k : Nat) (f : Frame), depth ≤ k → fs[k]? = some f → A.Runs n f

variable {m m' : Machine σ} {depth : Nat} {outer fs : Array Frame} {f g : Frame}

theorem Machine.Houses.confines (houses : m.Houses A n) (instances : m'.instances = m.instances)
    (holds : A.Holds m'.store) (spares : A.Spares m.store m'.store) : A.Confines n m m' where
  houses := {
    listed := instances ▸ houses.listed
    funcs := spares.funcs ▸ houses.funcs
    small := houses.small
    holds := holds }
  spares := spares

theorem Machine.Houses.still (houses : m.Houses A n) (instances : m'.instances = m.instances)
    (store : m'.store = m.store) : A.Confines n m m' :=
  houses.confines instances (store ▸ houses.holds) (store ▸ .refl _)

theorem Instance.Confines.trans {m'' : Machine σ} (first : A.Confines n m m')
    (second : A.Confines n m' m'') : A.Confines n m m'' :=
  ⟨second.houses, first.spares.trans second.spares⟩

/-- Frames are nothing that an instance could be disturbed by. -/
theorem Instance.Confines.framed (confines : A.Confines n m m') (fs : Array Frame) :
    A.Confines n m { m' with frames := fs } :=
  confines.trans (confines.houses.still rfl rfl)

namespace Instance

theorem Fills.of_top (fills : A.Fills f) {count : Nat} {vs : Array Value}
    (top : f.top? count = some vs) : ∀ v ∈ vs, A.Owns v := by
  unfold Frame.top? at top
  split at top
  · cases top
    exact fun v mem => fills.stack v (mem_of_mem_extract mem)
  · cases top

/-- A frame that has lost operands. -/
theorem Runs.without (runs : A.Runs n f) (count : Nat) : A.Runs n (f.without count) :=
  ⟨runs.inst, runs.code, runs.fills.locals, fun v mem =>
    runs.fills.stack v (mem_of_mem_shrink mem)⟩

namespace Stacks

theorem le_size (stacked : A.Stacks n depth (outer.push f)) : depth ≤ outer.size := by
  obtain ⟨b, there, -⟩ := stacked.base
  have lt := (Array.getElem?_eq_some_iff.mp there).1
  rw [Array.size_push] at lt
  omega

theorem nonempty (stacked : A.Stacks n depth fs) : fs ≠ #[] := by
  rintro rfl
  obtain ⟨b, there, -⟩ := stacked.base
  rw [Array.getElem?_empty] at there
  cases there

theorem top (stacked : A.Stacks n depth (outer.push f)) : A.Runs n f :=
  stacked.above outer.size f stacked.le_size Array.getElem?_push_size

/-- A frame without a caller, put on top of whatever is there. -/
theorem start (outer : Array Frame) (free : f.prev = none) (runs : A.Runs n f) :
    A.Stacks n outer.size (outer.push f) := by
  refine ⟨⟨f, Array.getElem?_push_size, free⟩, fun k g le there => ?_⟩
  rw [Array.getElem?_push] at there
  split at there
  · cases there
    exact runs
  · next here =>
    have lt := (Array.getElem?_eq_some_iff.mp there).1
    omega

theorem push (stacked : A.Stacks n depth fs) (runs : A.Runs n f) :
    A.Stacks n depth (fs.push f) := by
  obtain ⟨b, there, free⟩ := stacked.base
  have lt := (Array.getElem?_eq_some_iff.mp there).1
  refine ⟨⟨b, (Array.getElem?_push_lt lt).trans (by rwa [← Array.getElem?_eq_getElem]), free⟩,
    fun k g le there => ?_⟩
  rw [Array.getElem?_push] at there
  split at there
  · cases there
    exact runs
  · exact stacked.above k g le there

/-- The innermost frame moves on. -/
theorem replace (stacked : A.Stacks n depth (outer.push f)) (runs : A.Runs n g)
    (same : g.prev = f.prev) : A.Stacks n depth (outer.push g) := by
  obtain ⟨b, there, free⟩ := stacked.base
  refine ⟨?_, fun k h le there => ?_⟩
  · rw [Array.getElem?_push] at there ⊢
    split at there
    · next last =>
      cases there
      exact ⟨g, if_pos last, same.trans free⟩
    · next below => exact ⟨b, (if_neg below).trans there, free⟩
  · rw [Array.getElem?_push] at there
    split at there
    · cases there
      exact runs
    · next below =>
      refine stacked.above k h le ?_
      rw [Array.getElem?_push, if_neg below]
      exact there

/-- The innermost frame returns to a caller. -/
theorem pop (stacked : A.Stacks n depth (outer.push f)) {caller : Nat}
    (linked : f.prev = some caller) :
    A.Stacks n depth outer := by
  obtain ⟨b, there, free⟩ := stacked.base
  have still {k : Nat} {h : Frame} (there : outer[k]? = some h) :
      (outer.push f)[k]? = some h := by
    have lt := (Array.getElem?_eq_some_iff.mp there).1
    rw [Array.getElem?_push, if_neg (by omega)]
    exact there
  refine ⟨⟨b, ?_, free⟩, fun k h le there => stacked.above k h le (still there)⟩
  rw [Array.getElem?_push] at there
  split at there
  · cases there
    cases free.symm.trans linked
  · exact there

/-- A frame gets results. -/
theorem give (stacked : A.Stacks n depth fs) (caller : Nat) {vs : Array Value}
    (own : ∀ v ∈ vs, A.Owns v) :
    A.Stacks n depth (fs.modify caller fun g => { g with stack := g.stack ++ vs }) := by
  obtain ⟨b, there, free⟩ := stacked.base
  refine ⟨?_, fun k h le there => ?_⟩
  · rw [Array.getElem?_modify, there]
    split
    · exact ⟨_, rfl, free⟩
    · exact ⟨b, rfl, free⟩
  · rw [Array.getElem?_modify] at there
    split at there
    · obtain ⟨h', there', rfl⟩ := Option.map_eq_some_iff.mp there
      obtain ⟨inst, code, fills⟩ := stacked.above k h' le there'
      refine ⟨inst, code, fills.locals, fun v mem => ?_⟩
      rcases Array.mem_append.mp mem with before | new
      · exact fills.stack v before
      · exact own v new
    · exact stacked.above k h le there

end Stacks

end Instance

/-! ## Steps -/

namespace Run

variable {enter : Enter σ} {r : Except Halt Unit}

theorem finish_confined (houses : m.Houses A n) (stacked : A.Stacks n depth m.frames)
    (run : finish m = some (r, m')) :
    A.Confines n m m' ∧ (r = .ok () → A.Stacks n depth m'.frames) := by
  obtain ⟨outer, f, top⟩ := Array.exists_push_of_ne_empty stacked.nonempty
  have stacked' : A.Stacks n depth (outer.push f) := top ▸ stacked
  cases finishes top run with
  | stays => exact ⟨houses.still rfl rfl, fun _ => stacked⟩
  | fails => exact ⟨houses.still rfl rfl, fun ok => (nomatch ok)⟩
  | returns linked _ results =>
    refine ⟨houses.still rfl rfl, fun _ => ?_⟩
    exact (stacked'.pop linked).give _ (stacked'.top.fills.of_top results)

/-- A call of a function that the instance lists is the call of a guest function: it puts a frame
on top that runs in the instance as well. -/
theorem call_confined (houses : m.Houses A n) (stacked : A.Stacks n depth m.frames) {addr : Nat}
    (listed : addr ∈ A.funcs) (run : call enter addr m = some (r, m')) :
    A.Confines n m m' ∧ (r = .ok () → A.Stacks n depth m'.frames) := by
  obtain ⟨outer, f, top⟩ := Array.exists_push_of_ne_empty stacked.nonempty
  have stacked' : A.Stacks n depth (outer.push f) := top ▸ stacked
  obtain ⟨g, stored, inst, honest⟩ := houses.funcs addr listed
  cases calls top run with
  | refused => exact ⟨houses.still rfl rfl, fun ok => (nomatch ok)⟩
  | guest _ here args =>
    cases here.symm.trans stored
    refine ⟨houses.still rfl rfl, fun _ => ?_⟩
    refine (stacked'.replace (stacked'.top.without _) rfl).push ⟨inst, honest, fun v mem => ?_,
      fun v mem => absurd mem (Array.not_mem_empty v)⟩
    rcases Array.mem_append.mp mem with given | local_
    · exact stacked'.top.fills.of_top args v given
    · exact (Array.mem_replicate.mp local_).2 ▸ .null
  | host _ here => cases here.symm.trans stored

/-- What an instruction of the instance leaves, whether it traps or not. -/
theorem exec_houses (houses : m.Houses A n) (runs : A.Runs n f) {paid : Machine σ} {i : Instr}
    {a : Activation σ} (pays : m.paying 1 = some paid) (here : f.code[f.pc]? = some i)
    (start : a = ⟨{ f with pc := f.pc + 1 }, paid.store⟩) (outer : Array Frame) :
    A.Confines n m (paid.within outer (stateAfter (i.exec A a))) ∧
      A.Runs n (stateAfter (i.exec A a)).frame ∧ ∀ flow b, i.exec A a = .ok flow b →
      A.Leads flow := by
  obtain ⟨inst, honest, fills⟩ := runs
  have fuel := Machine.paying_eq pays
  have store : a.store = m.store := by rw [start, fuel]
  have instances : paid.instances = m.instances := by rw [fuel]
  have rules : A.Rules a :=
    ⟨store ▸ houses.holds, start ▸ fills.locals, start ▸ fills.stack⟩
  have same : Frame.Same f (stateAfter (i.exec A a)).frame :=
    Frame.Same.trans (g := a.frame) (start ▸ rfl) (Instr.exec_same A i a)
  obtain ⟨kept, spares, leads⟩ :=
    Instr.exec_confined houses.small (honest i (Array.mem_of_getElem? here)) rules
  exact ⟨houses.confines instances kept.store (store ▸ spares),
    ⟨same.inst.trans inst, same.code ▸ honest, kept.frame⟩, leads⟩

/-- An instruction of a frame of the instance keeps to it, and calls none but its own
functions. -/
theorem instruction_confined (houses : m.Houses A n) (stacked : A.Stacks n depth m.frames)
    {r : Except Halt Flow} (run : instruction m = some (r, m')) :
    A.Confines n m m' ∧ ∀ flow, r = .ok flow → A.Leads flow ∧ A.Stacks n depth m'.frames := by
  obtain ⟨outer, f, top⟩ := Array.exists_push_of_ne_empty stacked.nonempty
  have stacked' : A.Stacks n depth (outer.push f) := top ▸ stacked
  have listed {paid : Machine σ} (pays : m.paying 1 = some paid) :
      paid.instances[f.inst]? = some A := by
    rw [Machine.paying_eq pays, stacked'.top.inst]
    exact houses.listed
  cases instructs top run with
  | unpaid => exact ⟨houses.still rfl rfl, fun flow ok => (nomatch ok)⟩
  | ended pays _ | homeless pays _ =>
    rw [Machine.paying_eq pays]
    exact ⟨houses.still rfl rfl, fun flow ok => (nomatch ok)⟩
  | traps pays here there ran =>
    cases there.symm.trans (listed pays)
    obtain ⟨confines, -⟩ := exec_houses houses stacked'.top pays here rfl outer
    rw [ran] at confines
    exact ⟨confines, fun flow ok => (nomatch ok)⟩
  | @runs paid i _ flow b pays here there ran =>
    cases there.symm.trans (listed pays)
    obtain ⟨confines, runs, leads⟩ := exec_houses houses stacked'.top pays here rfl outer
    have same := Instr.exec_same A i ⟨{ f with pc := f.pc + 1 }, paid.store⟩
    rw [ran] at confines runs same
    refine ⟨confines, fun flow' ok => ?_⟩
    cases ok
    exact ⟨leads flow b ran, stacked'.replace runs same.prev⟩

theorem step_confined (houses : m.Houses A n) (stacked : A.Stacks n depth m.frames)
    (run : step enter m = some (r, m')) :
    A.Confines n m m' ∧ (r = .ok () → A.Stacks n depth m'.frames) := by
  rw [step_eq_instruction] at run
  rcases bind_cases run with ⟨h, ran, rfl⟩ | ⟨flow, m₁, ran, run⟩
  · exact ⟨(instruction_confined houses stacked ran).1, fun ok => (nomatch ok)⟩
  · obtain ⟨confines, goes⟩ := instruction_confined houses stacked ran
    obtain ⟨leads, stacked₁⟩ := goes flow rfl
    cases flow with
    | next =>
      obtain ⟨confines', stacked'⟩ := finish_confined confines.houses stacked₁ run
      exact ⟨confines.trans confines', stacked'⟩
    | call addr =>
      rcases bind_cases run with ⟨h, called, rfl⟩ | ⟨_, m₂, called, run⟩
      · obtain ⟨confines₂, -⟩ := call_confined confines.houses stacked₁ leads called
        exact ⟨confines.trans confines₂, fun ok => (nomatch ok)⟩
      · obtain ⟨confines₂, stacked₂⟩ := call_confined confines.houses stacked₁ leads called
        obtain ⟨confines', stacked'⟩ := finish_confined confines₂.houses (stacked₂ rfl) run
        exact ⟨(confines.trans confines₂).trans confines', stacked'⟩

theorem stepWhile_confined {more : Machine σ → Bool} {bound : Nat} (houses : m.Houses A n)
    (stacked : A.Stacks n depth m.frames) (run : stepWhile enter more bound m = some (r, m')) :
    A.Confines n m m' ∧ (r = .ok () → A.Stacks n depth m'.frames) := by
  induction bound generalizing m with
  | zero => cases run
  | succ bound ih =>
    rw [stepWhile_succ] at run
    split at run
    · rcases bind_cases run with ⟨h, stepped, rfl⟩ | ⟨_, m₁, stepped, run⟩
      · exact ⟨(step_confined houses stacked stepped).1, fun ok => (nomatch ok)⟩
      · obtain ⟨confines, stacked₁⟩ := step_confined houses stacked stepped
        obtain ⟨confines', stacked'⟩ := ih confines.houses (stacked₁ rfl) run
        exact ⟨confines.trans confines', stacked'⟩
    · cases run
      exact ⟨houses.still rfl rfl, fun _ => stacked⟩

end Run

/-! ## Calls from outside -/

/-- How a machine looks between the steps of a call from outside. -/
inductive Machine.Passes (m : Machine σ) (addr : Nat) (args : Array Value) : Machine σ → Prop
  | called {func : StoreFunc σ} {bound : Nat} {m' : Machine σ} :
    m.store.funcs[addr]? = some func → args.size = func.type.params.length →
    Run.call (Machine.enter bound) addr (m.entering func args) = some (.ok (), m') →
    Passes m addr args m'
  | stepped {bound : Nat} {m' m'' : Machine σ} : Passes m addr args m' →
    m.frames.size + 1 < m'.frames.size → Run.step (Machine.enter bound) m' = some (.ok (), m'') →
    Passes m addr args m''

/-- The functions that are called in the course of a call from outside: the one that it is a call
of, and what the steps ask for. -/
inductive Machine.Calls (m : Machine σ) (addr : Nat) (args : Array Value) : Nat → Prop
  | first {func : StoreFunc σ} : m.store.funcs[addr]? = some func →
    args.size = func.type.params.length → Calls m addr args addr
  | next {m' m'' : Machine σ} {c : Nat} : m.Passes addr args m' →
    m.frames.size + 1 < m'.frames.size → Run.instruction m' = some (.ok (.call c), m'') →
    Calls m addr args c

section Invoke

variable {addr : Nat} {args : Array Value}

/-- The entry frame of a call from outside belongs to the instance of the function, and
holds numbers. -/
theorem Machine.Houses.entering (houses : m.Houses A n) (listed : addr ∈ A.funcs)
    (scalar : ∀ v ∈ args, v.hi = 0) {func : StoreFunc σ}
    (stored : m.store.funcs[addr]? = some func) :
    A.Confines n m (m.entering func args) ∧
      A.Stacks n m.frames.size (m.entering func args).frames := by
  obtain ⟨g, stored', inst, -⟩ := houses.funcs addr listed
  cases stored.symm.trans stored'
  refine ⟨houses.still rfl rfl,
    .start _ rfl ⟨inst, fun i mem => ?_, fun v mem => ?_, fun v mem => ?_⟩⟩
  · exact absurd mem (Array.not_mem_empty i)
  · exact absurd mem (Array.not_mem_empty v)
  · exact .number (scalar v mem)

theorem Machine.Passes.confined (houses : m.Houses A n) (listed : addr ∈ A.funcs)
    (scalar : ∀ v ∈ args, v.hi = 0) (passes : m.Passes addr args m') :
    A.Confines n m m' ∧ A.Stacks n m.frames.size m'.frames := by
  induction passes with
  | called stored count run =>
    obtain ⟨entered, stacked⟩ := houses.entering listed scalar stored
    obtain ⟨confines, stacked'⟩ := Run.call_confined entered.houses stacked listed run
    exact ⟨entered.trans confines, stacked' rfl⟩
  | stepped _ more run ih =>
    obtain ⟨before, stacked⟩ := ih
    obtain ⟨confines, stacked'⟩ := Run.step_confined before.houses stacked run
    exact ⟨before.trans confines, stacked' rfl⟩

theorem Machine.Calls.own (houses : m.Houses A n) (listed : addr ∈ A.funcs)
    (scalar : ∀ v ∈ args, v.hi = 0) {c : Nat} (calls : m.Calls addr args c) : c ∈ A.funcs := by
  cases calls with
  | first => exact listed
  | next passes more run =>
    obtain ⟨confines, stacked⟩ := passes.confined houses listed scalar
    obtain ⟨-, goes⟩ := Run.instruction_confined confines.houses stacked run
    exact (goes _ rfl).1

theorem Run.invoke_confined {enter : Enter σ} {bound : Nat} {r : Except Halt (Array Value)}
    (houses : m.Houses A n) (listed : addr ∈ A.funcs) (scalar : ∀ v ∈ args, v.hi = 0)
    (run : invoke enter bound addr args m = some (r, m')) : A.Confines n m m' := by
  obtain ⟨g, stored, -⟩ := houses.funcs addr listed
  obtain ⟨entered, stacked⟩ := houses.entering listed scalar stored
  rw [invoke_eq, stored] at run
  dsimp only at run
  split at run
  · cases run
    exact houses.still rfl rfl
  · have kept {r : Except Halt Unit} {m₁ : Machine σ}
        (run : (do call enter addr; execute enter bound (m.frames.size + 1))
          (m.entering (.module g) args) = some (r, m₁)) : A.Confines n m m₁ := by
      rcases bind_cases run with ⟨h, called, -⟩ | ⟨_, m₂, called, run⟩
      · exact entered.trans (call_confined entered.houses stacked listed called).1
      · obtain ⟨confines, stacked'⟩ := call_confined entered.houses stacked listed called
        obtain ⟨confines', -⟩ := stepWhile_confined confines.houses (stacked' rfl) run
        exact (entered.trans confines).trans confines'
    split at run
    · cases run
    · next ran =>
      cases run
      exact (kept ran).framed _
    · next ran => split at run <;> cases run <;> exact (kept ran).framed _

end Invoke

/-! ## Runs in between -/

theorem back?_shrink {xs : Array α} {k : Nat} {x : α} (there : xs[k]? = some x) :
    (xs.shrink (k + 1)).back? = some x := by
  have lt := (Array.getElem?_eq_some_iff.mp there).1
  have size : (xs.shrink (k + 1)).size = k + 1 := by
    simp
    omega
  rw [Array.back?_eq_getElem?, size, Nat.add_sub_cancel, Array.shrink_eq_take,
    Array.take_eq_extract, Array.getElem?_extract, if_pos (by omega), Nat.zero_add, there]

/-- A run that keeps to an instance, and whose result is as asked for if it succeeds. -/
def Run.Confined (A : Instance) (n : Nat) (post : α → Prop) (x : Run σ α) : Prop :=
  ∀ ⦃m r m'⦄, m.Houses A n → x m = some (r, m') → A.Confines n m m' ∧ ∀ v, r = .ok v → post v

namespace Run.Confined

variable {post : α → Prop} {enter : Enter σ} {bound : Nat}

theorem pure {v : α} (known : post v) : Confined A n post (Pure.pure v : Run σ α) := by
  intro m r m' houses run
  cases run
  refine ⟨houses.still rfl rfl, fun w ok => ?_⟩
  cases ok
  exact known

theorem bind {M : β → Prop} {x : Run σ β} {k : β → Run σ α} (first : Confined A n M x)
    (next : ∀ v, M v → Confined A n post (k v)) : Confined A n post (x >>= k) := by
  intro m r m' houses run
  rcases bind_cases run with ⟨h, ran, rfl⟩ | ⟨v, m₁, ran, run⟩
  · exact ⟨(first houses ran).1, fun v ok => (nomatch ok)⟩
  · obtain ⟨confines, known⟩ := first houses ran
    obtain ⟨confines', known'⟩ := next v (known v rfl) confines.houses run
    exact ⟨confines.trans confines', known'⟩

theorem trap (t : Trap) : Confined A n post (Run.trap t : Run σ α) := by
  intro m r m' houses run
  cases run
  exact ⟨houses.still rfl rfl, fun v ok => (nomatch ok)⟩

theorem ofExcept {r : Except Trap α} (known : ∀ v, r = .ok v → post v) :
    Confined A n post (Run.ofExcept r : Run σ α) := by
  cases r with
  | ok v => exact pure (known v rfl)
  | error t => exact trap t

/-- An operation on the store that keeps to the instance. -/
theorem store {x : StoreM σ α} (confined : StoreM.Confined A post x) :
    Confined A n post (Run.store x) := by
  intro m r m' houses run
  obtain ⟨holds, spares, known⟩ := confined houses.holds
  rw [store_eq] at run
  cases ran : x m.store with
  | ok v s =>
    rw [ran] at run holds spares
    cases run
    refine ⟨houses.confines rfl holds spares, fun w ok => ?_⟩
    cases ok
    exact known v s ran
  | error t s =>
    rw [ran] at run holds spares
    cases run
    exact ⟨houses.confines rfl holds spares, fun v ok => (nomatch ok)⟩

theorem instanceAt : Confined A n (· = A) (Run.instanceAt n : Run σ Instance) := by
  intro m r m' houses run
  rw [Run.instanceAt, get_bind, houses.listed] at run
  cases run
  refine ⟨houses.still rfl rfl, fun i ok => ?_⟩
  cases ok
  rfl

/-- A constant expression that does not forge has an own value. -/
theorem constant {code : Code} (honest : code.Unforging) :
    Confined A n A.Owns (Run.constant enter bound n code) := by
  intro m r m' houses run
  have stacked : A.Stacks n m.frames.size (starting m n code).frames :=
    .start _ rfl ⟨rfl, honest, fun v mem => absurd mem (Array.not_mem_empty v),
      fun v mem => absurd mem (Array.not_mem_empty v)⟩
  have entered : A.Confines n m (starting m n code) := houses.still rfl rfl
  rcases constant_cases run with ⟨h, m₁, ran, rfl, rfl⟩ | ⟨m₁, ran, popped⟩
  · obtain ⟨confines, -⟩ := stepWhile_confined entered.houses stacked ran
    exact ⟨(entered.trans confines).framed _, fun v ok => (nomatch ok)⟩
  · obtain ⟨confines, goes⟩ := stepWhile_confined entered.houses stacked ran
    obtain ⟨base, there, -⟩ := (goes rfl).base
    obtain ⟨left, cut⟩ := Array.back?_eq_some_iff.mp (back?_shrink there)
    obtain ⟨rfl, value⟩ := popped cut
    refine ⟨(entered.trans confines).framed _, fun v ok => ?_⟩
    exact ((goes rfl).above _ base (Nat.le_refl _) there).fills.stack v
      (Array.mem_toList_iff.mp (value v ok ▸ List.mem_singleton_self v))

/-! ### What initialises an instance -/

theorem initGlobals {addr : Nat} {codes : List Code} (honest : ∀ c ∈ codes, Code.Unforging c)
    (listed : ∀ j < codes.length, addr + j ∈ A.globals) :
    Confined A n (fun _ => True) (Run.initGlobals enter bound n addr codes) := by
  induction codes generalizing addr with
  | nil => exact pure trivial
  | cons code codes ih =>
    refine bind (constant (honest code List.mem_cons_self)) fun v own =>
      bind (store (.setGlobal (listed 0 (Nat.succ_pos _)) own)) fun _ _ =>
        ih (fun c mem => honest c (List.mem_cons_of_mem _ mem)) fun j lt => ?_
    rw [Nat.add_right_comm]
    exact listed (j + 1) (Nat.succ_lt_succ lt)

theorem constants {codes : List Code} (honest : ∀ c ∈ codes, Code.Unforging c) :
    Confined A n (fun vs => ∀ v ∈ vs, A.Owns v) (Run.constants enter bound n codes) := by
  induction codes with
  | nil => exact pure fun v mem => absurd mem List.not_mem_nil
  | cons code codes ih =>
    refine bind (constant (honest code List.mem_cons_self)) fun v own =>
      bind (ih fun c mem => honest c (List.mem_cons_of_mem _ mem)) fun vs rest =>
        pure fun w mem => ?_
    rcases List.mem_cons.mp mem with rfl | later
    · exact own
    · exact rest w later

/-- The items of an element segment are references to own functions, or own values. -/
theorem elemValues {items : ElemItems} (honest : ∀ codes, items = .exprs codes → ∀ c ∈ codes,
    Code.Unforging c) : Confined A n (fun vs => ∀ v ∈ vs, A.Owns v)
      (Run.elemValues enter bound n items) := by
  cases items with
  | funcs idxs =>
    refine bind instanceAt fun i same => ofExcept fun vs made v mem => ?_
    subst same
    obtain ⟨idx, -, run⟩ := Except.exists_of_mem_mapM made mem
    obtain ⟨a, denotes, rfl⟩ := Except.exists_of_map run
    exact .funcRef (Instance.addrOf_mem denotes)
  | exprs codes => exact constants (honest codes rfl)

theorem offset {code : Code} (honest : code.Unforging) :
    Confined A n (fun _ => True) (Run.offset enter bound n code) :=
  bind (constant honest) fun _ _ => pure trivial

theorem initElem {addr : Nat} {e : ElemSegment} (honest : e.AllCode Code.Unforging)
    (listed : addr ∈ A.elems) :
    Confined A n (fun _ => True) (Run.initElem enter bound n addr e) := by
  refine bind (elemValues honest.2) fun vs own => ?_
  cases mode : e.mode with
  | passive => exact store (.fillElem listed own)
  | declarative => exact store (.dropElem listed)
  | active table code =>
    refine bind (offset (honest.1 table code mode)) fun pos _ => bind instanceAt fun i same => ?_
    subst same
    exact bind (ofExcept fun _ => Instance.addrOf_mem) fun _ listed' =>
      bind (store (.onTable listed' (.write pos own))) fun _ _ => store (.dropElem listed)

theorem initElems {addr : Nat} {es : List ElemSegment}
    (honest : ∀ e ∈ es, e.AllCode Code.Unforging) (listed : ∀ j < es.length, addr + j ∈ A.elems) :
    Confined A n (fun _ => True) (Run.initElems enter bound n addr es) := by
  induction es generalizing addr with
  | nil => exact pure trivial
  | cons e es ih =>
    refine bind (initElem (honest e List.mem_cons_self) (listed 0 (Nat.succ_pos _))) fun _ _ =>
      ih (fun c mem => honest c (List.mem_cons_of_mem _ mem)) fun j lt => ?_
    rw [Nat.add_right_comm]
    exact listed (j + 1) (Nat.succ_lt_succ lt)

theorem initData {addr : Nat} {d : DataSegment} (honest : d.AllCode Code.Unforging)
    (listed : addr ∈ A.datas) :
    Confined A n (fun _ => True) (Run.initData enter bound n addr d) := by
  unfold Run.initData
  cases mode : d.mode with
  | passive => exact pure trivial
  | active mem code =>
    refine bind (offset (honest mem code mode)) fun pos _ => bind instanceAt fun i same => ?_
    subst same
    exact bind (ofExcept fun _ => Instance.memAddr_mem) fun _ listed' =>
      bind (store (.onMemory listed' _)) fun _ _ => store (.dropData listed)

theorem initDatas {addr : Nat} {ds : List DataSegment}
    (honest : ∀ d ∈ ds, d.AllCode Code.Unforging) (listed : ∀ j < ds.length, addr + j ∈ A.datas) :
    Confined A n (fun _ => True) (Run.initDatas enter bound n addr ds) := by
  induction ds generalizing addr with
  | nil => exact pure trivial
  | cons d ds ih =>
    refine bind (initData (honest d List.mem_cons_self) (listed 0 (Nat.succ_pos _))) fun _ _ =>
      ih (fun c mem => honest c (List.mem_cons_of_mem _ mem)) fun j lt => ?_
    rw [Nat.add_right_comm]
    exact listed (j + 1) (Nat.succ_lt_succ lt)

theorem start (idx? : Option FuncIdx) :
    Confined A n (fun _ => True) (Run.start enter bound n idx?) := by
  cases idx? with
  | none => exact pure trivial
  | some idx =>
    refine bind instanceAt fun i same => ?_
    subst same
    refine bind (ofExcept fun _ => Instance.addrOf_mem) fun addr listed =>
      bind (M := fun _ => True) (fun m r m' houses run => ?_) fun _ _ => pure trivial
    exact ⟨invoke_confined houses listed (fun v mem => absurd mem (Array.not_mem_empty v)) run,
      fun _ _ => trivial⟩

theorem initialise {module : Module} (honest : module.AllCode Code.Unforging)
    {global elem data : Nat} (globals : ∀ j < module.globalInits.length, global + j ∈ A.globals)
    (elems : ∀ j < module.elems.length, elem + j ∈ A.elems)
    (datas : ∀ j < module.datas.length, data + j ∈ A.datas) :
    Confined A n (fun _ => True) (Run.initialise enter bound module (n, global, elem, data)) :=
  bind (initGlobals honest.globalInits globals) fun _ _ =>
    bind (initElems honest.elems elems) fun _ _ =>
      bind (initDatas honest.datas datas) fun _ _ => start module.start

end Run.Confined

/-! ## Instantiations -/

theorem size_append_list (xs : Array α) (l : List α) : (xs ++ l).size = xs.size + l.length := by
  rw [Array.append_list, Array.size_append]
  rfl

theorem mem_freshAddrs {first count a : Nat} :
    a ∈ freshAddrs first count ↔ ∃ k < count, a = first + k := by
  rw [freshAddrs, Array.mem_ofFn]
  constructor
  · rintro ⟨k, rfl⟩
    exact ⟨k, k.isLt, rfl⟩
  · rintro ⟨k, lt, rfl⟩
    exact ⟨⟨k, lt⟩, rfl⟩

theorem lt_size_of_fresh {xs : Array α} {l : List β} {g : β → α} {a : Nat}
    (fresh : a ∈ freshAddrs xs.size l.length) : a < (xs ++ l.map g).size := by
  obtain ⟨k, lt, rfl⟩ := mem_freshAddrs.mp fresh
  rw [size_append_list, List.length_map]
  exact Nat.add_lt_add_left lt _

/-- At a fresh address stands one of the items that have been appended. -/
theorem exists_of_fresh {xs : Array α} {l : List β} {g : β → α} {a : Nat}
    (fresh : a ∈ freshAddrs xs.size l.length) : ∃ b ∈ l, (xs ++ l.map g)[a]? = some (g b) := by
  obtain ⟨k, lt, rfl⟩ := mem_freshAddrs.mp fresh
  refine ⟨l[k], List.getElem_mem lt, ?_⟩
  rw [Machine.getElem?_append_list, List.getElem?_map, List.getElem?_eq_getElem lt]
  rfl

/-- A module without imports is given nothing. -/
theorem Machine.externs_of_closed {module : Module} {e : Externs} (closed : module.imports = [])
    (checked : m.checkImports module e = .ok ()) : e = {} := by
  obtain ⟨funcs, tables, memories, globals⟩ := checkImports_counts checked
  simp only [Module.importedFuncs, Module.importedTables, Module.importedMemories,
    Module.importedGlobals, closed, List.filterMap_nil, List.length_nil]
      at funcs tables memories globals
  obtain ⟨fs, ts, ms, gs⟩ := e
  cases Array.eq_empty_of_size_eq_zero funcs
  cases Array.eq_empty_of_size_eq_zero tables
  cases Array.eq_empty_of_size_eq_zero memories
  cases Array.eq_empty_of_size_eq_zero globals
  rfl

/-- The addresses of an instance that lists nothing but what has been appended for it. -/
structure Instance.Fresh (A : Instance) (s : Store σ) (module : Module) (n : Nat)
    (name : String) : Prop where
  funcs : A.funcs = freshAddrs s.funcs.size (module.definedFuncs n name).length
  tables : A.tables = freshAddrs s.tables.size module.definedTables.length
  memories : A.memories = freshAddrs s.memories.size module.definedMemories.length
  globals : A.globals = freshAddrs s.globals.size module.globalInits.length
  elems : A.elems = freshAddrs s.elems.size module.elems.length
  datas : A.datas = freshAddrs s.datas.size module.datas.length

section Instantiate

variable {module : Module} {e : Externs} {name : String} (closed : module.imports = [])
  (honest : module.AllCode Code.Unforging)

include closed in
theorem Machine.fresh_of_closed (checked : m.checkImports module e = .ok ())
    (exports : (Instance.allocated m.store module n name e).addExports module.exports = .ok A) :
    A.Fresh m.store module n name := by
  rw [Instance.addExports_eq exports, externs_of_closed closed checked]
  constructor <;> first | rfl | exact Array.empty_append

include honest in
/-- What has been appended for an instance is its own. -/
theorem Instance.Fresh.houses (fresh : A.Fresh m.store module m.instances.size name)
    (few : (m.store.allocate module m.instances.size name).funcs.size ≤ UInt64.size) :
    Machine.Houses { m with
      store := m.store.allocate module m.instances.size name
      instances := m.instances.push A } A m.instances.size := by
  refine ⟨Array.getElem?_push_size, fun a mem => ?_, fun a mem => ?_,
    fun a mem t there v own => ?_, fun a mem v there => ?_, fun a mem d there v own => ?_⟩
  · obtain ⟨f, defined, here⟩ := exists_of_fresh (fresh.funcs ▸ mem)
    obtain ⟨d, declared, made⟩ := List.mem_filterMap.mp defined
    obtain ⟨b, body, rfl⟩ := Option.map_eq_some_iff.mp made
    exact ⟨_, here, rfl, honest.funcs d declared b body⟩
  · exact Nat.lt_of_lt_of_le (lt_size_of_fresh (fresh.funcs ▸ mem)) few
  · obtain ⟨type, -, here⟩ := exists_of_fresh (fresh.tables ▸ mem)
    cases here.symm.trans there
    exact (Array.mem_replicate.mp own).2 ▸ .null
  · obtain ⟨code, -, here⟩ := exists_of_fresh (fresh.globals ▸ mem)
    cases here.symm.trans there
    exact .null
  · obtain ⟨segment, -, here⟩ := exists_of_fresh (fresh.elems ▸ mem)
    cases here.symm.trans there
    exact (List.mem_replicate.mp own).2 ▸ .null

include closed honest in
/-- A module without imports whose code does not forge becomes an instance that is on its own. -/
theorem Machine.instantiate_houses {bound : Nat}
    (run : Machine.enter bound (.instantiate name module e) m = some (.ok n, m'))
    (listed : m'.instances[n]? = some A) (few : m'.store.funcs.size ≤ UInt64.size) :
    m'.Houses A n ∧ A.ready = true ∧ ∀ a ∈ A.elems, a < m'.store.elems.size := by
  obtain ⟨A₀, made⟩ := instantiates_of_enter run
  obtain rfl := made.numbered
  have stable := made.later.stable
  obtain ⟨inner, m₁, ran, rfl⟩ := made.initialised
  have fresh := fresh_of_closed closed made.checked made.exports
  have houses := fresh.houses honest (Nat.le_trans stable.store.funcs.size_le few)
  obtain ⟨confines, -⟩ := Run.Confined.initialise honest
    (fun j lt => fresh.globals ▸ mem_freshAddrs.mpr ⟨j, lt, rfl⟩)
    (fun j lt => fresh.elems ▸ mem_freshAddrs.mpr ⟨j, lt, rfl⟩)
    (fun j lt => fresh.datas ▸ mem_freshAddrs.mpr ⟨j, lt, rfl⟩) houses ran
  obtain ⟨there, funcs, small, holds⟩ := confines.houses
  have ready : { A₀ with ready := true } = A := by
    rw [Array.getElem?_modify, if_pos rfl, there] at listed
    exact Option.some.inj listed
  subst ready
  exact ⟨⟨listed, funcs, small, holds.tables, holds.globals, holds.elems⟩, rfl, fun a mem =>
    Nat.lt_of_lt_of_le (lt_size_of_fresh (fresh.elems ▸ mem)) stable.store.elems.size_le⟩

end Instantiate

/-! ## While nobody else writes -/

/-- What can become of a machine while nothing but runs of its own writes the tables and globals
that an instance lists: its functions may be called from outside with numbers, however the
calls end, and whatever else happens leaves those tables and globals as they were. -/
inductive Instance.Undisturbed (A : Instance) (m : Machine σ) : Machine σ → Prop
  | refl : Undisturbed A m m
  | own {m' m'' : Machine σ} {bound addr : Nat} {args : Array Value}
      {r : Except Halt (Array Value)} :
    Undisturbed A m m' → addr ∈ A.funcs → (∀ v ∈ args, v.hi = 0) →
    Machine.enter bound (.invoke addr args) m' = some (r, m'') → Undisturbed A m m''
  | other {m' m'' : Machine σ} : Undisturbed A m m' →
    m'.Evolves (fun _ => True) (fun _ => True) (· ∉ A.elems) m'' →
    (∀ a ∈ A.tables, m''.store.tables[a]? = m'.store.tables[a]?) →
    (∀ a ∈ A.globals, m''.store.globals[a]? = m'.store.globals[a]?) → Undisturbed A m m''

namespace Instance.Undisturbed

/-- Nothing that runs later fills the segments of an instance: new modules fill those that are
appended for them. -/
theorem after {m'' : Machine σ} (undisturbed : A.Undisturbed m m')
    (there : ∀ a ∈ A.elems, a < m'.store.elems.size)
    (evolves : m'.Evolves (fun _ => True) (fun _ => True) (m'.store.elems.size ≤ ·) m'')
    (tables : ∀ a ∈ A.tables, m''.store.tables[a]? = m'.store.tables[a]?)
    (globals : ∀ a ∈ A.globals, m''.store.globals[a]? = m'.store.globals[a]?) :
    A.Undisturbed m m'' :=
  .other undisturbed (evolves.mono (fun _ => id) (fun _ => id) fun a le mem =>
    absurd (there a mem) (Nat.not_lt.mpr le)) tables globals

/-- An instance that is on its own stays so. -/
theorem houses (undisturbed : A.Undisturbed m m') (houses : m.Houses A n) (ready : A.ready = true)
    (there : ∀ a ∈ A.elems, a < m.store.elems.size) :
    m'.Houses A n ∧ ∀ a ∈ A.elems, a < m'.store.elems.size := by
  induction undisturbed with
  | refl => exact ⟨houses, there⟩
  | @own m' m'' bound addr args r _ listed scalar run ih =>
    obtain ⟨houses', there'⟩ := ih
    have grown := (Machine.later_of_enter run).stable.store.elems.size_le
    cases bound with
    | zero => cases run
    | succ bound =>
      exact ⟨(Run.invoke_confined houses' listed scalar run).houses,
        fun a mem => Nat.lt_of_lt_of_le (there' a mem) grown⟩
  | @other m' m'' _ evolves tables globals ih =>
    obtain ⟨⟨listed, funcs, small, holds⟩, there'⟩ := ih
    have stable := evolves.stable
    refine ⟨⟨?_, fun a mem => ?_, small, ?_⟩,
      fun a mem => Nat.lt_of_lt_of_le (there' a mem) stable.store.elems.size_le⟩
    · obtain ⟨B, listed', settles⟩ := stable.instances n A listed
      rw [listed', settles.same, settles.ready ready, ← ready]
    · obtain ⟨f, stored, own⟩ := funcs a mem
      exact ⟨f, evolves.func_kept stored, own⟩
    · refine ⟨fun a mem t found => holds.tables a mem t ((tables a mem).symm.trans found),
        fun a mem v found => holds.globals a mem v ((globals a mem).symm.trans found),
        fun a mem e found => ?_⟩
      rcases evolves.elems_kept.2 a (there' a mem) (not_not_intro mem) with kept | dropped
      · exact holds.elems a mem e (kept.symm.trans found)
      · cases dropped.symm.trans found

end Instance.Undisturbed

/-- A module without imports whose code does not forge keeps to its instance. As long as nobody
else writes the tables and globals of the instance, every run of one of its functions on numbers
calls nothing but functions that the instance lists, each of which runs in it, and leaves
everything in the store that the instance does not list as it was. -/
theorem Machine.self_contained {module : Module} (closed : module.imports = [])
    (honest : module.AllCode Code.Unforging) {bound : Nat} {name : String} {e : Externs}
    {m m₁ m₂ : Machine σ} (made : Machine.enter bound (.instantiate name module e) m =
      some (.ok n, m₁))
    (listed : m₁.instances[n]? = some A) (few : m₁.store.funcs.size ≤ UInt64.size)
    (undisturbed : A.Undisturbed m₁ m₂) {addr : Nat} (own : addr ∈ A.funcs) {args : Array Value}
    (scalar : ∀ v ∈ args, v.hi = 0) :
    (∀ c, m₂.Calls addr args c →
      c ∈ A.funcs ∧ ∃ f, m₂.store.funcs[c]? = some (.module f) ∧ f.inst = n) ∧
    ∀ bound r m₃, Machine.enter bound (.invoke addr args) m₂ = some (r, m₃) →
      A.Spares m₂.store m₃.store := by
  obtain ⟨first, ready, there⟩ := instantiate_houses closed honest made listed few
  obtain ⟨houses, -⟩ := undisturbed.houses first ready there
  refine ⟨fun c calls => ?_, fun bound r m₃ run => ?_⟩
  · have mem := calls.own houses own scalar
    obtain ⟨f, stored, inst, -⟩ := houses.funcs c mem
    exact ⟨mem, f, stored, inst⟩
  · cases bound with
    | zero => cases run
    | succ bound => exact (Run.invoke_confined houses own scalar run).spares

/-- A function of the module calls another one through a table that a segment has filled. It has
been called before, and a host function has been registered since. -/
theorem Machine.self_contained_of_indirect :
    let sections : Sections := {
      types := [⟨[], [.i32]⟩], funcs := [⟨0⟩, ⟨0⟩], tables := [⟨.funcRef, .atLeast 1⟩]
      elems := [⟨.active ⟨0⟩ #[.i32Const 0, .endOf], .funcRef, .funcs [⟨1⟩], 0⟩]
      bodies :=
        [⟨[], #[.i32Const 0, .callIndirect ⟨0⟩ ⟨0⟩, .endOf]⟩, ⟨[], #[.i32Const 7, .endOf]⟩] }
    let late : HostFunc Unit := ⟨"p", "f", ⟨[], []⟩, 0, 0, .done⟩
    ∃ module, sections.build = .ok module ∧ ∃ n m₁ m' A,
      Machine.enter 9 (.instantiate "a" module {}) (Machine.new {} ()) = some (.ok n, m₁) ∧
      m₁.instances[n]? = some A ∧
      Machine.enter 9 (.invoke 0 #[]) m₁ = some (.ok #[⟨7, 0⟩], m') ∧
      (∀ c, (m'.register late).Calls 0 #[] c →
        c ∈ A.funcs ∧ ∃ f, m'.store.funcs[c]? = some (.module f) ∧ f.inst = n) ∧
      ∀ bound r m₃, Machine.enter bound (.invoke 0 #[]) (m'.register late) = some (r, m₃) →
        A.Spares m'.store m₃.store := by
  intro sections late
  refine ⟨_, rfl, ?_⟩
  generalize built : Module.mk _ _ _ _ _ _ _ _ _ _ _ _ = module
  have same : sections.build = .ok module := built ▸ rfl
  have honest : module.AllCode Code.Unforging := by
    refine Sections.build_allCode ⟨fun g mem => absurd mem List.not_mem_nil, fun e mem => ?_, ?_,
      fun d mem => absurd mem List.not_mem_nil⟩ same
    · cases List.mem_singleton.mp mem
      refine ⟨fun table offset mode => ?_, fun codes items => (nomatch items)⟩
      cases mode
      unfold Code.Unforging
      decide
    · unfold Code.Unforging
      decide
  have closed : module.imports = [] := by
    subst built
    rfl
  have ended : ((Machine.enter 9 (.instantiate "a" module {}) (Machine.new {} ())).bind fun p =>
      p.1.toOption.bind fun n => p.2.instances[n]?.bind fun A =>
        (Machine.enter 9 (.invoke 0 #[]) p.2).map fun q =>
          (A.funcs, p.2.store.funcs.size, q.1.toOption)) = some (#[0, 1], 2, some #[⟨7, 0⟩]) := by
    subst built
    decide +kernel
  obtain ⟨⟨r, m₁⟩, made, ended⟩ := Option.bind_eq_some_iff.mp ended
  obtain ⟨n, success, ended⟩ := Option.bind_eq_some_iff.mp ended
  obtain ⟨A, listed, ended⟩ := Option.bind_eq_some_iff.mp ended
  obtain ⟨⟨r', m'⟩, run, found⟩ := Option.map_eq_some_iff.mp ended
  obtain ⟨funcs, rest⟩ := Prod.mk.inj found
  obtain ⟨size, result⟩ := Prod.mk.inj rest
  cases (Except.of_toOption success : r = _)
  cases (Except.of_toOption result : r' = _)
  have own : 0 ∈ A.funcs := by
    have funcs' : A.funcs = #[0, 1] := funcs
    simp [funcs']
  have few : m₁.store.funcs.size ≤ UInt64.size := by
    have size' : m₁.store.funcs.size = 2 := size
    rw [size']
    decide
  have scalar : ∀ v ∈ (#[] : Array Value), v.hi = 0 :=
    fun v mem => absurd mem (Array.not_mem_empty v)
  have undisturbed : A.Undisturbed m₁ (m'.register late) :=
    .other (.own .refl own scalar run) (.register (fun _ => trivial) m') (fun _ _ => rfl)
      fun _ _ => rfl
  exact ⟨n, m₁, m', A, made, listed, run,
    self_contained closed honest made listed few undisturbed own scalar⟩

/-- A module without imports makes up a reference to the function of another module, as the
constant vector whose high half is one, and calls it: the global of that module changes. -/
theorem Machine.forged_call :
    let library : List UInt8 := [
      0x00, 0x61, 0x73, 0x6d, 0x01, 0x00, 0x00, 0x00, 0x01, 0x04, 0x01, 0x60, 0x00, 0x00,
      0x03, 0x02, 0x01, 0x00, 0x06, 0x06, 0x01, 0x7f, 0x01, 0x41, 0x00, 0x0b,
      0x0a, 0x08, 0x01, 0x06, 0x00, 0x41, 0x07, 0x24, 0x00, 0x0b]
    let forger : List UInt8 := [
      0x00, 0x61, 0x73, 0x6d, 0x01, 0x00, 0x00, 0x00, 0x01, 0x04, 0x01, 0x60, 0x00, 0x00,
      0x03, 0x02, 0x01, 0x00, 0x04, 0x04, 0x01, 0x70, 0x00, 0x01,
      0x0a, 0x1f, 0x01, 0x1d, 0x00, 0x41, 0x00,
      0xfd, 0x0c, 0, 0, 0, 0, 0, 0, 0, 0, 1, 0, 0, 0, 0, 0, 0, 0,
      0x26, 0x00, 0x41, 0x00, 0x11, 0x00, 0x00, 0x0b]
    ∃ b a, Module.decode library = .ok b ∧ Module.decode forger = .ok a ∧ a.imports = [] ∧
      ∃ (m m₁ m₂ : Machine Unit) (n : Nat) (A : Instance),
        (Machine.enter 9 (.instantiate "b" b {}) (.new {} ())).map (·.2) = some m ∧
        Machine.enter 9 (.instantiate "a" a {}) m = some (.ok n, m₁) ∧
        m₁.instances[n]? = some A ∧ A.funcs = #[1] ∧ A.globals = #[] ∧
        Machine.enter 20 (.invoke 1 #[]) m₁ = some (.ok #[], m₂) ∧
        m₁.store.globals[0]? = some ⟨0, 0⟩ ∧ m₂.store.globals[0]? = some ⟨7, 0⟩ ∧
        ¬ A.Spares m₁.store m₂.store := by
  intro library forger
  have ended : ((Module.decode library).toOption.bind fun b =>
      (Module.decode forger).toOption.bind
      fun a => (Machine.enter 9 (.instantiate "b" b {}) (Machine.new {} ())).bind fun p =>
        (Machine.enter 9 (.instantiate "a" a {}) p.2).bind fun q => q.1.toOption.bind fun n =>
          q.2.instances[n]?.bind fun A => (Machine.enter 20 (.invoke 1 #[]) q.2).bind fun s =>
            s.1.toOption.map fun values : Array Value =>
              (a.imports.length, [A.funcs, A.globals], values,
                [q.2.store.globals[0]?, s.2.store.globals[0]?]))
      = some (0, [#[1], #[]], #[], [some ⟨0, 0⟩, some ⟨7, 0⟩]) := by
    decide +kernel
  obtain ⟨b, decoded, ended⟩ := Option.bind_eq_some_iff.mp ended
  obtain ⟨a, decoded', ended⟩ := Option.bind_eq_some_iff.mp ended
  obtain ⟨⟨r, m⟩, before, ended⟩ := Option.bind_eq_some_iff.mp ended
  obtain ⟨⟨r₁, m₁⟩, made, ended⟩ := Option.bind_eq_some_iff.mp ended
  obtain ⟨n, success, ended⟩ := Option.bind_eq_some_iff.mp ended
  obtain ⟨A, listed, ended⟩ := Option.bind_eq_some_iff.mp ended
  obtain ⟨⟨r₂, m₂⟩, run, ended⟩ := Option.bind_eq_some_iff.mp ended
  obtain ⟨values, result, found⟩ := Option.map_eq_some_iff.mp ended
  simp only [Prod.mk.injEq, List.cons.injEq, and_true] at found
  obtain ⟨closed, ⟨funcs, globals⟩, rfl, zero, seven⟩ := found
  cases (Except.of_toOption success : r₁ = _)
  cases (Except.of_toOption result : r₂ = _)
  refine ⟨b, a, Except.of_toOption decoded, Except.of_toOption decoded',
    List.eq_nil_of_length_eq_zero closed, m, m₁, m₂, n, A, ?_,
    made, listed, funcs, globals, run, zero, seven, fun spares => ?_⟩
  · rw [before]
    rfl
  · have same := spares.globals 0 (globals ▸ Array.not_mem_empty 0)
    rw [zero, seven] at same
    cases same

end WasmMachine
