import WasmMachine.Proofs.LabelStack
import WasmMachine.Proofs.Reached

/-!
# Faults of control

Reaching the end of some code, or missing the label of an open construct, are faults of control:
the code is not what a decoder gives.  In decoded code neither happens.  Where a machine is about
to step, its innermost frame is aligned, so that the step finds an instruction and the instruction
its label (`Reached.no_fault`); and no run ends with a fault that a host program has not made up
itself (`Reached.sound_enter`).
-/

namespace WasmMachine

variable {σ α β : Type}

/-! ## Runs that do not fault -/

/-- The traps of code that has run out of instructions or of labels. -/
def Trap.isFault : Trap → Bool
  | .labelUnderflow | .codeEnd _ => true
  | _ => false

/-- Faults are among the traps that only instructions of control raise. -/
theorem Trap.isFault_of_plain {t : Trap} (plain : t.isControl = false) : t.isFault = false := by
  cases t with
  | labelUnderflow | codeEnd => cases plain
  | _ => rfl

/-- From a given machine, a run ends with no faults but those of a given kind. -/
def Run.Sound (F : Trap → Prop) (x : Run σ α) (m : Machine σ) : Prop :=
  ∀ ⦃t m'⦄, x m = some (.error (.trap t), m') → t.isFault = true → F t

namespace Run.Sound

variable {F : Trap → Prop} {m : Machine σ} {x : Run σ α}

theorem pure (a : α) : Sound F (Pure.pure a) m := by
  intro t m' run
  cases run

/-- A trap that is no fault may be raised anywhere. -/
theorem trap {t : Trap} (other : t.isFault = false) : Sound F (Run.trap t : Run σ α) m := by
  intro t' m' run fault
  cases run
  rw [other] at fault
  cases fault

/-- A run is sound if its first part is, and the second one from where the first one ends. -/
theorem bind {k : α → Run σ β} (first : Sound F x m)
    (rest : ∀ a m₁, x m = some (.ok a, m₁) → Sound F (k a) m₁) : Sound F (x >>= k) m := by
  intro t m' run fault
  rcases bind_cases run with ⟨h, head, same⟩ | ⟨a, m₁, head, run⟩
  · cases same
    exact first head fault
  · exact rest a m₁ head run fault

/-- Reading the machine leaves it in place, and what follows may depend on it. -/
theorem get {k : Machine σ → Run σ α} (rest : Sound F (k m) m) :
    Sound F (MonadState.get >>= k) m :=
  rest

theorem modify (g : Machine σ → Machine σ) :
    Sound F (MonadState.modifyGet fun m => ((), g m) : Run σ Unit) m := by
  intro t m' run
  cases run

theorem map (g : α → β) (sound : Sound F x m) : Sound F (g <$> x) m := by
  rw [map_eq_pure_bind]
  exact sound.bind fun a _ _ => pure (g a)

/-- Operations of the store raise no faults. -/
theorem op {x : StoreM σ α} (op : StoreM.Op x) : Sound F (Run.store x) m := by
  intro t m' run fault
  rw [store_eq] at run
  split at run
  · cases run
  · next failed =>
    cases run
    rw [Trap.isFault_of_plain ((op.of_error failed).1)] at fault
    cases fault

theorem ofExcept {e : Except Trap α} (plain : Except.Plain e) :
    Sound F (Run.ofExcept e : Run σ α) m := by
  cases e with
  | ok a => exact pure a
  | error t => exact trap (Trap.isFault_of_plain (plain t rfl))

theorem popAll (count : Nat) : Sound F (act (FrameM.popAll count) : Run σ (Array Value)) m := by
  intro t m' run fault
  by_cases empty : m.frames = #[]
  · rw [act_empty empty] at run
    cases run
    cases fault
  · obtain ⟨outer, f, top⟩ := Array.exists_push_of_ne_empty empty
    rw [popAll_eq count top] at run
    split at run <;> cases run
    cases fault

theorem pushOperands (idx : Nat) (vs : Array Value) :
    Sound F (Run.pushOperands idx vs : Run σ Unit) m := by
  refine get ?_
  split
  · exact modify _
  · exact trap rfl

theorem finish : Sound F (Run.finish : Run σ Unit) m := by
  refine get ?_
  split
  · exact pure _
  · split
    · exact pure _
    · split
      · exact pure _
      · refine (modify _).bind fun _ m₁ _ => ?_
        split
        · exact trap rfl
        · exact pushOperands _ _

theorem restoring (depth : Nat) (sound : Sound F x m) : Sound F (Run.restoring depth x) m := by
  intro t m' run fault
  rcases restoring_cases run with ⟨a, -, failed⟩ | ⟨h, m₁, failed, same, -⟩
  · cases failed
  · cases same
    exact sound failed fault

/-- What has been caught may be raised again: it is known of it that it is one of the faults
that are allowed. -/
theorem tryCatch {k : Halt → Run σ α} (sound : Sound F x m)
    (caught : ∀ h m₁, (∀ t, h = .trap t → t.isFault = true → F t) → Sound F (k h) m₁) :
    Sound F (MonadExcept.tryCatch x k) m := by
  intro t m' run fault
  rcases tryCatch_cases run with ⟨a, -, failed⟩ | ⟨h, m₁, failed, run⟩
  · cases failed
  · refine caught h m₁ (fun t' same => ?_) run fault
    rw [same] at failed
    exact sound failed

theorem throw {h : Halt} (known : ∀ t, h = .trap t → t.isFault = true → F t) :
    Sound F (MonadExcept.throw h : Run σ α) m := by
  intro t m' run
  cases run
  exact known t rfl

end Run.Sound

/-! ## Results of instantiations -/

theorem Machine.checkFunc_plain (m : Machine σ) (types : Array FuncType) (i : Import)
    (idx : TypeIdx) (addr : Nat) : Except.Plain (m.checkFunc types i idx addr) := by
  unfold checkFunc
  split
  · exact .error rfl
  · split
    · exact .error rfl
    · exact .ite (.ok _) (.error rfl)

theorem Machine.checkTable_plain (m : Machine σ) (i : Import) (type : TableType) (addr : Nat) :
    Except.Plain (m.checkTable i type addr) := by
  unfold checkTable
  split
  · exact .error rfl
  · exact .ite (.ok _) (.error rfl)

theorem Machine.checkMemory_plain (m : Machine σ) (i : Import) (type : MemType) (addr : Nat) :
    Except.Plain (m.checkMemory i type addr) := by
  unfold checkMemory
  split
  · exact .error rfl
  · exact .ite (.ok _) (.error rfl)

/-- Imports are checked without looking at any code. -/
theorem Machine.checkEach_plain (m : Machine σ) (types : Array FuncType) (imports : List Import)
    (funcs tables memories : List Nat) :
    Except.Plain (m.checkEach types imports funcs tables memories) := by
  induction imports generalizing funcs tables memories with
  | nil => exact .ok _
  | cons i is ih =>
    unfold checkEach
    cases i.desc with
    | func idx => exact (m.checkFunc_plain types i idx _).bind fun _ => ih _ _ _
    | table type => exact (m.checkTable_plain i type _).bind fun _ => ih _ _ _
    | mem type => exact (m.checkMemory_plain i type _).bind fun _ => ih _ _ _
    | global type => exact ih _ _ _

/-- The check of the imports raises no faults. -/
theorem Machine.checkImports_plain (m : Machine σ) (module : Module) (e : Externs) :
    Except.Plain (m.checkImports module e) :=
  .ite (.error rfl) (m.checkEach_plain _ _ _ _ _)

/-- Making the exports of an instance raises no faults. -/
theorem Instance.addExports_plain (i : Instance) (es : List Export) :
    Except.Plain (i.addExports es) := by
  induction es generalizing i with
  | nil => exact .ok _
  | cons e es ih => exact (i.externVal_plain e.desc).bind fun v => ih _

theorem Except.Plain.mapM {g : α → Except Trap β} (plain : ∀ a, Except.Plain (g a))
    (as : List α) :
    Except.Plain (as.mapM g) := by
  induction as with
  | nil => exact .ok _
  | cons a as ih =>
    rw [List.mapM_cons]
    exact (plain a).bind fun b => ih.bind fun bs => .ok _

/-! ## Aligned machines -/

variable {config : Config} {world : σ} {program : HostProg σ} {m m' : Machine σ}

/-- Modules that have been decoded have all their code aligned, so that a program that
instantiates nothing else never brings other code along. -/
theorem HostProg.Tame.resolved
    (decoded : program.Tame fun module => ∃ bytes, Module.decode bytes = .ok module) :
    program.Tame (Module.AllCode Discipline.aligned.code) :=
  decoded.mono fun _ ⟨_, decodes⟩ => Module.decode_resolved decodes

/-- A frame that is aligned finds its instruction, and the instruction its label. -/
theorem Run.instruction_sound {F : Trap → Prop} {outer : Array Frame} {f : Frame}
    (top : m.frames = outer.push f) (inside : f.labels ≠ []) (aligned : f.Aligned) :
    Sound F (instruction : Run σ Flow) m := by
  intro t m' run fault
  cases instructs top run with
  | unpaid | homeless => cases fault
  | ended _ past => cases past.symm.trans (Array.getElem?_eq_getElem aligned.inside)
  | traps _ _ _ ran =>
    rcases Instr.exec_trap inside ran with plain | ⟨depth, rfl⟩
    · rw [Trap.isFault_of_plain plain] at fault
      cases fault
    · cases fault

/-- Looking up an instance changes nothing. -/
theorem Run.eq_of_instanceAt {idx : Nat} {inst : Instance}
    (run : instanceAt idx m = some (.ok inst, m')) : m' = m := by
  rw [instanceAt, get_bind] at run
  cases found : m.instances[idx]? <;> (rw [found] at run; cases run)
  rfl

theorem Run.eq_of_ofExcept {e : Except Trap α} {a : α}
    (run : Run.ofExcept e m = some (.ok a, m')) : m' = m := by
  cases e <;> cases run
  rfl

/-! ## No run faults -/

/-- A host program that is reached raises a trap itself. -/
def Forged (config : Config) (world : σ) (program : HostProg σ) (t : Trap) : Prop :=
  ∃ m, Reached config world program (.host (.halt (.trap t))) m

namespace Reached

variable (inner : Nat)

/-- A fault that a host program ends with is one that it raises itself, in the state that it has
come to, or that it passes on from an entry. -/
theorem sound_host {Q : Module → Prop} {p : HostProg σ} (tame : p.Tame Q)
    (reached : Reached config world program (.host p) m) :
    Run.Sound (Forged config world program) (Run.host (Machine.enter inner) p) m := by
  induction tame generalizing m with
  | done frame => exact .pure frame
  | halt reason =>
    intro t m' run fault
    cases run
    exact ⟨m, reached⟩
  | access op _ ih => exact ih _ reached.access
  | enter _ _ ih =>
    intro t m' run fault
    rw [Run.host] at run
    dsimp only at run
    split at run
    · cases run
    · next reply m₁ entered => exact ih reply (reached.entered inner entered) run fault
  | register _ _ _ ih => exact ih reached.register
  | getState _ ih => exact ih m.world reached.getState
  | setState s _ ih => exact ih reached.setState

variable (decoded : program.Tame fun module => ∃ bytes, Module.decode bytes = .ok module)
include decoded

/-- A call starts a frame or runs a host program; what else may go wrong with it is no fault. -/
theorem sound_call {addr : Nat} (reached : Reached config world program (.call addr) m) :
    Run.Sound (Forged config world program) (Run.call (Machine.enter inner) addr) m := by
  refine .get (.get ?_)
  dsimp only
  split
  · exact .bind (.trap rfl) fun _ _ run => by cases run
  · refine .bind (.op (.getFunc addr)) fun func m₁ looked => .get ?_
    rw [Run.getFunc_eq] at looked
    split at looked
    · cases looked
    · next found =>
      cases looked
      split
      · exact .bind (.trap rfl) fun _ _ run => by cases run
      · refine .get ?_
        cases func with
        | module f => exact .bind (.popAll _) fun args m₁ _ => .modify _
        | host f =>
          refine .bind (.popAll _) fun args m₁ popped => .get ?_
          have starts (inst caller : Nat) := reached.callHost inst caller found popped
          have tame (inst caller : Nat) := ((starts inst caller).holds decoded.resolved).suits
          refine .bind (sound_host inner (tame _ _) (starts _ _)) fun frame m₂ _ => ?_
          split
          · exact .trap rfl
          · exact .pushOperands _ _

/-- A step of a reached machine is one of a frame that is aligned. -/
theorem sound_step (reached : Reached config world program .step m) :
    Run.Sound (Forged config world program) (Run.step (Machine.enter inner)) m := by
  have holds := reached.holds decoded.resolved
  obtain ⟨outer, f, top, inside⟩ := holds.suits
  have aligned : f.Aligned := (top ▸ holds.keeps).of_push.2 inside
  rw [Run.step_eq_instruction]
  refine .bind (Run.instruction_sound top inside aligned) fun flow m₁ run => ?_
  cases flow with
  | next => exact .finish
  | call addr => exact .bind (sound_call inner decoded (reached.call run)) fun _ _ _ => .finish

/-- Every step of a loop is reached from the one before, by induction on the bound. -/
theorem sound_loop {more : Machine σ → Bool} (bound : Nat)
    (reached : Reached config world program (.loop more) m) :
    Run.Sound (Forged config world program)
      (Run.stepWhile (Machine.enter inner) more bound) m := by
  induction bound generalizing m with
  | zero =>
    intro t m' run
    cases run
  | succ bound ih =>
    refine .get ?_
    split
    · next again =>
      exact .bind (sound_step inner decoded (reached.step again)) fun _ m₁ run =>
        ih (reached.stepped inner again run)
    · exact .pure _

/-- A call from outside is reached, and so is the loop that follows it. -/
theorem sound_invoke (bound : Nat) {addr : Nat} {args : Array Value}
    (reached : Reached config world program (.enter (.invoke addr args)) m) :
    Run.Sound (Forged config world program)
      (Run.invoke (Machine.enter inner) bound addr args) m := by
  refine .bind (.op (.getFunc addr)) fun func m₁ looked => ?_
  rw [Run.getFunc_eq] at looked
  split at looked
  · cases looked
  · cases looked
    dsimp only
    split
    · exact .bind (.trap rfl) fun _ _ run => by cases run
    · refine .get (.bind (.modify _) fun _ m₁ pushed => ?_)
      cases pushed
      refine .bind (.restoring _ (.bind ?_ ?_)) fun _ m₂ _ => .bind ?_ fun entry m₃ _ => ?_
      · exact sound_call inner decoded (reached.invoke _)
      · intro _ m₂ called
        exact sound_loop inner decoded bound (reached.invoked _ inner called)
      · intro t m' run
        cases run
      · split
        · exact .trap rfl
        · exact .pure _

/-- A constant expression is a loop on a frame of its own. -/
theorem sound_constant (bound : Nat) {inst : Nat} {code : Code}
    (reached : Reached config world program (.constant inst code) m) :
    Run.Sound (Forged config world program)
      (Run.constant (Machine.enter inner) bound inst code) m := by
  rw [Run.constant_eq]
  refine .get (.bind (.modify _) fun _ m₁ pushed => ?_)
  cases pushed
  refine .bind (.restoring _ (sound_loop inner decoded bound reached.constant)) fun _ m₂ _ => ?_
  refine .bind (.modify _) fun _ m₃ _ => .bind ?_ fun frame m₄ _ => ?_
  · intro t m' run
    cases run
  · split
    · exact .trap rfl
    · split
      · exact .pure _
      · exact .trap rfl

/-! ### Instantiations -/

/-- Each initialiser is reached when those before it have ended. -/
theorem sound_initGlobals (bound : Nat) {inst addr : Nat} {codes : List Code}
    (reached : Reached config world program (.globals inst addr codes) m) :
    Run.Sound (Forged config world program)
      (Run.initGlobals (Machine.enter inner) bound inst addr codes) m := by
  induction codes generalizing addr m with
  | nil => exact .pure _
  | cons code codes ih =>
    have split : Run.initGlobals (Machine.enter inner) bound inst addr (code :: codes) = (do
        (do Run.store (StoreM.setGlobal addr
          (← Run.constant (Machine.enter inner) bound inst code)))
        Run.initGlobals (Machine.enter inner) bound inst (addr + 1) codes : Run σ Unit) := by
      rw [Run.initGlobals, bind_assoc]
    rw [split]
    refine .bind ?_ fun _ m₁ set => ih (reached.globalSet inner bound set)
    exact .bind (sound_constant inner decoded bound reached.global) fun v m₁ _ =>
      .op (.setGlobal _ _)

theorem sound_constants (bound : Nat) {inst : Nat} {codes : List Code}
    (reached : Reached config world program (.constants inst codes) m) :
    Run.Sound (Forged config world program)
      (Run.constants (Machine.enter inner) bound inst codes) m := by
  induction codes generalizing m with
  | nil => exact .pure _
  | cons code codes ih =>
    refine .bind (sound_constant inner decoded bound reached.item) fun v m₁ run => ?_
    exact .bind (ih (reached.itemDone inner bound run)) fun vs m₂ _ => .pure _

omit decoded in
theorem sound_instanceAt {F : Trap → Prop} (inst : Nat) :
    Run.Sound F (Run.instanceAt inst : Run σ Instance) m := by
  refine .get ?_
  split
  · exact .pure _
  · exact .trap rfl

/-- The items of a segment that are expressions are run one after the other. -/
theorem sound_elemValues (bound : Nat) {inst addr : Nat} {segment : ElemSegment}
    {segments : List ElemSegment}
    (reached : Reached config world program (.elems inst addr (segment :: segments)) m) :
    Run.Sound (Forged config world program)
      (Run.elemValues (Machine.enter inner) bound inst segment.items) m := by
  cases items : segment.items with
  | funcs idxs =>
    refine .bind (sound_instanceAt inst) fun i m₁ _ => .ofExcept (.mapM (fun idx => ?_) idxs)
    exact (Instance.addrOf_plain _ _ _).map _
  | exprs codes => exact sound_constants inner decoded bound (reached.items items)

/-- An element segment is reached with its items first, then with its offset. -/
theorem sound_initElem (bound : Nat) {inst addr : Nat} {segment : ElemSegment}
    {segments : List ElemSegment}
    (reached : Reached config world program (.elems inst addr (segment :: segments)) m) :
    Run.Sound (Forged config world program)
      (Run.initElem (Machine.enter inner) bound inst addr segment) m := by
  refine .bind (sound_elemValues inner decoded bound reached) fun values m₁ run => ?_
  cases mode : segment.mode with
  | passive =>
    intro t m' run
    cases run
  | declarative => exact .op (.dropElem addr)
  | active table code =>
    have offset := sound_constant inner decoded bound (reached.elemOffset inner bound mode run)
    refine .bind (.bind offset fun v m₂ _ => .pure _) fun pos m₂ _ => ?_
    refine .bind (sound_instanceAt inst) fun i m₃ _ => ?_
    refine .bind (.ofExcept (Instance.addrOf_plain _ _ _)) fun tableAddr m₄ _ => ?_
    exact .bind (.op (.onTable _ (.write _ _))) fun _ m₅ _ => .op (.dropElem addr)

/-- Element segments, by induction along the list. -/
theorem sound_initElems (bound : Nat) {inst addr : Nat} {segments : List ElemSegment}
    (reached : Reached config world program (.elems inst addr segments) m) :
    Run.Sound (Forged config world program)
      (Run.initElems (Machine.enter inner) bound inst addr segments) m := by
  induction segments generalizing addr m with
  | nil => exact .pure _
  | cons segment segments ih =>
    exact .bind (sound_initElem inner decoded bound reached) fun _ m₁ run =>
      ih (reached.elemSet inner bound run)

/-- A data segment is reached with its offset. -/
theorem sound_initData (bound : Nat) {inst addr : Nat} {segment : DataSegment}
    {segments : List DataSegment}
    (reached : Reached config world program (.datas inst addr (segment :: segments)) m) :
    Run.Sound (Forged config world program)
      (Run.initData (Machine.enter inner) bound inst addr segment) m := by
  unfold Run.initData
  cases mode : segment.mode with
  | passive => exact .pure _
  | active mem code =>
    have offset := sound_constant inner decoded bound (reached.dataOffset mode)
    refine .bind (.bind offset fun v m₂ _ => .pure _) fun pos m₂ _ => ?_
    refine .bind (sound_instanceAt inst) fun i m₃ _ => ?_
    refine .bind (.ofExcept (i.memAddr_plain _)) fun memAddr m₄ _ => ?_
    exact .bind (.op (.onMemory _ (.write _ _))) fun _ m₅ _ => .op (.dropData addr)

theorem sound_initDatas (bound : Nat) {inst addr : Nat} {segments : List DataSegment}
    (reached : Reached config world program (.datas inst addr segments) m) :
    Run.Sound (Forged config world program)
      (Run.initDatas (Machine.enter inner) bound inst addr segments) m := by
  induction segments generalizing addr m with
  | nil => exact .pure _
  | cons segment segments ih =>
    exact .bind (sound_initData inner decoded bound reached) fun _ m₁ run =>
      ih (reached.dataSet inner bound run)

omit decoded in
/-- Allocating checks imports and names exports, and runs nothing. -/
theorem sound_allocate {F : Trap → Prop} (name : String) (module : Module) (e : Externs) :
    Run.Sound F (Run.allocate name module e : Run σ _) m := by
  refine .get (.bind (.ofExcept (m.checkImports_plain module e)) fun _ m₁ _ => ?_)
  iterate 5 refine .get ?_
  refine .bind (.modify _) fun _ m₂ _ => ?_
  refine .bind (.ofExcept (Instance.addExports_plain _ _)) fun exporting m₃ _ => ?_
  exact .bind (.modify _) fun _ m₄ _ => .pure _

section Stages

variable (bound : Nat) {name : String} {module : Module} {e : Externs}
  (reached : Reached config world program (.enter (.instantiate name module e)) m)
include reached

theorem sound_withGlobals : Run.Sound (Forged config world program)
    (Run.withGlobals (Machine.enter inner) bound name module e) m :=
  .bind (sound_allocate name module e) fun _ _ run =>
    .bind (sound_initGlobals inner decoded bound (reached.globals run)) fun _ _ _ => .pure _

theorem sound_withElems : Run.Sound (Forged config world program)
    (Run.withElems (Machine.enter inner) bound name module e) m :=
  .bind (sound_withGlobals inner decoded bound reached) fun _ _ run =>
    .bind (sound_initElems inner decoded bound (reached.elems inner bound run))
      fun _ _ _ => .pure _

theorem sound_withDatas : Run.Sound (Forged config world program)
    (Run.withDatas (Machine.enter inner) bound name module e) m :=
  .bind (sound_withElems inner decoded bound reached) fun _ _ run =>
    .bind (sound_initDatas inner decoded bound (reached.datas inner bound run))
      fun _ _ _ => .pure _

/-- An instantiation raises no fault of its own in any of its stages, nor in its start
function. -/
theorem sound_instantiate : Run.Sound (Forged config world program)
    (Run.instantiate (Machine.enter inner) bound name module e) m := by
  rw [Run.instantiate_eq]
  refine .bind (sound_withDatas inner decoded bound reached) fun inst m₁ run => ?_
  refine .bind ?_ fun _ m₂ _ => .bind (.modify _) fun _ m₃ _ => .pure _
  cases idx : module.start with
  | none => exact .pure _
  | some idx' =>
    refine .bind (sound_instanceAt inst) fun i m₂ looked => ?_
    have same := Run.eq_of_instanceAt looked
    refine .bind (.ofExcept (Instance.addrOf_plain _ _ _)) fun addr m₃ found => ?_
    have same' := Run.eq_of_ofExcept found
    rw [same', same]
    exact .bind (sound_invoke inner decoded bound (reached.start inner bound addr run idx))
      fun _ _ _ => .pure _

end Stages

/-! ### Entries -/

/-- A run that ends with a fault only if a host program has raised it itself: so does every entry
that is reached. -/
theorem sound_enter {op : Entry} (reached : Reached config world program (.enter op) m) :
    Run.Sound (Forged config world program) (Machine.enter inner op) m := by
  cases inner with
  | zero =>
    intro t m' run
    cases run
  | succ bound =>
    cases op with
    | invoke addr args => exact sound_invoke bound decoded bound reached
    | trampoline addr args =>
      have called := sound_invoke bound decoded bound reached.trampoline
      refine .get (.get (.tryCatch (called.map _) fun h m₁ known => ?_))
      cases h with
      | longjmp =>
        refine .bind (.modify _) fun _ m₂ _ => ?_
        dsimp only
        split
        · exact .bind (.modify _) fun _ m₃ _ => .pure _
        · exact .pure _
      | trap t => exact .throw known
      | exit code => exact .throw known
    | callExport inst name args =>
      refine .get ?_
      split
      · next addr exported =>
        have called := sound_invoke bound decoded bound (reached.callExport exported)
        refine .tryCatch (called.map _) fun h m₁ known => ?_
        cases h with
        | longjmp => exact .trap rfl
        | trap t => exact .throw known
        | exit code => exact .pure _
      · exact .trap rfl
    | instantiate name module externs => exact sound_instantiate bound decoded bound reached
    | step => cases (reached.holds decoded.resolved).suits
    | execute depth => cases (reached.holds decoded.resolved).suits

end Reached

/-- The integrity of control flow. Let a program run on a fresh machine, with host functions that
leave stepping to it, and let it bring in nothing but modules that have been decoded, from any
bytes. At every point of its run, a frame that is inside of something is at an instruction of its
code; it has one label more than constructs enclose this instruction, and the labels lead, from
the innermost outwards, where these constructs do, and the last one to the end of the code. So no
instruction faults, and no entry ends with a fault that a host program has not raised itself. -/
theorem control_flow_integrity
    (decoded : program.Tame fun module => ∃ bytes, Module.decode bytes = .ok module)
    {task : Task σ} (reached : Reached config world program task m) :
    (∀ f ∈ m.frames, f.labels ≠ [] →
      f.pc < f.code.size ∧ f.labels.length = 1 + (f.code.enclosing f.pc).length ∧
        f.labels.map (·.target) = f.code.enclosing f.pc ++ [f.code.size]) ∧
    (task = .step → ∀ t m', Run.instruction m = some (.error (.trap t), m') → t.isFault = false) ∧
    ∀ op, task = .enter op → ∀ inner t m',
      Machine.enter inner op m = some (.error (.trap t), m') → t.isFault = true →
        Forged config world program t := by
  have holds := reached.holds decoded.resolved
  refine ⟨fun f mem inside => ?_, ?_, ?_⟩
  · have aligned : f.Aligned := holds.keeps f mem inside
    exact ⟨aligned.inside, Nat.add_comm _ 1 ▸ aligned.length_labels, aligned.targets⟩
  · rintro rfl t m' run
    obtain ⟨outer, f, top, inside⟩ := holds.suits
    have aligned : f.Aligned := (top ▸ holds.keeps).of_push.2 inside
    cases fault : t.isFault with
    | false => rfl
    | true =>
      exact (Run.instruction_sound (F := fun _ => False) top inside aligned run fault).elim
  · rintro op rfl inner t m' run fault
    exact reached.sound_enter inner decoded run fault

/-- A constant expression that is inside of a block. -/
theorem control_flow_integrity_of_constant :
    let bytes : List UInt8 := [0x00, 0x61, 0x73, 0x6d, 0x01, 0x00, 0x00, 0x00,
      0x06, 0x07, 0x01, 0x7f, 0x00, 0x02, 0x40, 0x0b, 0x0b]
    let program : HostProg Unit := match Module.decode bytes with
      | .ok module => .enter (.instantiate "m" module {}) fun _ => .done (.entry 0 #[])
      | .error _ => .halt .longjmp
    ∃ m f, Reached {} () program (.loop (Run.openAt 0)) m ∧ f ∈ m.frames ∧ f.labels.length = 2 ∧
      f.pc < f.code.size ∧ f.labels.map (·.target) = f.code.enclosing f.pc ++ [f.code.size] := by
  intro bytes program
  have runs : ((Module.decode bytes).toOption.bind fun module =>
      module.globalInits.head?.bind fun code =>
        (Run.allocate "m" module {} (.new {} ())).bind fun (r, m) =>
          r.toOption.bind fun (inst, _) =>
            (Run.step (Machine.enter 0) { m with
              frames := m.frames.push (.new none code inst #[] 1 none ⟨0, code.size, 0⟩) }).bind
                fun (r, m) => r.toOption.map fun _ => m.frames.map (·.labels.length))
        = some #[2] := by
    decide +kernel
  obtain ⟨module, decodes, runs⟩ := Option.bind_eq_some_iff.mp runs
  obtain ⟨code, first, runs⟩ := Option.bind_eq_some_iff.mp runs
  obtain ⟨⟨r, m⟩, allocates, runs⟩ := Option.bind_eq_some_iff.mp runs
  obtain ⟨⟨inst, addr, rest⟩, succeeds, runs⟩ := Option.bind_eq_some_iff.mp runs
  obtain ⟨⟨r', m'⟩, steps, runs⟩ := Option.bind_eq_some_iff.mp runs
  obtain ⟨_, succeeds', labels⟩ := Option.map_eq_some_iff.mp runs
  have result : Module.decode bytes = .ok module := Except.of_toOption decodes
  cases (Except.of_toOption succeeds : r = _)
  cases (Except.of_toOption succeeds' : r' = _)
  have starts : program =
      .enter (.instantiate "m" module {}) fun _ => .done (.entry 0 #[]) := by
    simp only [program, result]
  rw [starts]
  have decoded : HostProg.Tame (fun module => ∃ bytes, Module.decode bytes = .ok module)
      (.enter (.instantiate "m" module {}) fun _ => .done (.entry 0 #[]) : HostProg Unit) :=
    .enter ⟨bytes, result⟩ fun _ => .done _
  obtain ⟨codes, inits⟩ : ∃ codes, module.globalInits = code :: codes :=
    List.head?_eq_some_iff.mp first
  have begins := @Reached.begin Unit {} ()
    (.enter (.instantiate "m" module {}) fun _ => .done (.entry 0 #[]))
  have globals := begins.enter.globals allocates
  rw [inits] at globals
  have empty : m.frames = #[] :=
    (Run.Neutral.allocate "m" (Module.decode_resolved result) {}
      (Machine.new_tame {} ()) allocates).1
  have reached := globals.global.constant
  have again : Run.openAt m.frames.size { m with
      frames :=
        m.frames.push (.new none code inst #[] 1 none ⟨0, code.size, 0⟩) } = true := by
    simp [Run.openAt, Frame.hasLabel, Frame.new]
  have reached' := reached.stepped 0 again steps
  rw [empty] at reached'
  have listed : 2 ∈ m'.frames.map (·.labels.length) := by simp [labels]
  obtain ⟨f, mem, two⟩ := Array.mem_map.mp listed
  have inside : f.labels ≠ [] := by
    intro none
    rw [none] at two
    cases two
  obtain ⟨position, _, targets⟩ := (control_flow_integrity decoded reached').1 f mem inside
  exact ⟨m', f, reached', mem, two, position, targets⟩

end WasmMachine
