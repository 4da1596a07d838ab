import WasmMachine.Proofs.Towers

/-!
# Neutral entries

Calls from outside, constant expressions and instantiations put frames on top of those that are
there and take them off again, however they end: by their own results, by a trap, or by a jump out
of them.  So every entry of a machine whose functions are tame leaves the frames as they were
(`Machine.enter_neutral`).
-/

namespace WasmMachine

variable {σ α β : Type} {D : Discipline} {enter : Enter σ} {m m' : Machine σ}
    {outer : Array Frame}

theorem Module.AllCode.globalInits {P : Code → Prop} {module : Module} (good : module.AllCode P) :
    ∀ code ∈ module.globalInits, P code := by
  intro code mem
  obtain ⟨g, listed, init⟩ := List.mem_filterMap.mp mem
  exact good.globals g listed code init

namespace Run

/-- A halt cuts the frames down to a depth; any other end is passed on. -/
theorem restoring_apply (depth : Nat) (x : Run σ α) (m : Machine σ) :
    restoring depth x m = match x m with
      | none => none
      | some (.ok a, m) => some (.ok a, m)
      | some (.error h, m) => some (.error h, { m with frames := m.frames.shrink depth }) := by
  rw [restoring, tryCatch_apply]
  cases x m with
  | none => rfl
  | some p =>
    obtain ⟨r, m'⟩ := p
    cases r <;> rfl

/-- The end of such a run: only a halt drops frames. -/
theorem restoring_cases {depth : Nat} {x : Run σ α} {r : Except Halt α}
    (run : restoring depth x m = some (r, m')) :
    (∃ a, x m = some (.ok a, m') ∧ r = .ok a) ∨ ∃ h m₁, x m = some (.error h, m₁) ∧
      r = .error h ∧ m' = { m₁ with frames := m₁.frames.shrink depth } := by
  rcases tryCatch_cases run with ended | ⟨h, m₁, halted, run⟩
  · exact .inl ended
  · cases run
    exact .inr ⟨h, m₁, halted, rfl, rfl⟩

theorem shrink_size {γ : Type} (xs : Array γ) : xs.shrink xs.size = xs := by simp

theorem shrink_append {γ : Type} (xs ys : Array γ) : (xs ++ ys).shrink xs.size = xs := by simp

namespace Neutral

variable {P : Code → Prop} {x : Run σ α}

theorem map (g : α → β) (neutral : Neutral P x) : Neutral P (g <$> x) := by
  rw [map_eq_pure_bind]
  exact neutral.bind fun a => pure (g a)

end Neutral

/-! ## Calls from outside -/

/-- A call in a frame of its own, and its steps. -/
theorem invoked_kept (neutral : Enter.Neutral D.code enter) {bound addr : Nat} {entry : Frame}
    {r : Except Halt Unit} (own : m.Tame D.code) (free : entry.labels = [])
    (top : m.frames = outer.push entry)
    (run : (do call enter addr; execute enter bound (outer.size + 1)) m = some (r, m')) :
    Kept D outer r m'.frames ∧ m'.Tame D.code ∧
    (r = .ok () → m'.frames.size ≤ outer.size + 1) := by
  have called {r : Except Halt Unit} {m₁ : Machine σ} (ran : call enter addr m = some (r, m₁)) :
      Kept D outer r m₁.frames ∧ m₁.Tame D.code := by
    obtain ⟨outcome, own₁⟩ := call_called neutral own top ran
    exact ⟨outcome.kept fun inside => absurd free inside, own₁⟩
  rcases bind_cases run with ⟨h, ran, rfl⟩ | ⟨_, m₁, ran, run⟩
  · obtain ⟨kept, own₁⟩ := called ran
    exact ⟨kept, own₁, fun ok => (nomatch ok)⟩
  · obtain ⟨kept, own₁⟩ := called ran
    generalize after : m₁.frames = fs at kept
    cases kept with
    | tower tower =>
      have above (m : Machine σ) (base : Frame) (frames : m.frames = outer.push base)
          (more : decide (outer.size + 1 < m.frames.size) = true) : base.labels ≠ [] := by
        have larger := of_decide_eq_true more
        rw [frames, Array.size_push] at larger
        omega
      obtain ⟨kept, own', ends⟩ := stepWhile_kept neutral above own₁ (after ▸ tower) run
      refine ⟨kept, own', fun ok => ?_⟩
      have stopped := of_decide_eq_false (ends ok)
      omega

/-- A call from outside pops the entry frame that it has pushed, or a halt drops all frames above
the depth of the call. -/
theorem Neutral.invoke (neutral : Enter.Neutral D.code enter) (bound addr : Nat)
    (args : Array Value) : Neutral D.code (Run.invoke enter bound addr args) := by
  refine (Neutral.getFunc addr).bind fun func => ?_
  dsimp only
  split
  · exact trap _
  · intro m r m' own run
    rw [get_bind, bind_apply, pushFrame, modify_apply] at run
    dsimp only at run
    rw [bind_apply, restoring_apply] at run
    generalize entered : Frame.entry _ args = entry at run
    have free : entry.labels = [] := by
      rw [← entered]
      rfl
    have own₁ : Machine.Tame D.code { m with frames := m.frames.push entry } :=
      own.of_same rfl rfl
    cases ran : (do call enter addr; execute enter bound (m.frames.size + 1) : Run σ Unit)
        { m with frames := m.frames.push entry } with
    | none =>
      rw [ran] at run
      cases run
    | some p =>
      obtain ⟨result, m₁⟩ := p
      obtain ⟨kept, own₂, few⟩ := invoked_kept neutral own₁ free rfl ran
      rw [ran] at run
      generalize after : m₁.frames = fs at kept
      cases kept with
      | failed h rest =>
        cases run
        refine ⟨?_, own₂.of_same rfl rfl⟩
        rw [after, shrink_append]
      | tower tower =>
        obtain ⟨base, above, frames, _, _⟩ := tower
        have size := few rfl
        rw [after, frames, Array.size_append, Array.size_push] at size
        have empty : above = #[] := Array.eq_empty_of_size_eq_zero (by omega)
        rw [empty, Array.append_empty] at frames
        dsimp only at run
        rw [bind_apply, popFrame?, after, frames] at run
        simp only [Array.back?_push, Array.pop_push] at run
        cases run
        exact ⟨rfl, own₂.of_same rfl rfl⟩

/-- Whether the frame at a position is inside of something. -/
def openAt (depth : Nat) (m : Machine σ) : Bool := (m.frames[depth]?.map (·.hasLabel)).getD false

/-- A constant expression, with its loop named by the depth of its frame. -/
theorem constant_eq (enter : Enter σ) (bound inst : Nat) (code : Code) :
    constant enter bound inst code = (do
      let depth := (← get).frames.size
      pushFrame (.new none code inst #[] 1 none ⟨0, code.size, 0⟩)
      restoring depth (stepWhile enter (openAt depth) bound)
      truncate (depth + 1)
      match ← popFrame? with
      | none => trap .constantGone
      | some frame =>
        match frame.stack.toList with
        | [v] => return v
        | _ => trap .constantResultCount) := rfl

/-- The machine on which the code of a constant expression starts. -/
def starting (m : Machine σ) (inst : Nat) (code : Code) : Machine σ :=
  { m with frames := m.frames.push (.new none code inst #[] 1 none ⟨0, code.size, 0⟩) }

/-- A constant expression that has a result: its code halts, or the frame that is left where the
code has started is taken off, and holds the value if there is one. -/
theorem constant_cases {bound inst : Nat} {code : Code} {r : Except Halt Value}
    (run : constant enter bound inst code m = some (r, m')) :
    (∃ h m₁, stepWhile enter (openAt m.frames.size) bound (starting m inst code)
        = some (.error h, m₁) ∧
      r = .error h ∧ m' = { m₁ with frames := m₁.frames.shrink m.frames.size }) ∨
    ∃ m₁, stepWhile enter (openAt m.frames.size) bound (starting m inst code) =
      some (.ok (), m₁) ∧
      ∀ ⦃left base⦄, m₁.frames.shrink (m.frames.size + 1) = left.push base →
        m' = { m₁ with frames := left } ∧ ∀ v, r = .ok v → base.stack.toList = [v] := by
  rw [constant_eq, get_bind, pushFrame, modify_bind] at run
  rcases bind_cases run with ⟨h, restored, rfl⟩ | ⟨_, m₁, restored, run⟩
  · rcases restoring_cases restored with ⟨_, -, ok⟩ | ⟨h', m₁, looped, same, rfl⟩
    · cases ok
    · cases same
      exact .inl ⟨h, m₁, looped, rfl, rfl⟩
  · rcases restoring_cases restored with ⟨_, looped, -⟩ | ⟨h', m₂, -, failed, -⟩
    · refine .inr ⟨m₁, looped, fun left base cut => ?_⟩
      rw [truncate, modify_bind, bind_apply, popFrame?, cut] at run
      simp only [Array.back?_push, Array.pop_push] at run
      generalize base.stack.toList = values at run ⊢
      rcases values with _ | ⟨v, _ | ⟨w, more⟩⟩
      all_goals
        cases run
        refine ⟨rfl, fun v ok => ?_⟩
        cases ok
      rfl
    · cases failed

/-- While the loop of a constant expression goes on, its frame is inside of something. -/
theorem labels_of_openAt {base : Frame} (frames : m.frames = outer.push base)
    (inside : openAt outer.size m = true) : base.labels ≠ [] := by
  rw [openAt, frames, Array.getElem?_push_size] at inside
  intro none
  simp [Frame.hasLabel, none] at inside

/-- A constant expression takes its frame off, and with it whatever its code has left above. -/
theorem Neutral.constant (neutral : Enter.Neutral D.code enter) (bound inst : Nat) {code : Code}
    (good : D.code code) : Neutral D.code (Run.constant enter bound inst code) := by
  intro m r m' own run
  have own₁ : Machine.Tame D.code (starting m inst code) := own.of_same rfl rfl
  have tower : D.Tower m.frames (starting m inst code).frames :=
    ⟨_, #[], rfl, D.callees_empty _, fun _ => ⟨rfl, D.constant good inst⟩⟩
  have steps {r : Except Halt Unit} {m₁ : Machine σ}
      (ran : stepWhile enter (openAt m.frames.size) bound
        (starting m inst code) = some (r, m₁)) :=
    stepWhile_kept neutral (fun m base => labels_of_openAt) own₁ tower ran
  rcases constant_cases run with ⟨h, m₁, ran, -, rfl⟩ | ⟨m₁, ran, popped⟩
  · obtain ⟨kept, own₂, -⟩ := steps ran
    generalize m₁.frames = fs at kept
    cases kept with
    | failed h rest => exact ⟨shrink_append _ _, own₂.of_same rfl rfl⟩
  · obtain ⟨kept, own₂, -⟩ := steps ran
    generalize after : m₁.frames = fs at kept
    cases kept with
    | tower tower =>
      obtain ⟨base, above, frames, -⟩ := tower
      have size : m.frames.size + 1 = (m.frames.push base).size := (Array.size_push _).symm
      have cut : m₁.frames.shrink (m.frames.size + 1) = m.frames.push base := by
        rw [after, frames, size, shrink_append]
      obtain ⟨rfl, -⟩ := popped cut
      exact ⟨rfl, own₂.of_same rfl rfl⟩

/-! ## Entries -/

/-- A long jump that is caught finds the frames as they were at the trampoline, and also the
operands of the innermost one. -/
theorem Neutral.trampoline (neutral : Enter.Neutral D.code enter) (bound addr : Nat)
    (args : Array Value) : Neutral D.code (Run.trampoline enter bound addr args) := by
  intro m r m' own run
  rw [Run.trampoline, get_bind, get_bind, tryCatch_apply] at run
  cases ran : (Trampolined.returned <$> Run.invoke enter bound addr args : Run σ _) m with
  | none =>
    rw [ran] at run
    cases run
  | some p =>
    obtain ⟨result, m₁⟩ := p
    obtain ⟨frames, own₁⟩ := (Neutral.invoke neutral bound addr args).map _ own ran
    rw [ran] at run
    cases result with
    | ok values =>
      cases run
      exact ⟨frames, own₁⟩
    | error h =>
      cases h with
      | longjmp =>
        dsimp only at run
        rw [bind_apply, truncate, modify_apply, frames, shrink_size] at run
        cases back : m.frames.back? with
        | none =>
          rw [back] at run
          cases run
          exact ⟨rfl, own₁.of_same rfl rfl⟩
        | some f =>
          obtain ⟨outer, same⟩ := Array.back?_eq_some_iff.mp back
          rw [same, Array.back?_push] at run
          dsimp only [Option.map_some] at run
          rw [modify_bind, Array.size_push, Nat.add_sub_cancel, modify_push_size,
            shrink_size] at run
          cases run
          exact ⟨same.symm, own₁.of_same rfl rfl⟩
      | trap t =>
        cases run
        exact ⟨frames, own₁⟩
      | exit code =>
        cases run
        exact ⟨frames, own₁⟩

/-- An outcome or a halt, a call of an export leaves the frames as its call does. -/
theorem Neutral.callExport (neutral : Enter.Neutral D.code enter) (bound inst : Nat)
    (name : String) (args : Array Value) :
    Neutral D.code (Run.callExport enter bound inst name args) := by
  refine Neutral.get fun m₀ => ?_
  split
  · next addr _ =>
    intro m r m' own run
    have kept := (Neutral.invoke neutral bound addr args).map Outcome.returned
    rcases tryCatch_cases run with ⟨values, ran, -⟩ | ⟨h, m₁, ran, run⟩
    · exact kept own ran
    · obtain ⟨frames, own₁⟩ := kept own ran
      cases h <;> (cases run; exact ⟨frames, own₁⟩)
  · exact trap _

/-! ## Instantiation -/

section Instantiation

variable (neutral : Enter.Neutral D.code enter) (bound inst : Nat)
include neutral

theorem Neutral.initGlobals (addr : Nat) {codes : List Code} (good : ∀ c ∈ codes, D.code c) :
    Neutral D.code (Run.initGlobals enter bound inst addr codes) := by
  induction codes generalizing addr with
  | nil => exact pure _
  | cons code codes ih =>
    obtain ⟨head, rest⟩ := List.forall_mem_cons.mp good
    refine (Neutral.constant neutral bound inst head).bind fun v => ?_
    exact (op (.setGlobal addr v)).bind fun _ => ih (addr + 1) rest

theorem Neutral.constants {codes : List Code} (good : ∀ c ∈ codes, D.code c) :
    Neutral D.code (Run.constants enter bound inst codes) := by
  induction codes with
  | nil => exact pure _
  | cons code codes ih =>
    obtain ⟨head, rest⟩ := List.forall_mem_cons.mp good
    refine (Neutral.constant neutral bound inst head).bind fun v => ?_
    exact (ih rest).bind fun vs => pure _

omit neutral in
theorem Neutral.instanceAt {P : Code → Prop} :
    Neutral P (Run.instanceAt inst : Run σ Instance) := by
  refine Neutral.get fun m => ?_
  split
  · exact pure _
  · exact trap _

theorem Neutral.elemValues {items : ElemItems}
    (good : ∀ exprs, items = .exprs exprs → ∀ c ∈ exprs, D.code c) :
    Neutral D.code (Run.elemValues enter bound inst items) := by
  cases items with
  | funcs idxs => exact (Neutral.instanceAt inst).bind fun i => ofExcept _
  | exprs exprs => exact Neutral.constants neutral bound inst (good exprs rfl)

theorem Neutral.offset {code : Code} (good : D.code code) :
    Neutral D.code (Run.offset enter bound inst code) :=
  (Neutral.constant neutral bound inst good).bind fun _ => pure _

/-- A segment runs its items and its offset; the rest is done by operations of the store. -/
theorem Neutral.initElem (addr : Nat) {e : ElemSegment} (good : e.AllCode D.code) :
    Neutral D.code (Run.initElem enter bound inst addr e) := by
  refine (Neutral.elemValues neutral bound inst good.2).bind fun values => ?_
  cases mode : e.mode with
  | passive => exact store fun s => rfl
  | declarative => exact op (.dropElem addr)
  | active table code =>
    refine (Neutral.offset neutral bound inst (good.1 table code mode)).bind fun pos => ?_
    refine (Neutral.instanceAt inst).bind fun i => (ofExcept _).bind fun tableAddr => ?_
    exact (op (.onTable tableAddr (.write pos values))).bind fun _ => op (.dropElem addr)

theorem Neutral.initElems (addr : Nat) {es : List ElemSegment}
    (good : ∀ e ∈ es, e.AllCode D.code) :
    Neutral D.code (Run.initElems enter bound inst addr es) := by
  induction es generalizing addr with
  | nil => exact pure _
  | cons e es ih =>
    obtain ⟨head, rest⟩ := List.forall_mem_cons.mp good
    exact (Neutral.initElem neutral bound inst addr head).bind fun _ => ih (addr + 1) rest

theorem Neutral.initData (addr : Nat) {d : DataSegment} (good : d.AllCode D.code) :
    Neutral D.code (Run.initData enter bound inst addr d) := by
  unfold Run.initData
  cases mode : d.mode with
  | passive => exact pure _
  | active mem code =>
    refine (Neutral.offset neutral bound inst (good mem code mode)).bind fun pos => ?_
    refine (Neutral.instanceAt inst).bind fun i => (ofExcept _).bind fun memAddr => ?_
    exact (op (.onMemory memAddr (.write pos d.bytes))).bind fun _ => op (.dropData addr)

theorem Neutral.initDatas (addr : Nat) {ds : List DataSegment}
    (good : ∀ d ∈ ds, d.AllCode D.code) :
    Neutral D.code (Run.initDatas enter bound inst addr ds) := by
  induction ds generalizing addr with
  | nil => exact pure _
  | cons d ds ih =>
    obtain ⟨head, rest⟩ := List.forall_mem_cons.mp good
    exact (Neutral.initData neutral bound inst addr head).bind fun _ => ih (addr + 1) rest

/-- A start function is called from outside. -/
theorem Neutral.start (idx? : Option FuncIdx) :
    Neutral D.code (Run.start enter bound inst idx?) := by
  cases idx? with
  | none => exact pure _
  | some idx =>
    refine (Neutral.instanceAt inst).bind fun i => (ofExcept _).bind fun addr => ?_
    exact (Neutral.invoke neutral bound addr #[]).bind fun _ => pure _

end Instantiation

/-- What a module defines is allocated as tame functions, if its code has the property. -/
theorem tame_allocate {P : Code → Prop} {module : Module} (good : module.AllCode P)
    (own : m.Tame P) (inst : Nat) (name : String) :
    Machine.Tame P { m with store := m.store.allocate module inst name } := by
  refine ⟨fun f mem => ?_, own.hosts⟩
  rcases Store.mem_funcs_allocate mem with before | ⟨g, defined, rfl⟩
  · exact own.funcs f before
  · obtain ⟨d, listed, made⟩ := List.mem_filterMap.mp defined
    obtain ⟨body, has, rfl⟩ := Option.map_eq_some_iff.mp made
    exact good.funcs d listed body has

/-! ### Stages -/

/-- What an instantiation does before it runs any code. It gives the number of the instance and
the addresses of its first global, element segment and data segment. -/
def allocate (name : String) (module : Module) (e : Externs) : Run σ (Nat × Nat × Nat × Nat) := do
  ofExcept ((← get).checkImports module e)
  let inst := (← get).instances.size
  let allocated := Instance.allocated (← get).store module inst name e
  let firstGlobal := (← get).store.globals.size
  let firstElem := (← get).store.elems.size
  let firstData := (← get).store.datas.size
  modify fun m => { m with store := m.store.allocate module inst name }
  let exporting ← ofExcept (allocated.addExports module.exports)
  modify fun m => { m with instances := m.instances.push exporting }
  return (inst, firstGlobal, firstElem, firstData)

section Stages

variable (enter : Enter σ) (bound : Nat) (name : String) (module : Module) (e : Externs)

/-- An instantiation up to its globals. -/
def withGlobals : Run σ (Nat × Nat × Nat) := do
  let (inst, firstGlobal, firstElem, firstData) ← allocate name module e
  initGlobals enter bound inst firstGlobal module.globalInits
  return (inst, firstElem, firstData)

/-- An instantiation up to its element segments. -/
def withElems : Run σ (Nat × Nat) := do
  let (inst, firstElem, firstData) ← withGlobals enter bound name module e
  initElems enter bound inst firstElem module.elems
  return (inst, firstData)

/-- An instantiation up to its data segments. -/
def withDatas : Run σ Nat := do
  let (inst, firstData) ← withElems enter bound name module e
  initDatas enter bound inst firstData module.datas
  return inst

/-- An instantiation in its stages, each of which is what the one before it has come to, and
more. -/
theorem instantiate_eq : instantiate enter bound name module e = (do
    let inst ← withDatas enter bound name module e
    start enter bound inst module.start
    publish inst name
    return inst) := by
  simp only [instantiate, withDatas, withElems, withGlobals, allocate, bind_assoc, pure_bind]

end Stages

/-- Allocating adds functions, and they are tame if the module's code is. -/
theorem Neutral.allocate {P : Code → Prop} (name : String) {module : Module}
    (good : module.AllCode P) (e : Externs) :
    Neutral P (Run.allocate name module e : Run σ (Nat × Nat × Nat × Nat)) := by
  refine Neutral.get fun m₀ => (ofExcept _).bind fun _ => ?_
  iterate 5 refine Neutral.get fun _ => ?_
  refine Neutral.bind (Neutral.modify fun m own => ?_) fun _ => (ofExcept _).bind fun _ => ?_
  · exact ⟨rfl, tame_allocate good own _ name⟩
  · exact Neutral.bind (Neutral.modify fun m own => ⟨rfl, own.of_same rfl rfl⟩) fun _ => pure _

section Stages

variable (neutral : Enter.Neutral D.code enter) (bound : Nat) (name : String) {module : Module}
  (good : module.AllCode D.code) (e : Externs)
include neutral good

theorem Neutral.withGlobals : Neutral D.code (Run.withGlobals enter bound name module e) :=
  (Neutral.allocate name good e).bind fun _ =>
    (Neutral.initGlobals neutral bound _ _ good.globalInits).bind fun _ => pure _

theorem Neutral.withElems : Neutral D.code (Run.withElems enter bound name module e) :=
  (Neutral.withGlobals neutral bound name good e).bind fun _ =>
    (Neutral.initElems neutral bound _ _ good.elems).bind fun _ => pure _

theorem Neutral.withDatas : Neutral D.code (Run.withDatas enter bound name module e) :=
  (Neutral.withElems neutral bound name good e).bind fun _ =>
    (Neutral.initDatas neutral bound _ _ good.datas).bind fun _ => pure _

/-- An instantiation is neutral in all its stages. -/
theorem Neutral.instantiate : Neutral D.code (Run.instantiate enter bound name module e) := by
  rw [instantiate_eq]
  refine (Neutral.withDatas neutral bound name good e).bind fun inst => ?_
  refine (Neutral.start neutral bound inst module.start).bind fun _ => ?_
  exact Neutral.bind (Neutral.modify fun m own => ⟨rfl, own.of_same rfl rfl⟩) fun _ => pure _

end Stages

end Run

/-- An entry of a machine whose functions are tame leaves the frames as they were. -/
theorem Machine.enter_neutral (D : Discipline) (bound : Nat) :
    Enter.Neutral D.code (Machine.enter bound : Enter σ) := by
  induction bound with
  | zero =>
    intro op _ m r m' _ run
    cases run
  | succ bound ih =>
    intro op tame
    cases op with
    | invoke addr args => exact Run.Neutral.invoke ih bound addr args
    | trampoline addr args => exact Run.Neutral.trampoline ih bound addr args
    | callExport inst name args => exact Run.Neutral.callExport ih bound inst name args
    | instantiate name module externs => exact Run.Neutral.instantiate ih bound name tame externs
    | step => cases tame
    | execute depth => cases tame

end WasmMachine
