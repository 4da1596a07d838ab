import WasmMachine.Proofs.Families
import WasmMachine.Proofs.Programs

/-!
# Frames that stand on others

A call from outside puts a frame on those that are there, a base whose results go nowhere.  What
runs on it may add frames and take them off, but none of it reaches below the base: a step takes
the innermost frame off only if its results go somewhere, and they go to the base or above
(`Grounded`).  That holds of every step, also of one that a host function asks for itself.  So
what a call from outside cuts off or pops is what it has put there, and every entry but single
steps and loops of them leaves the frames as they were (`Machine.enter_level`), whatever the
host functions do.
-/

namespace WasmMachine

variable {σ α β : Type} {outer frames rest : Array Frame} {f g : Frame} {enter : Enter σ}

/-- Frames that begin with some given ones, untouched, and go on with a base whose results go
nowhere. The results of no frame above it go below it. -/
structure Grounded (outer frames : Array Frame) : Prop where
  below : ∀ i < outer.size, frames[i]? = outer[i]?
  base : ∃ f, frames[outer.size]? = some f ∧ f.prev = none
  linked : ∀ i ≥ outer.size, ∀ f p, frames[i]? = some f → f.prev = some p → outer.size ≤ p

namespace Grounded

theorem size_lt (grounded : Grounded outer frames) : outer.size < frames.size := by
  obtain ⟨f, found, _⟩ := grounded.base
  exact (Array.getElem?_eq_some_iff.mp found).1

/-- A new base. -/
theorem new (outer : Array Frame) (free : f.prev = none) : Grounded outer (outer.push f) where
  below i lt := Array.getElem?_push_lt lt ▸ (Array.getElem?_eq_getElem lt).symm
  base := ⟨f, Array.getElem?_push_size, free⟩
  linked i le g p found link := by
    obtain ⟨lt, rfl⟩ := Array.getElem?_eq_some_iff.mp found
    have last : i = outer.size := by
      rw [Array.size_push] at lt
      omega
    subst last
    rw [Array.getElem_push_eq, free] at link
    cases link

theorem push (grounded : Grounded outer frames)
    (link : ∀ p, f.prev = some p → outer.size ≤ p) : Grounded outer (frames.push f) := by
  have lt := grounded.size_lt
  refine ⟨fun i below => ?_, ?_, fun i le g p found link' => ?_⟩
  · rw [Array.getElem?_push, if_neg (by omega), grounded.below i below]
  · rw [Array.getElem?_push, if_neg (by omega)]
    exact grounded.base
  · rw [Array.getElem?_push] at found
    split at found
    · cases found
      exact link p link'
    · exact grounded.linked i le g p found link'

theorem modify (grounded : Grounded outer frames) {idx : Nat} (le : outer.size ≤ idx)
    {change : Frame → Frame} (same : ∀ f, (change f).prev = f.prev) :
    Grounded outer (frames.modify idx change) := by
  refine ⟨fun i below => ?_, ?_, fun i le g p found link => ?_⟩
  · rw [Array.getElem?_modify, if_neg (by omega), grounded.below i below]
  · obtain ⟨f, found, free⟩ := grounded.base
    rw [Array.getElem?_modify, found]
    split
    · exact ⟨change f, rfl, (same f).trans free⟩
    · exact ⟨f, rfl, free⟩
  · rw [Array.getElem?_modify] at found
    split at found
    · obtain ⟨f, found', rfl⟩ := Option.map_eq_some_iff.mp found
      exact grounded.linked i le f p found' (same f ▸ link)
    · exact grounded.linked i le g p found link

/-- There is an innermost frame, at the base or above it. -/
theorem exists_push (grounded : Grounded outer frames) :
    ∃ (rest : Array Frame) (f : Frame), frames = rest.push f ∧ outer.size ≤ rest.size := by
  have lt := grounded.size_lt
  have nonempty : frames ≠ #[] := by
    rintro rfl
    exact absurd lt (Nat.not_lt_zero _)
  obtain ⟨rest, f, rfl⟩ := Array.exists_push_of_ne_empty nonempty
  rw [Array.size_push] at lt
  exact ⟨rest, f, rfl, Nat.le_of_lt_succ lt⟩

/-- The innermost frame, changed. -/
theorem replace (grounded : Grounded outer (rest.push f)) (le : outer.size ≤ rest.size)
    (same : g.prev = f.prev) : Grounded outer (rest.push g) := by
  refine ⟨fun i below => ?_, ?_, fun i le' h p found link => ?_⟩
  · rw [← grounded.below i below, Array.getElem?_push, Array.getElem?_push, if_neg (by omega),
      if_neg (by omega)]
  · obtain ⟨h, found, free⟩ := grounded.base
    rw [Array.getElem?_push] at found ⊢
    split at found
    · next last =>
      cases found
      exact ⟨g, by rw [if_pos last], same.trans free⟩
    · next inner => exact ⟨h, by rw [if_neg inner, found], free⟩
  · rw [Array.getElem?_push] at found
    split at found
    · next last =>
      cases found
      refine grounded.linked i le' f p ?_ (same ▸ link)
      rw [last, Array.getElem?_push_size]
    · next inner =>
      refine grounded.linked i le' h p ?_ link
      rw [Array.getElem?_push, if_neg inner, found]

/-- The innermost frame can be taken off if its results go somewhere. -/
theorem pop (grounded : Grounded outer (rest.push f)) (le : outer.size ≤ rest.size) {caller : Nat}
    (linked : f.prev = some caller) : Grounded outer rest ∧ outer.size ≤ caller := by
  have inner (i : Nat) (ne : i ≠ rest.size) : (rest.push f)[i]? = rest[i]? := by
    rw [Array.getElem?_push, if_neg ne]
  refine ⟨⟨fun i below => ?_, ?_, fun i le' h p found link => ?_⟩, ?_⟩
  · rw [← grounded.below i below, inner i (by omega)]
  · obtain ⟨h, found, free⟩ := grounded.base
    have ne : outer.size ≠ rest.size := by
      intro last
      rw [last, Array.getElem?_push_size] at found
      cases found
      rw [free] at linked
      cases linked
    exact ⟨h, by rw [← inner _ ne, found], free⟩
  · have lt := (Array.getElem?_eq_some_iff.mp found).1
    refine grounded.linked i le' h p ?_ link
    rw [inner i (by omega), found]
  · exact grounded.linked rest.size le f caller Array.getElem?_push_size linked

/-- Cut off from the base on, the frames are the given ones. -/
theorem shrink (grounded : Grounded outer frames) : frames.shrink outer.size = outer := by
  have lt := grounded.size_lt
  apply Array.ext_getElem?
  intro i
  rw [Array.shrink_eq_take, Array.take_eq_extract, Array.getElem?_extract]
  rcases Nat.lt_or_ge i outer.size with below | beyond
  · rw [if_pos (by omega), Nat.zero_add, grounded.below i below]
  · rw [if_neg (by omega), Array.getElem?_eq_none beyond]

/-- Cut off above the base, only the base is left on the given frames. -/
theorem cut (grounded : Grounded outer frames) :
    ∃ base, frames.shrink (outer.size + 1) = outer.push base := by
  obtain ⟨base, found, _⟩ := grounded.base
  refine ⟨base, Array.ext_getElem? fun i => ?_⟩
  have lt := grounded.size_lt
  rw [Array.shrink_eq_take, Array.take_eq_extract, Array.getElem?_extract, Array.getElem?_push]
  rcases Nat.lt_trichotomy i outer.size with below | rfl | beyond
  · rw [if_pos (by omega), if_neg (by omega), Nat.zero_add, grounded.below i below]
  · rw [if_pos (by omega), if_pos rfl, Nat.zero_add, found]
  · rw [if_neg (by omega), if_neg (by omega), Array.getElem?_eq_none (by omega)]

/-- The base, if there is nothing above it. -/
theorem eq_push (grounded : Grounded outer frames) (few : frames.size ≤ outer.size + 1) :
    ∃ base, frames = outer.push base := by
  obtain ⟨base, cut⟩ := grounded.cut
  have size : frames.size = outer.size + 1 := Nat.le_antisymm few grounded.size_lt
  rw [← size, Run.shrink_size] at cut
  exact ⟨base, cut⟩

end Grounded

/-! ## Catching halts -/

/-- What a trampoline makes of the end of its call: a long jump is an outcome. -/
def Trampolined.ofCall : Except Halt (Array Value) → Except Halt Trampolined
  | .ok values => .ok (.returned values)
  | .error .longjmp => .ok .unwound
  | .error h => .error h

/-- What a call of an export makes of the end of its call: an exit is an outcome, and a long
jump is a trap. -/
def Outcome.ofCall : Except Halt (Array Value) → Except Halt Outcome
  | .ok values => .ok (.returned values)
  | .error (.exit code) => .ok (.exited code)
  | .error .longjmp => .error (.trap .escapedLongjmp)
  | .error h => .error h

namespace Run

/-! ## Runs that stay above a base -/

/-- Frames that stand on some others do so when the run has ended, however it ends. -/
def Grounds (outer : Array Frame) (x : Run σ α) : Prop :=
  ∀ ⦃m r m'⦄, Grounded outer m.frames → x m = some (r, m') → Grounded outer m'.frames

/-- However it ends, a run leaves the frames as they were. -/
def Level (α : Type) (x : Run σ α) : Prop := ∀ ⦃m r m'⦄, x m = some (r, m') → m'.frames = m.frames

theorem Level.grounds {x : Run σ α} (level : Level α x) : Grounds outer x := by
  intro m r m' grounded run
  rw [level run]
  exact grounded

namespace Grounds

theorem bind {x : Run σ α} {k : α → Run σ β} (first : Grounds outer x)
    (next : ∀ a, Grounds outer (k a)) : Grounds outer (x >>= k) := by
  intro m r m' grounded run
  rcases bind_cases run with ⟨h, head, -⟩ | ⟨a, m₁, head, run⟩
  · exact first grounded head
  · exact next a (first grounded head) run

theorem pushOperands {idx : Nat} (le : outer.size ≤ idx) (vs : Array Value) :
    Grounds outer (Run.pushOperands idx vs : Run σ Unit) := by
  intro m r m' grounded run
  rw [Run.pushOperands, get_bind] at run
  split at run
  · cases run
    dsimp only
    refine grounded.modify le ?_
    exact fun _ => rfl
  · cases run
    exact grounded

theorem finish : Grounds outer (Run.finish : Run σ Unit) := by
  intro m r m' grounded run
  obtain ⟨rest, f, top, le⟩ := grounded.exists_push
  cases finishes top run with
  | stays => exact grounded
  | fails _ linked => exact ((top ▸ grounded).pop le linked).1
  | returns linked =>
    obtain ⟨below, reach⟩ := (top ▸ grounded).pop le linked
    dsimp only
    refine below.modify reach ?_
    exact fun _ => rfl

theorem instruction : Grounds outer (Run.instruction : Run σ Flow) := by
  intro m r m' grounded run
  obtain ⟨rest, f, top, le⟩ := grounded.exists_push
  cases instructs top run with
  | unpaid => exact grounded
  | ended paid _ | homeless paid _ =>
    rw [Machine.paying_eq paid]
    exact grounded
  | @traps paid i inst t b _ _ _ ran | @runs paid i inst t b _ _ _ ran =>
    have same := (i.exec_same inst ⟨{ f with pc := f.pc + 1 }, paid.store⟩).prev
    rw [ran] at same
    exact (top ▸ grounded).replace le same

section Host

variable (entries : ∀ op, Grounds outer (enter op))
include entries

theorem host (p : HostProg σ) : Grounds outer (Run.host enter p) := by
  induction p using HostProg.induct with
  | done frame => exact fun m r m' grounded run => by cases run; exact grounded
  | halt reason => exact fun m r m' grounded run => by cases run; exact grounded
  | access op next ih =>
    intro m r m' grounded run
    have grounded₁ : Grounded outer (op.perform m).2.frames := by
      rw [(op.perform_quiet (P := fun _ => True) m).1]
      exact grounded
    exact ih (op.perform m).1 grounded₁ run
  | enter op next ih =>
    intro m r m' grounded run
    obtain ⟨reply, m₁, entered, run⟩ := host_enter_cases run
    exact ih reply (entries op grounded entered) run
  | register f next _ ih => exact fun m r m' grounded run => @ih (m.register f) r m' grounded run
  | getState next ih => exact fun m r m' grounded run => ih m.world grounded run
  | setState s next ih =>
    exact fun m r m' grounded run => @ih { m with world := s } r m' grounded run

theorem call (addr : Nat) : Grounds outer (Run.call enter addr) := by
  intro m r m' grounded run
  obtain ⟨rest, f, top, le⟩ := grounded.exists_push
  have caller (count : Nat) : Grounded outer (rest.push (f.without count)) :=
    (top ▸ grounded).replace le rfl
  cases calls top run with
  | refused => exact grounded
  | guest =>
    refine (caller _).push fun p link => ?_
    cases link
    exact le
  | host _ _ _ run =>
    refine (Grounds.host entries _).bind (fun frame => ?_) (caller _) run
    unfold handBack
    split
    · exact Level.grounds fun m r m' run => by cases run; rfl
    · exact pushOperands le _

theorem step : Grounds outer (Run.step enter) := by
  rw [step_eq_instruction]
  refine instruction.bind fun flow => ?_
  cases flow with
  | next => exact finish
  | call addr => exact (call entries addr).bind fun _ => finish

theorem stepWhile (more : Machine σ → Bool) (bound : Nat) :
    Grounds outer (Run.stepWhile enter more bound) := by
  induction bound with
  | zero =>
    intro m r m' _ run
    cases run
  | succ bound ih =>
    intro m r m' grounded run
    rw [stepWhile_succ] at run
    split at run
    · exact ((step entries).bind fun _ => ih) grounded run
    · cases run
      exact grounded

end Host

end Grounds

/-! ## Entries -/

/-- A loop that has ended by itself has ended because its condition no longer held. -/
theorem stepWhile_stops {more : Machine σ → Bool} {bound : Nat} {m m' : Machine σ}
    (run : stepWhile enter more bound m = some (.ok (), m')) : more m' = false := by
  induction bound generalizing m with
  | zero => cases run
  | succ bound ih =>
    rw [stepWhile_succ] at run
    split at run
    · rcases bind_cases run with ⟨h, -, halted⟩ | ⟨_, m₁, -, run⟩
      · cases halted
      · exact ih run
    · next ended =>
      cases run
      exact Bool.eq_false_iff.mpr ended

/-- The instance that the entry frame of a call from outside is given. -/
def entryInst (m : Machine σ) (func : StoreFunc σ) : Nat :=
  (func.inst? <|> m.frames.back?.map (·.inst)).getD 0

/-- A call from outside as the call in a frame of its own and what is done about its end. -/
theorem invoke_eq (enter : Enter σ) (bound addr : Nat) (args : Array Value) (m : Machine σ) :
    invoke enter bound addr args m = match m.store.funcs[addr]? with
      | none => some (.error (.trap (.address .func addr)), m)
      | some func =>
        if args.size ≠ func.type.params.length then
          some (.error (.trap (.argumentCount func.type.params.length args.size)), m)
        else match (do call enter addr; execute enter bound (m.frames.size + 1))
            { m with frames := m.frames.push (.entry (entryInst m func) args) } with
          | none => none
          | some (.error h, m₁) => some (.error h, { m₁ with
              frames := m₁.frames.shrink m.frames.size })
          | some (.ok _, m₁) => match m₁.frames.back? with
            | none => some (.error (.trap .entryGone), { m₁ with frames := m₁.frames.pop })
            | some entry => some (.ok entry.stack, { m₁ with frames := m₁.frames.pop }) := by
  rw [invoke, bind_apply, getFunc_eq]
  cases m.store.funcs[addr]? with
  | none => rfl
  | some func =>
    dsimp only
    split
    · rfl
    · rw [get_bind, bind_apply, pushFrame, modify_apply]
      dsimp only
      rw [bind_apply, restoring_apply]
      unfold entryInst
      generalize (do call enter addr; execute enter bound (m.frames.size + 1) : Run σ Unit) _ =
        ran
      cases ran with
      | none => rfl
      | some p =>
        obtain ⟨r, m₁⟩ := p
        cases r with
        | error h => rfl
        | ok u =>
          dsimp only
          rw [bind_apply, popFrame?]
          dsimp only
          cases m₁.frames.back? <;> rfl

theorem map_apply (g : α → β) (x : Run σ α) (m : Machine σ) : (g <$> x) m = match x m with
    | none => none
    | some (.ok a, m) => some (.ok (g a), m)
    | some (.error h, m) => some (.error h, m) := by
  rw [map_eq_pure_bind, bind_apply]
  cases x m with
  | none => rfl
  | some p =>
    obtain ⟨r, m'⟩ := p
    cases r <;> rfl

/-- A call of an export ends as its call does, but for what it makes of that. -/
theorem callExport_eq (enter : Enter σ) (bound inst : Nat) (name : String) (args : Array Value)
    (m : Machine σ) : callExport enter bound inst name args m =
      match m.exported? inst name with
      | some (.func addr) =>
        (invoke enter bound addr args m).map fun (r, m') => (Outcome.ofCall r, m')
      | _ => some (.error (.trap (.noExport name)), m) := by
  rw [callExport, get_bind]
  cases m.exported? inst name with
  | none => rfl
  | some v =>
    cases v with
    | func addr =>
      dsimp only
      rw [tryCatch_apply, map_apply]
      cases invoke enter bound addr args m with
      | none => rfl
      | some p =>
        obtain ⟨r, m'⟩ := p
        cases r with
        | ok values => rfl
        | error h => cases h <;> rfl
    | table addr | mem addr | global addr => rfl

namespace Level

theorem pure (a : α) : Level α (Pure.pure a : Run σ α) := by
  intro m r m' run
  cases run
  rfl

theorem throw (h : Halt) : Level α (MonadExcept.throw h : Run σ α) := by
  intro m r m' run
  cases run
  rfl

theorem bind {x : Run σ α} {k : α → Run σ β} (first : Level α x) (next : ∀ a, Level β (k a)) :
    Level β (x >>= k) := by
  intro m r m' run
  rcases bind_cases run with ⟨h, head, -⟩ | ⟨a, m₁, head, run⟩
  · exact first head
  · exact (next a run).trans (first head)

theorem get {k : Machine σ → Run σ α} (next : ∀ m, Level α (k m)) :
    Level α (MonadState.get >>= k) := fun m _ _ run => next m run

theorem store (x : StoreM σ α) : Level α (Run.store x) := by
  intro m r m' run
  rw [store_eq] at run
  split at run <;> cases run <;> rfl

/-- A change of the machine that leaves the frames alone. -/
theorem modify {g : Machine σ → Machine σ} (same : ∀ m, (g m).frames = m.frames) :
    Level Unit (MonadState.modifyGet fun m => ((), g m)) := by
  intro m r m' run
  cases run
  exact same m

/-- Runs that leave the frames alone make up such runs. -/
theorem closed : Closed fun α (x : Unit → Run σ α) => Level α (x ()) where
  pure := pure
  throw := throw
  bind := bind
  look _ := get
  op _ := store _

theorem allocate (name : String) (module : Module) (e : Externs) :
    Level _ (Run.allocate name module e : Run σ (Nat × Nat × Nat × Nat)) := by
  have ofExcept {α : Type} (r : Except Trap α) : Level α (Run.ofExcept r : Run σ α) :=
    closed.ofExcept r
  refine get fun m₀ => (ofExcept _).bind fun _ => ?_
  iterate 5 refine get fun _ => ?_
  refine Level.bind (modify fun _ => rfl) fun _ => (ofExcept _).bind fun _ => ?_
  exact Level.bind (modify fun _ => rfl) fun _ => pure _

section Entries

variable (entries : ∀ outer op, Grounds outer (enter op))
include entries

theorem invoke (bound addr : Nat) (args : Array Value) :
    Level _ (Run.invoke enter bound addr args) := by
  intro m r m' run
  rw [invoke_eq] at run
  split at run
  · cases run
    rfl
  · next func _ =>
    split at run
    · cases run
      rfl
    · generalize entered : Frame.entry _ args = base at run
      have grounded : Grounded m.frames (m.frames.push base) := .new _ (by rw [← entered]; rfl)
      have grounds : Grounds m.frames
          (do call enter addr; execute enter bound (m.frames.size + 1)) :=
        (Grounds.call (entries m.frames) addr).bind fun _ => .stepWhile (entries m.frames) _ _
      split at run
      · cases run
      · next h m₁ ran =>
        cases run
        exact (grounds grounded ran).shrink
      · next m₁ ran =>
        have few : m₁.frames.size ≤ m.frames.size + 1 := by
          rcases bind_cases ran with ⟨h, -, halted⟩ | ⟨_, m₂, -, ran⟩
          · cases halted
          · exact Nat.le_of_not_lt (of_decide_eq_false (stepWhile_stops ran))
        obtain ⟨base', top⟩ := (grounds grounded ran).eq_push few
        rw [top, Array.back?_push, Array.pop_push] at run
        cases run
        rfl

theorem constant (bound inst : Nat) (code : Code) :
    Level _ (Run.constant enter bound inst code) := by
  intro m r m' run
  have grounded : Grounded m.frames (starting m inst code).frames := .new _ rfl
  rcases constant_cases run with ⟨h, m₁, ran, -, rfl⟩ | ⟨m₁, ran, popped⟩
  · exact (Grounds.stepWhile (entries m.frames) _ _ grounded ran).shrink
  · obtain ⟨base, cut⟩ := (Grounds.stepWhile (entries m.frames) _ _ grounded ran).cut
    obtain ⟨rfl, -⟩ := popped cut
    rfl

/-- A call through a trampoline ends as its call does, but for what it makes of that. There is
nothing left to cut off when a jump is caught. -/
theorem trampoline_eq (bound addr : Nat) (args : Array Value) (m : Machine σ) :
    Run.trampoline enter bound addr args m =
      (Run.invoke enter bound addr args m).map fun (r, m') => (Trampolined.ofCall r, m') := by
  rw [Run.trampoline, get_bind, get_bind, tryCatch_apply, map_apply]
  have level := Level.invoke entries bound addr args
  cases ran : Run.invoke enter bound addr args m with
  | none => rfl
  | some p =>
    obtain ⟨result, m₁⟩ := p
    have frames : m₁.frames = m.frames := level ran
    cases result with
    | ok values => rfl
    | error h =>
      cases h with
      | trap t | exit code => rfl
      | longjmp =>
        have cut : { m₁ with frames := m.frames } = m₁ := by rw [← frames]
        dsimp only
        rw [bind_apply, truncate, modify_apply, frames, shrink_size, cut]
        cases back : m.frames.back? with
        | none => rfl
        | some f =>
          obtain ⟨outer, same⟩ := Array.back?_eq_some_iff.mp back
          have whole : outer.push f = m₁.frames := by rw [frames, same]
          dsimp only [Option.map_some]
          rw [modify_bind, ← whole, Array.size_push, Nat.add_sub_cancel, modify_push_size,
            shrink_size, whole]
          rfl

theorem trampoline (bound addr : Nat) (args : Array Value) :
    Level _ (Run.trampoline enter bound addr args) := by
  intro m r m' run
  rw [trampoline_eq entries] at run
  obtain ⟨p, ran, same⟩ := Option.map_eq_some_iff.mp run
  cases same
  exact Level.invoke entries bound addr args ran

theorem callExport (bound inst : Nat) (name : String) (args : Array Value) :
    Level _ (Run.callExport enter bound inst name args) := by
  intro m r m' run
  rw [callExport_eq] at run
  split at run
  · obtain ⟨p, ran, same⟩ := Option.map_eq_some_iff.mp run
    cases same
    exact Level.invoke entries bound _ args ran
  · cases run
    rfl

theorem instantiate (bound : Nat) (name : String) (module : Module) (e : Externs) :
    Level _ (Run.instantiate enter bound name module e) :=
  closed.instantiate (fun _ => enter) (fun _ => bound) (Level.constant entries bound)
    (Level.invoke entries bound) (fun _ => modify fun _ => rfl) (allocate name module e)
    fun _ _ => store _

end Entries

end Level

end Run

/-- A machine on which a function is about to be called from outside. -/
def Machine.entering (m : Machine σ) (func : StoreFunc σ) (args : Array Value) : Machine σ :=
  { m with frames := m.frames.push (.entry (Run.entryInst m func) args) }

/-- Every entry but single steps and loops of them leaves the frames as they were, however it
ends; and the frames that stand on some others do so after every entry. -/
theorem Machine.enter_level (bound : Nat) (op : Entry) :
    (∀ outer, Run.Grounds outer (Machine.enter bound op : Run σ op.Reply)) ∧
      (op.Tame (fun _ => True) → Run.Level _ (Machine.enter bound op : Run σ op.Reply)) := by
  induction bound generalizing op with
  | zero =>
    refine ⟨fun outer m r m' _ run => ?_, fun _ m r m' run => ?_⟩ <;> cases run
  | succ bound ih =>
    have entries (outer : Array Frame) (op : Entry) := (ih op).1 outer
    have both {x : Run σ op.Reply} (level : Run.Level _ x) :
        (∀ outer, Run.Grounds outer x) ∧ (op.Tame (fun _ => True) → Run.Level _ x) :=
      ⟨fun outer => level.grounds, fun _ => level⟩
    cases op with
    | invoke addr args => exact both (.invoke entries bound addr args)
    | trampoline addr args => exact both (.trampoline entries bound addr args)
    | callExport inst name args => exact both (.callExport entries bound inst name args)
    | instantiate name module e => exact both (.instantiate entries bound name module e)
    | step => exact ⟨fun outer => .step (entries outer), fun tame => by cases tame⟩
    | execute depth =>
      exact ⟨fun outer => .stepWhile (entries outer) _ _, fun tame => by cases tame⟩

theorem Machine.enter_grounds (bound : Nat) (outer : Array Frame) (op : Entry) :
    Run.Grounds outer (Machine.enter bound op : Run σ op.Reply) :=
  (Machine.enter_level bound op).1 outer

/-- A call through a trampoline, in view of the call within the same bound. -/
theorem Machine.enter_trampoline (bound addr : Nat) (args : Array Value) (m : Machine σ) :
    Machine.enter bound (.trampoline addr args) m =
      (Machine.enter bound (.invoke addr args) m).map fun (r, m') =>
        (Trampolined.ofCall r, m') := by
  cases bound with
  | zero => rfl
  | succ bound =>
    exact Run.Level.trampoline_eq (Machine.enter_grounds bound) _ _ _ m

end WasmMachine
