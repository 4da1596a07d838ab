import WasmMachine.Proofs.Exporting

/-!
# Imported globals

The addresses that are given for imported globals are taken as they are: only their number is
checked. As long as each of them denotes a global that the store has, the globals of an instance
are what one expects (`Instance.GlobalsApart`): all of them are there, the imported ones are older
than the instance, and its own are others.  So reading and writing them cannot fail, and a write
to an own global is not seen through an import (`Machine.globals_sound`).

An address that the store does not have yet may come to denote a global of the instance itself,
since these are appended right after the check (`Machine.globals_aliased`).
-/

namespace WasmMachine

variable {σ : Type}

/-! ## Reading and writing globals -/

namespace Instr

variable (inst : Instance) (a : Activation σ) (idx : GlobalIdx)

theorem exec_globalGet : (Instr.globalGet idx).exec inst a = match inst.globals[idx.toNat]? with
    | none => .error (.index .global idx.toNat) a
    | some addr => match a.store.globals[addr]? with
      | none => .error (.address .global addr) a
      | some v => .ok .next ⟨{ a.frame with stack := a.frame.stack.push v }, a.store⟩ := by
  change (do
    let addr ← Instance.addrOf .global inst.globals idx.val
    FrameM.push (← Act.onStore (StoreM.getGlobal addr))
    return .next : Act σ Flow) a = _
  cases at_ : inst.globals[idx.toNat]? with
  | none =>
    rw [Idx.toNat] at at_
    simp [Instance.addrOf, Act.ofExcept, at_, Idx.toNat]
  | some addr =>
    rw [Idx.toNat] at at_
    cases stored : a.store.globals[addr]? <;>
      simp [Instance.addrOf, Act.ofExcept, Act.onStore, Act.onFrame, FrameM.push,
        StoreM.getGlobal, StoreM.gets, at_, stored]

theorem exec_globalSet : (Instr.globalSet idx).exec inst a = match inst.globals[idx.toNat]? with
    | none => .error (.index .global idx.toNat) a
    | some addr => match a.frame.stack.back? with
      | none => .error .stackUnderflow a
      | some v =>
        let f := { a.frame with stack := a.frame.stack.pop }
        if addr < a.store.globals.size then
          .ok .next ⟨f, { a.store with globals := a.store.globals.setIfInBounds addr v }⟩
        else .error (.address .global addr) ⟨f, a.store⟩ := by
  change (do
    let addr ← Instance.addrOf .global inst.globals idx.val
    let v ← FrameM.pop
    Act.onStore (StoreM.setGlobal addr v)
    return .next : Act σ Flow) a = _
  cases at_ : inst.globals[idx.toNat]? with
  | none =>
    rw [Idx.toNat] at at_
    simp [Instance.addrOf, Act.ofExcept, at_, Idx.toNat]
  | some addr =>
    rw [Idx.toNat] at at_
    cases top : a.frame.stack.back? with
    | none => simp [Instance.addrOf, Act.ofExcept, Act.onFrame, FrameM.pop_eq, at_, top]
    | some v =>
      by_cases there : addr < a.store.globals.size <;>
        simp [Instance.addrOf, Act.ofExcept, Act.onFrame, Act.onStore, FrameM.pop_eq,
          StoreM.setGlobal, at_, top, there]

end Instr

/-! ## The globals of an instance -/

/-- The globals of an instance, the first of them imported from `given` addresses, where the store
was `before` when the instance was made and is `s` now: each of them is there, an imported one was
there before, and no imported one is one of its own. -/
structure Instance.GlobalsApart (i : Instance) (s before : Store σ)
    (given : Array Nat) : Prop where
  there : ∀ k a : Nat, i.globals[k]? = some a → a < s.globals.size
  imported : ∀ k a : Nat, given[k]? = some a → i.globals[k]? = some a ∧ a < before.globals.size
  apart : ∀ j k a : Nat, j < given.size → given.size ≤ k → i.globals[j]? = some a →
    i.globals[k]? ≠ some a

namespace Instance

/-- If all given addresses denote something, the globals of an instance are as they should be as
soon as its own have been appended. -/
theorem allocated_globalsApart (s : Store σ) (module : Module) (number : Nat) (name : String)
    {e : Externs} (real : ∀ a ∈ e.globals, a < s.globals.size) :
    (allocated s module number name e).GlobalsApart
      (s.allocate module number name) s e.globals := by
  have space : Space (allocated s module number name e).globals e.globals s.globals.size
      (e.globals.size + module.globalInits.length) :=
    .append (by rw [Array.size_append, size_freshAddrs])
  have size : (s.allocate module number name).globals.size
      = s.globals.size + module.globalInits.length := by
    simp [Store.allocate, Array.append_list]
  have old {k a : Nat} (given : e.globals[k]? = some a) : a < s.globals.size :=
    real a (Array.mem_of_getElem? given)
  have own {k a : Nat} (after : e.globals.size ≤ k)
      (at_ : (allocated s module number name e).globals[k]? = some a) :
      a = s.globals.size + (k - e.globals.size) := by
    rw [← Nat.add_sub_cancel' after] at at_
    exact space.own _ a at_
  have import_ {k a : Nat} (lt : k < e.globals.size)
      (at_ : (allocated s module number name e).globals[k]? = some a) : a < s.globals.size := by
    have given := Array.getElem?_eq_getElem lt
    cases at_.symm.trans (space.imports k _ given)
    exact old given
  constructor
  case there =>
    intro k a at_
    rcases Nat.lt_or_ge k e.globals.size with lt | ge
    · have := import_ lt at_
      omega
    · have := own ge at_
      have := (Array.getElem?_eq_some_iff.mp at_).1
      have := space.size
      omega
  case imported => exact fun k a given => ⟨space.imports k a given, old given⟩
  case apart =>
    intro j k a lt ge at_ same
    have := import_ lt at_
    have := own ge same
    omega

/-- The globals of an instance stay apart whatever becomes of the machine. -/
theorem GlobalsApart.kept {i i' : Instance} {s s' before : Store σ} {given : Array Nat}
    (apart : i.GlobalsApart s before given) (same : i'.globals = i.globals)
    (more : s.globals.size ≤ s'.globals.size) : i'.GlobalsApart s' before given where
  there k a at_ := Nat.lt_of_lt_of_le (apart.there k a (same ▸ at_)) more
  imported k a at_ := same ▸ apart.imported k a at_
  apart := same ▸ apart.apart

end Instance

namespace Machine

section Dispatch

variable {m : Machine σ} {i : Instance} {outer : Array Frame} {f : Frame} {idx : GlobalIdx}

/-- A global that is there is read. -/
theorem dispatch_globalGet (top : m.frames = outer.push f)
    (listed : m.instances[f.inst]? = some i)
    {a : Nat} {v : Value} (at_ : i.globals[idx.toNat]? = some a)
    (stored : m.store.globals[a]? = some v) :
    Run.dispatch (.globalGet idx) m = some (.ok .next, m.within outer
      ⟨{ f with stack := f.stack.push v, pc := f.pc + 1 }, m.store⟩) := by
  rw [Run.dispatch_eq _ top, listed]
  simp only [Instr.exec_globalGet, at_, stored]

/-- A global that is there is written. -/
theorem dispatch_globalSet (top : m.frames = outer.push f)
    (listed : m.instances[f.inst]? = some i)
    {a : Nat} {v : Value} {rest : Array Value} (at_ : i.globals[idx.toNat]? = some a)
    (there : a < m.store.globals.size) (operand : f.stack = rest.push v) :
    Run.dispatch (.globalSet idx) m = some (.ok .next, m.within outer
      ⟨{ f with stack := rest, pc := f.pc + 1 },
        { m.store with globals := m.store.globals.setIfInBounds a v }⟩) := by
  rw [Run.dispatch_eq _ top, listed]
  simp only [Instr.exec_globalSet, at_, operand, Array.back?_push, Array.pop_push, there, if_true]

end Dispatch

variable {m m' : Machine σ} {module : Module} {e : Externs} {name : String} {bound number : Nat}

/-- An instantiation that succeeds and that was given addresses of globals for its imports:
whatever becomes of the machine, all globals of the instance are there, the imported ones were
there before it and are none of its own. In its frames every global can be read, and written if
there is an operand, and writing one of its own leaves the imported ones as they are. -/
theorem globals_sound
    (run : Machine.enter bound (.instantiate name module e) m = some (.ok number, m'))
    (real : ∀ a ∈ e.globals, a < m.store.globals.size) :
    e.globals.size = module.importedGlobals.length ∧
    ∀ m'', m'.Later m'' → ∃ i, m''.instances[number]? = some i ∧
      i.globals.size = module.importedGlobals.length + module.globalInits.length ∧
      i.GlobalsApart m''.store m.store e.globals ∧
      ∀ (idx : GlobalIdx) (outer : Array Frame) (f : Frame), idx.toNat < i.globals.size →
        m''.frames = outer.push f → f.inst = number → ∃ a, i.globals[idx.toNat]? = some a ∧
          (∃ v, m''.store.globals[a]? = some v ∧
            Run.dispatch (.globalGet idx) m'' = some (.ok .next, m''.within outer
              ⟨{ f with stack := f.stack.push v, pc := f.pc + 1 }, m''.store⟩)) ∧
          ∀ v rest, f.stack = rest.push v →
            let globals := m''.store.globals.setIfInBounds a v
            Run.dispatch (.globalSet idx) m'' = some (.ok .next, m''.within outer
              ⟨{ f with stack := rest, pc := f.pc + 1 }, { m''.store with globals }⟩) ∧
            (e.globals.size ≤ idx.toNat →
              ∀ b ∈ e.globals, globals[b]? = m''.store.globals[b]?) := by
  obtain ⟨made, exports, -, kept⟩ := instantiated run
  obtain ⟨i, instantiates⟩ := instantiates_of_enter run
  have counted : e.globals.size = module.importedGlobals.length :=
    (checkImports_counts instantiates.checked).2.2.2
  have spaces : made.globals =
      (Instance.allocated m.store module m.instances.size name e).globals := by
    rw [Instance.addExports_eq exports]
  refine ⟨counted, fun m'' later => ⟨{ made with ready := true }, kept m'' later, ?_, ?_⟩⟩
  · rw [← counted]
    simp only [spaces, Instance.allocated, Array.size_append, size_freshAddrs]
  have apart : Instance.GlobalsApart { made with ready := true } m''.store m.store e.globals := by
    have grown : (m.store.allocate module m.instances.size name).globals.size
        ≤ m''.store.globals.size := (instantiates.later.trans later).stable.store.globals
    exact (Instance.allocated_globalsApart m.store module m.instances.size name real).kept
      spaces grown
  refine ⟨apart, fun idx outer f lt top here => ?_⟩
  subst here
  obtain ⟨a, at_⟩ : ∃ a, made.globals[idx.toNat]? = some a := ⟨_, Array.getElem?_eq_getElem lt⟩
  have there := apart.there _ a at_
  have stored := Array.getElem?_eq_getElem there
  refine ⟨a, at_, ⟨_, stored, dispatch_globalGet top (kept m'' later) at_ stored⟩,
    fun v rest operand =>
    ⟨dispatch_globalSet top (kept m'' later) at_ there operand, fun own b given => ?_⟩⟩
  -- the address of an own global is not the one that an import has been given
  have other : a ≠ b := by
    rintro rfl
    obtain ⟨k, lt', at_k⟩ := Array.mem_iff_getElem.mp given
    have import_ := (apart.imported k a (Array.getElem?_eq_some_iff.mpr ⟨lt', at_k⟩)).1
    exact apart.apart k idx.toNat a lt' own import_ at_
  exact Array.getElem?_setIfInBounds_ne other

/-- A module that imports a global and starts one of its own from it. -/
theorem globals_sound_of_copy :
    let sections : Sections := {
      imports := [⟨"p", "g", .global ⟨.i32, .var⟩⟩]
      globals := [⟨⟨.i32, .var⟩, #[.globalGet ⟨0⟩, .endOf]⟩] }
    let m := { Machine.new {} () with store.globals := #[.ofU32 5] }
    let e : Externs := { globals := #[0] }
    ∃ module, sections.build = .ok module ∧ (∀ a ∈ e.globals, a < m.store.globals.size) ∧
      ∃ number m' i, Machine.enter 9 (.instantiate "a" module e) m = some (.ok number, m') ∧
        m'.instances[number]? = some i ∧ i.globals.size = 2 ∧
        i.GlobalsApart m'.store m.store e.globals := by
  intro sections m e
  refine ⟨_, rfl, ?_⟩
  generalize built : Module.mk _ _ _ _ _ _ _ _ _ _ _ _ = module
  have real : ∀ a ∈ e.globals, a < m.store.globals.size := by decide
  have ended : (Machine.enter 9 (.instantiate "a" module e) m).map (fun p => p.1.toBool)
      = some true := by
    subst built
    decide +kernel
  obtain ⟨⟨r, m'⟩, run, success⟩ := Option.map_eq_some_iff.mp ended
  cases r with
  | error h => cases success
  | ok number =>
    obtain ⟨-, sound⟩ := globals_sound run real
    obtain ⟨i, listed, size, apart, -⟩ := sound m' (.refl m')
    exact ⟨real, number, m', i, run, listed, by rw [size, ← built]; rfl, apart⟩

/-- The store has no global yet, and the address that is given for the imported one becomes that
of the instance's own: the two share it, and a write to the own one changes the import. -/
theorem globals_aliased :
    let sections : Sections := {
      imports := [⟨"p", "g", .global ⟨.i32, .var⟩⟩]
      globals := [⟨⟨.i32, .var⟩, #[.i32Const 3, .endOf]⟩] }
    let m := Machine.new {} ()
    let e : Externs := { globals := #[0] }
    ∃ module, sections.build = .ok module ∧ m.store.globals.size = 0 ∧
      ∃ number m' i, Machine.enter 9 (.instantiate "a" module e) m = some (.ok number, m') ∧
        m'.instances[number]? = some i ∧ i.globals = #[0, 0] ∧ m'.store.globals = #[.ofU32 3] ∧
        ∀ (f : Frame) (outer : Array Frame), f.inst = number → f.stack = #[.ofU32 7] →
          let m'' := { m' with frames := outer.push f }
          Run.dispatch (.globalSet ⟨1⟩) m'' = some (.ok .next, m''.within outer
            ⟨{ f with stack := #[], pc := f.pc + 1 },
              { m''.store with globals := #[.ofU32 7] }⟩) := by
  intro sections m e
  refine ⟨_, rfl, rfl, ?_⟩
  generalize built : Module.mk _ _ _ _ _ _ _ _ _ _ _ _ = module
  have ended : ((Machine.enter 9 (.instantiate "a" module e) m).bind fun p =>
      p.1.toOption.bind fun n => p.2.instances[n]?.map fun i => (i.globals, p.2.store.globals))
        = some (#[0, 0], #[.ofU32 3]) := by
    subst built
    decide +kernel
  obtain ⟨⟨r, m'⟩, run, ended⟩ := Option.bind_eq_some_iff.mp ended
  obtain ⟨number, success, ended⟩ := Option.bind_eq_some_iff.mp ended
  obtain ⟨i, listed, spaces⟩ := Option.map_eq_some_iff.mp ended
  obtain ⟨globals, stored⟩ := Prod.mk.inj spaces
  cases (Except.of_toOption success : r = _)
  refine ⟨number, m', i, run, listed, globals, stored, ?_⟩
  rintro f outer rfl operand m''
  have at_ : i.globals[(⟨1⟩ : GlobalIdx).toNat]? = some 0 := globals ▸ rfl
  have there : 0 < m'.store.globals.size := stored ▸ Nat.one_pos
  have written : m'.store.globals.setIfInBounds 0 (.ofU32 7) = #[.ofU32 7] := stored ▸ rfl
  have pushed : f.stack = (#[] : Array Value).push (.ofU32 7) := operand
  have set := dispatch_globalSet (m := m'') rfl listed at_ there pushed
  exact set.trans (by rw [written])

end Machine

end WasmMachine
