import WasmMachine.Proofs.Placeless

/-!
# Footings

The same frames can stand on different ones below, of which there may be one more. Whatever runs
in them and above them, calls from outside and instantiations included, goes the same way on both
machines, if the call depth of the one is one more as well and the host functions are placeless:
it ends at the same time with the same result, and leaves two machines that differ in no more than
before (`Machine.enter_alike`).

Two machines of that kind are related by a `Footing`: the frames that are never touched, and the
ones on top of them, of which only the operands may change.
-/

namespace WasmMachine

variable {σ α β γ δ : Type}

/-! ## Frames on a footing -/

/-- A frame that stands one position higher, and its caller with it. -/
def Frame.raised (f : Frame) : Frame := { f with prev := f.prev.map (· + 1) }

/-- What the same frames stand on in two machines: a frame `base` on others, or a frame `base'` in
the same instance on as many and one more. -/
structure Footing where
  low : Array Frame
  high : Array Frame
  base : Frame
  base' : Frame
  size : high.size = low.size + 1
  inst : base'.inst = base.inst

/-- The frames of two machines that stand on a footing. A frame that has a caller has the one
below it. -/
inductive Footing.Frames (ft : Footing) : Array Frame → Array Frame → Prop
  | base (stack : Array Value) :
    Frames ft (ft.low.push { ft.base with stack }) (ft.high.push { ft.base' with stack })
  | push {fs fs' : Array Frame} {f : Frame} : Frames ft fs fs' →
    (∀ p, f.prev = some p → p + 1 = fs.size) → Frames ft (fs.push f) (fs'.push f.raised)

theorem Array.shrink_push {xs : Array α} {x : α} {n : Nat} (le : n ≤ xs.size) :
    (xs.push x).shrink n = xs.shrink n := by
  apply Array.ext'
  simp [le]

theorem Array.shrink_of_le {xs : Array α} {n : Nat} (le : xs.size ≤ n) : xs.shrink n = xs := by
  apply Array.ext'
  simp [List.take_of_length_le, le]

theorem Array.modify_push {xs : Array α} {x : α} {idx : Nat} (lt : idx < xs.size) (g : α → α) :
    (xs.push x).modify idx g = (xs.modify idx g).push x := by
  apply Array.ext_getElem?
  intro k
  rw [Array.getElem?_modify, Array.getElem?_push, Array.getElem?_push, Array.getElem?_modify,
    Array.size_modify]
  by_cases last : k = xs.size
  · simp [last, Nat.ne_of_lt lt]
  · simp [last]

namespace Footing.Frames

variable {ft : Footing} {fs fs' : Array Frame} (frames : ft.Frames fs fs')
include frames

theorem sizes : fs'.size = fs.size + 1 ∧ ft.low.size < fs.size := by
  induction frames with
  | base stack =>
    rw [Array.size_push, Array.size_push, ft.size]
    omega
  | push _ _ ih =>
    rw [Array.size_push, Array.size_push]
    omega

/-- The innermost frames run in the same instance and have the same operands; others can take the
place of these. -/
theorem top : ∃ (outer : Array Frame) (f : Frame) (outer' : Array Frame) (f' : Frame),
    fs = outer.push f ∧ fs' = outer'.push f' ∧ outer'.size = outer.size + 1 ∧ f'.inst = f.inst ∧
    f'.stack = f.stack ∧
    ∀ stack, ft.Frames (outer.push { f with stack }) (outer'.push { f' with stack }) := by
  cases frames with
  | base stack => exact ⟨_, _, _, _, rfl, rfl, ft.size, ft.inst, rfl, fun stack => .base stack⟩
  | push below linked =>
    exact ⟨_, _, _, _, rfl, rfl, below.sizes.1, rfl, rfl, fun stack => below.push linked⟩

/-- The innermost frame above the footing. -/
theorem above (more : ft.low.size + 1 < fs.size) : ∃ (outer : Array Frame) (f : Frame)
    (outer' : Array Frame), fs = outer.push f ∧ fs' = outer'.push f.raised ∧
    ft.Frames outer outer' ∧
    ∀ p, f.prev = some p → p + 1 = outer.size := by
  cases frames with
  | base stack =>
    rw [Array.size_push] at more
    omega
  | push below linked => exact ⟨_, _, _, rfl, rfl, below, linked⟩

/-- Nothing stands on the base but the operands that it has got. -/
theorem of_size (least : fs.size = ft.low.size + 1) : ∃ stack,
    fs = ft.low.push { ft.base with stack } ∧ fs' = ft.high.push { ft.base' with stack } := by
  cases frames with
  | base stack => exact ⟨stack, rfl, rfl⟩
  | push below _ =>
    have := below.sizes.2
    rw [Array.size_push] at least
    omega

theorem getElem?_low : ∃ stack, fs[ft.low.size]? = some { ft.base with stack } := by
  induction frames with
  | base stack => exact ⟨stack, Array.getElem?_push_size⟩
  | push below _ ih =>
    obtain ⟨stack, there⟩ := ih
    have deep := below.sizes.2
    exact ⟨stack, by rw [Array.getElem?_push, if_neg (by omega), there]⟩

theorem shrink {depth : Nat} (deep : ft.low.size < depth) :
    ft.Frames (fs.shrink depth) (fs'.shrink (depth + 1)) := by
  induction frames with
  | base stack =>
    have size := ft.size
    rw [Array.shrink_of_le (by rw [Array.size_push]; omega),
      Array.shrink_of_le (by rw [Array.size_push]; omega)]
    exact .base stack
  | @push fs fs' f below linked ih =>
    have sizes := below.sizes
    rcases Nat.lt_or_ge fs.size depth with all | cut
    · rw [Array.shrink_of_le (by rw [Array.size_push]; omega),
        Array.shrink_of_le (by rw [Array.size_push]; omega)]
      exact below.push linked
    · rw [Array.shrink_push cut, Array.shrink_push (by omega)]
      exact ih

/-- The operands of a frame that is not below the footing may change. -/
theorem modify {idx : Nat} (deep : ft.low.size ≤ idx) (there : idx < fs.size)
    (g : Array Value → Array Value) :
    ft.Frames (fs.modify idx fun f => { f with stack := g f.stack })
      (fs'.modify (idx + 1) fun f => { f with stack := g f.stack }) := by
  induction frames with
  | base stack =>
    rw [Array.size_push] at there
    obtain rfl : idx = ft.low.size := by omega
    rw [Run.modify_push_size, ← ft.size, Run.modify_push_size]
    exact .base (g stack)
  | @push fs fs' f below linked ih =>
    have size := below.sizes.1
    rw [Array.size_push] at there
    rcases Nat.eq_or_lt_of_le (Nat.le_of_lt_succ there) with rfl | inner
    · rw [Run.modify_push_size, ← size, Run.modify_push_size]
      exact below.push linked
    · rw [Array.modify_push inner, Array.modify_push (by omega)]
      refine (ih inner).push fun p prev => ?_
      rw [Array.size_modify]
      exact linked p prev

theorem getElem?_of_lt {idx : Nat} (deep : ft.low.size < idx) :
    fs'[idx + 1]? = fs[idx]?.map Frame.raised := by
  induction frames with
  | base stack =>
    have size := ft.size
    rw [Array.getElem?_eq_none (by rw [Array.size_push]; omega),
      Array.getElem?_eq_none (by rw [Array.size_push]; omega)]
    rfl
  | @push fs fs' f below linked ih =>
    have sizes := below.sizes.1
    rw [Array.getElem?_push, Array.getElem?_push]
    by_cases last : idx = fs.size
    · rw [if_pos last, if_pos (by omega)]
      rfl
    · rw [if_neg last, if_neg (by omega)]
      exact ih

end Footing.Frames

/-! ## Machines on a footing -/

/-- Settings that allow one more frame. -/
def Config.deeper (c : Config) : Config := { c with maxCallDepth := c.maxCallDepth + 1 }

/-- Two machines that differ in no more than their frames, which stand on a footing, and in the
call depth that they allow. Their host functions are placeless. -/
inductive Footing.Rel (ft : Footing) (m : Machine σ) : Machine σ → Prop
  | mk {fs' : Array Frame} : ft.Frames m.frames fs' → m.Placeless →
    Rel ft m (m.elsewhere fs' m.config.deeper)

/-- How two runs on a footing end: both are out of bound, or both end with values of a relation,
or with the same halt, and leave machines on the footing. -/
inductive Footing.Agree (ft : Footing) (S : α → β → Prop) :
    Option (Except Halt α × Machine σ) → Option (Except Halt β × Machine σ) → Prop
  | out : Agree ft S none none
  | ok {a : α} {b : β} {m m' : Machine σ} : S a b → ft.Rel m m' →
    Agree ft S (some (.ok a, m)) (some (.ok b, m'))
  | error (h : Halt) {m m' : Machine σ} : ft.Rel m m' →
    Agree ft S (some (.error h, m)) (some (.error h, m'))

/-- A run that goes the same way on any two machines of a footing. -/
def Footing.Alike (ft : Footing) (x : Run σ α) : Prop :=
  ∀ ⦃m m' : Machine σ⦄, ft.Rel m m' → ft.Agree Eq (x m) (x m')

/-- A way to carry out entries that goes the same way on both sides of a footing, as long as they
leave stepping to the machine. -/
def Enter.Alike (ft : Footing) (enter : Enter σ) : Prop :=
  ∀ ⦃op : Entry⦄, op.Tame (fun _ => True) → ft.Alike (enter op)

variable {ft : Footing} {m m' : Machine σ} {S : α → β → Prop} {T : γ → δ → Prop}

namespace Footing

theorem Rel.placeless (rel : ft.Rel m m') : m.Placeless := by
  cases rel
  assumption

theorem Rel.frames (rel : ft.Rel m m') : ft.Frames m.frames m'.frames := by
  cases rel
  assumption

theorem Agree.bind {x : Run σ α} {x' : Run σ β} {k : α → Run σ γ} {k' : β → Run σ δ}
    (first : ft.Agree S (x m) (x' m')) (rest : ∀ a b n n', x m = some (.ok a, n) → S a b →
      ft.Rel n n' →
      ft.Agree T (k a n) (k' b n')) : ft.Agree T ((x >>= k) m) ((x' >>= k') m') := by
  rw [Run.bind_apply, Run.bind_apply]
  generalize left : x m = o at first ⊢
  generalize x' m' = o' at first ⊢
  cases first with
  | out => exact .out
  | ok same rel => exact rest _ _ _ _ left same rel
  | error h rel => exact .error h rel

theorem Agree.tryCatch {x x' : Run σ α} {k k' : Halt → Run σ α}
    (inner : ft.Agree Eq (x m) (x' m'))
    (caught : ∀ h n n', ft.Rel n n' → ft.Agree Eq (k h n) (k' h n')) :
    ft.Agree Eq (MonadExcept.tryCatch x k m) (MonadExcept.tryCatch x' k' m') := by
  rw [Run.tryCatch_apply, Run.tryCatch_apply]
  generalize x m = o at inner ⊢
  generalize x' m' = o' at inner ⊢
  cases inner with
  | out => exact .out
  | ok same rel => exact .ok same rel
  | error h rel => exact caught h _ _ rel

theorem Agree.restoring {x x' : Run σ α} {depth : Nat} (deep : ft.low.size < depth)
    (inner : ft.Agree Eq (x m) (x' m')) :
    ft.Agree Eq (Run.restoring depth x m) (Run.restoring (depth + 1) x' m') := by
  refine inner.tryCatch fun h n n' rel => ?_
  cases rel with
  | mk frames placeless => exact .error h (.mk (frames.shrink deep) (placeless.of_same rfl rfl))

namespace Alike

theorem pure (a : α) : ft.Alike (Pure.pure a : Run σ α) := fun _ _ rel => .ok rfl rel

theorem throw (h : Halt) : ft.Alike (MonadExcept.throw h : Run σ α) := fun _ _ rel => .error h rel

theorem trap (t : Trap) : ft.Alike (Run.trap t : Run σ α) := throw (.trap t)

theorem bind {x : Run σ α} {k : α → Run σ γ} (first : ft.Alike x) (rest : ∀ a, ft.Alike (k a)) :
    ft.Alike (x >>= k) := by
  intro m m' rel
  refine (first rel).bind fun a b n n' _ same rel => ?_
  cases same
  exact rest a rel

theorem map {x : Run σ α} (g : α → β) (alike : ft.Alike x) : ft.Alike (g <$> x) := by
  rw [map_eq_pure_bind]
  exact alike.bind fun a => pure (g a)

theorem store {x : StoreM σ α} (funcs : ∀ s, (stateAfter (x s)).funcs = s.funcs) :
    ft.Alike (Run.store x) := by
  intro m m' rel
  cases rel with
  | @mk fs' frames placeless =>
    have kept := funcs m.store
    rw [Run.store_eq, Run.store_eq]
    dsimp only [Machine.elsewhere]
    cases result : x m.store with
    | ok a s =>
      rw [result] at kept
      exact .ok rfl (.mk frames (placeless.of_same kept rfl))
    | error t s =>
      rw [result] at kept
      exact .error _ (.mk frames (placeless.of_same kept rfl))

theorem op {x : StoreM σ α} (op : StoreM.Op x) : ft.Alike (Run.store x) := store op.funcs_eq

theorem instanceAt (inst : Nat) : ft.Alike (Run.instanceAt inst : Run σ Instance) := by
  intro m m' rel
  cases rel with
  | mk frames placeless =>
    rw [Run.instanceAt, Run.get_bind, Run.get_bind]
    dsimp only [Machine.elsewhere]
    cases m.instances[inst]? with
    | none => exact .error _ (.mk frames placeless)
    | some i => exact .ok rfl (.mk frames placeless)

/-- A change of the machine that has nothing to do with its frames. -/
theorem modify {g : Machine σ → Machine σ} (aside : ∀ m frames config,
      g (m.elsewhere frames config) = (g m).elsewhere frames config)
    (kept : ∀ m, (g m).frames = m.frames ∧ (g m).config = m.config)
    (placeless : ∀ m, m.Placeless → (g m).Placeless) :
    ft.Alike (MonadState.modifyGet fun m => ((), g m) : Run σ Unit) := by
  intro m m' rel
  cases rel with
  | @mk fs' frames own =>
    change ft.Agree Eq (some (.ok (), g m)) (some (.ok (), g (m.elsewhere fs' m.config.deeper)))
    rw [aside, ← (kept m).2]
    exact .ok rfl (.mk ((kept m).1 ▸ frames) (placeless m own))

end Alike

end Footing

/-! ## Steps -/

theorem Machine.paying_elsewhere (m : Machine σ) (frames : Array Frame) (config : Config)
    (count : Nat) : (m.elsewhere frames config).paying count
      = (m.paying count).map (·.elsewhere frames config) := by
  obtain ⟨store, instances, names, frames', hostFuncs, fuel, config', world⟩ := m
  unfold paying elsewhere
  cases fuel with
  | none => rfl
  | some n =>
    dsimp only
    split <;> rfl

/-- An instruction does the same in a frame that is raised. -/
theorem Instr.exec_raised (inst : Instance) (i : Instr) (f : Frame) (s : Store σ) :
    i.exec inst ⟨f.raised, s⟩
      = mapState (fun b => ⟨b.frame.raised, b.store⟩) (i.exec inst ⟨f, s⟩) := by
  have there : i.exec inst ⟨f.raised, s⟩ = mapState (·.over f.raised id)
      (i.exec inst ⟨f, s⟩) := by
    change i.exec inst ⟨f.raised.over id f, s⟩ = _
    cases branches : i.level? f with
    | none => exact exec_over rfl (fun _ => rfl) (fun l ls _ => ⟨l, rfl⟩) branches
    | some level =>
      have same : i.level? (f.raised.over id f) = some level := (level?_over rfl).trans branches
      rw [exec_of_level? branches, exec_of_level? same]
      change Act.branched level (Activation.over f.raised id ⟨f.without i.operands, s⟩) = _
      exact branched_over rfl rfl
  rw [there]
  have same := i.exec_same inst ⟨f, s⟩
  cases ran : i.exec inst ⟨f, s⟩ with
  | ok flow b =>
    rw [ran] at same
    have kept : f.Same b.frame := same
    simp only [mapState, Activation.over, Frame.over, Frame.raised, id]
    rw [kept]
  | error t b =>
    rw [ran] at same
    have kept : f.Same b.frame := same
    simp only [mapState, Activation.over, Frame.over, Frame.raised, id]
    rw [kept]

/-- A frame stays that has no caller or is inside of something. -/
theorem Run.finish_stays {outer : Array Frame} {f : Frame} (top : m.frames = outer.push f)
    (stays : f.prev = none ∨ f.labels ≠ []) : finish m = some (.ok (), m) := by
  rw [finish_eq top]
  cases prev : f.prev with
  | none => rfl
  | some caller =>
    rcases stays with none | inside
    · rw [prev] at none
      cases none
    · dsimp only
      rw [if_pos inside]

namespace Footing

variable {enter : Enter σ} (entries : Enter.Alike ft enter)
  (neutral : Enter.Neutral Discipline.any.code enter)

/-- A frame that is done hands on its results. -/
theorem finish_above (rel : ft.Rel m m') (more : ft.low.size + 1 < m.frames.size) :
    ft.Agree Eq (Run.finish m) (Run.finish m') := by
  cases rel with
  | mk frames placeless =>
    obtain ⟨outer, f, outer', top, rfl, below, linked⟩ := frames.above more
    have top' : (m.elsewhere (outer'.push f.raised) m.config.deeper).frames = _ := rfl
    have size := below.sizes
    by_cases stays : f.prev = none ∨ f.labels ≠ []
    · have stays' : f.raised.prev = none ∨ f.raised.labels ≠ [] :=
        stays.imp_left fun alone => congrArg (·.map (· + 1)) alone
      rw [Run.finish_stays top stays, Run.finish_stays top' stays']
      exact .ok rfl (.mk frames placeless)
    obtain ⟨alone, inside⟩ := not_or.mp stays
    obtain ⟨caller, prev⟩ := Option.ne_none_iff_exists'.mp alone
    have prev' : f.raised.prev = some (caller + 1) := congrArg (·.map (· + 1)) prev
    have below' := linked caller prev
    rw [Run.finish_eq top, Run.finish_eq top', prev, prev']
    dsimp only
    rw [if_neg inside, if_neg (show ¬ f.raised.labels ≠ [] from inside)]
    have results : f.raised.top? f.raised.arity = f.top? f.arity := rfl
    rw [results]
    cases f.top? f.arity with
    | none => exact .error _ (.mk below (placeless.of_same rfl rfl))
    | some rs =>
      have deep : ft.low.size ≤ caller := by omega
      have there : caller < outer.size := by omega
      dsimp only
      rw [if_pos there, if_pos (by omega)]
      exact .ok rfl (.mk (below.modify deep there (· ++ rs)) (placeless.of_same rfl rfl))

include entries in
/-- Host programs that are alike run alike. -/
theorem host_alike {p q : HostProg σ} (alike : p.Alike q) (rel : ft.Rel m m') :
    ft.Agree (fun f g => f.top? f.arity = g.top? g.arity) (Run.host enter p m)
      (Run.host enter q m') := by
  induction alike generalizing m m' with
  | done same => exact .ok same rel
  | halt reason => exact .error reason rel
  | @access op next next' blind _ ih =>
    cases rel with
    | @mk fs' frames placeless =>
      have kept : (op.perform m).2 = (op.perform m).2.elsewhere m.frames m.config :=
        congrArg Prod.snd (op.perform_elsewhere blind m.frames m.config m)
      have frames' : (op.perform m).2.frames = m.frames := by rw [kept]; rfl
      have config' : (op.perform m).2.config = m.config := by rw [kept]; rfl
      change ft.Agree _ (Run.host enter (next (op.perform m).1) (op.perform m).2)
        (Run.host enter (next' (op.perform (m.elsewhere fs' _)).1)
          (op.perform (m.elsewhere fs' _)).2)
      rw [Access.perform_elsewhere blind, ← config']
      exact ih _ (.mk (frames' ▸ frames) (placeless.alters (op.perform_alters m)))
  | @enter op next next' tame _ ih =>
    rw [Run.host_enter, Run.host_enter]
    have agree := entries tame rel
    generalize enter op m = o at agree ⊢
    generalize enter op m' = o' at agree ⊢
    cases agree with
    | out => exact .out
    | ok same rel =>
      cases same
      exact ih _ rel
    | error h rel => exact ih _ rel
  | @register f next next' own _ _ ih =>
    cases rel with
    | mk frames placeless => exact ih (.mk frames (placeless.register own))
  | @getState next next' _ ih =>
    cases rel with
    | mk frames placeless => exact ih m.world (.mk frames placeless)
  | @setState s next next' _ ih =>
    cases rel with
    | mk frames placeless => exact ih (.mk frames (placeless.of_same rfl rfl))

include entries neutral in
/-- A call goes the same way from any two frames of a footing. -/
theorem call_alike (addr : Nat) : ft.Alike (Run.call enter addr) := by
  intro m m' rel
  have again := rel
  cases rel with
  | @mk fs' frames placeless =>
    obtain ⟨outer, f, outer', f', top, rfl, size, inst, stack, restack⟩ := frames.top
    have top' : (m.elsewhere (outer'.push f') m.config.deeper).frames = outer'.push f' := rfl
    rw [Run.call_eq enter addr top, Run.call_eq enter addr top']
    have limit : (m.elsewhere
        (outer'.push f') m.config.deeper).config.maxCallDepth ≤ outer'.size + 1
        ↔ m.config.maxCallDepth ≤ outer.size + 1 := by
      rw [size]
      exact Nat.add_le_add_iff_right
    have args (count : Nat) : f'.top? count = f.top? count := by
      rw [Frame.top?, Frame.top?, stack]
    have popped (count : Nat) :
        ft.Frames (outer.push (f.without count)) (outer'.push (f'.without count)) := by
      unfold Frame.without
      rw [stack]
      exact restack _
    by_cases deep : m.config.maxCallDepth ≤ outer.size + 1
    · rw [if_pos deep, if_pos (limit.mpr deep)]
      exact .error _ again
    rw [if_neg deep, if_neg (fun le => deep (limit.mp le))]
    dsimp only [Machine.elsewhere]
    cases found : m.store.funcs[addr]? with
    | none => exact .error _ again
    | some func =>
      cases func with
      | module g =>
        dsimp only
        rw [args]
        cases f.top? g.type.params.length with
        | none => exact .error _ again
        | some vs =>
          have started :=
            (popped g.type.params.length).push (f := Run.callee addr g vs outer.size) (by
            rintro p ⟨⟩
            rw [Array.size_push])
          refine .ok rfl (.mk ?_ (placeless.of_same rfl rfl))
          rw [size]
          exact started
      | host g =>
        dsimp only
        rw [args]
        cases f.top? g.numArgs with
        | none => exact .error _ again
        | some vs =>
          have alike := placeless.funcs _ (Array.mem_of_getElem? found)
            (Run.hostFrame addr g f.inst vs outer.size) (some outer'.size)
          dsimp only
          rw [inst]
          have called : ft.Rel { m with frames := outer.push (f.without g.numArgs) }
              (m.elsewhere (outer'.push (f'.without g.numArgs)) m.config.deeper) :=
            .mk (popped g.numArgs) (placeless.of_same rfl rfl)
          refine (host_alike entries alike called).bind fun a b n n' ran same rel => ?_
          have kept := (Run.Neutral.host neutral alike.tame called.placeless.tame ran).1
          cases rel with
          | @mk gs' frames' placeless' =>
            obtain ⟨outer₁, f₁, outer₁', f₁', top₁, rfl, size₁, -, stack₁, restack₁⟩ :=
              frames'.top
            have same₁ : outer₁.push f₁ = outer.push (f.without g.numArgs) := top₁.symm.trans kept
            obtain ⟨rfl, rfl⟩ := Array.push_eq_push.mp same₁
            rw [Run.handBack_eq a top₁]
            have size' : outer'.size = outer₁'.size := by omega
            have top₁' : (n.elsewhere (outer₁'.push f₁') n.config.deeper).frames
              = outer₁'.push f₁' := rfl
            rw [size', Run.handBack_eq b top₁', same]
            cases b.top? b.arity with
            | none => exact .error _ (.mk frames' placeless')
            | some rs =>
              refine .ok rfl (.mk ?_ (placeless'.of_same rfl rfl))
              rw [stack₁]
              exact restack₁ _

include entries neutral in
/-- What follows an instruction in a frame above the footing. -/
theorem resume_above {outer outer' : Array Frame} {f : Frame}
    {r : EStateM.Result Trap (Activation σ) Flow} (placeless : m.Placeless)
    (below : ft.Frames outer outer') (linked : ∀ p, f.prev = some p → p + 1 = outer.size)
    (same : f.Same (stateAfter r).frame) (funcs : (stateAfter r).store.funcs = m.store.funcs)
    (fs' : Array Frame) : ft.Agree Eq (Run.resume enter outer r m)
      (Run.resume enter outer' (mapState (fun b => ⟨b.frame.raised, b.store⟩) r)
        (m.elsewhere fs' m.config.deeper)) := by
  have within : ft.Rel (m.within outer (stateAfter r))
      ((m.elsewhere fs' m.config.deeper).within outer'
        ⟨(stateAfter r).frame.raised, (stateAfter r).store⟩) :=
    .mk (below.push (same.prev ▸ linked)) (placeless.of_same funcs rfl)
  have deep := below.sizes.2
  have more : ft.low.size + 1 < (m.within outer (stateAfter r)).frames.size := by
    rw [Machine.within, Array.size_push]
    omega
  cases r with
  | error t b => exact .error _ within
  | ok flow b =>
    cases flow with
    | next => exact finish_above within more
    | call addr =>
      refine (call_alike entries neutral addr within).bind fun _ _ n n' called _ rel => ?_
      refine finish_above rel ?_
      have outcome := (Run.call_called neutral within.placeless.tame rfl called).1
      generalize n.frames = fs at outcome
      cases outcome <;> (simp only [Array.size_push]; omega)

include entries neutral in
/-- A step above the footing. -/
theorem step_above (rel : ft.Rel m m') (more : ft.low.size + 1 < m.frames.size) :
    ft.Agree Eq (Run.step enter m) (Run.step enter m') := by
  have again := rel
  cases rel with
  | @mk fs' frames placeless =>
    obtain ⟨outer, f, outer', top, rfl, below, linked⟩ := frames.above more
    have top' : (m.elsewhere (outer'.push f.raised) m.config.deeper).frames = _ := rfl
    rw [Run.step_eq enter top, Run.step_eq enter top', Machine.paying_elsewhere]
    cases paid : m.paying 1 with
    | none => exact .error _ again
    | some m₁ =>
      have eq := Machine.paying_eq paid
      generalize m₁.fuel = fuel at eq
      subst eq
      have own : Machine.Placeless { m with fuel } := placeless.of_same rfl rfl
      have stuck (h : Halt) : ft.Agree Eq
          (some (.error h, { m with fuel }) : Option (Except Halt Unit × Machine σ))
          (some (.error h, Machine.elsewhere { m with fuel }
            (outer'.push f.raised) m.config.deeper)) :=
        .error h (.mk frames own)
      dsimp only [Option.map_some, Frame.raised]
      cases f.code[f.pc]? with
      | none => exact stuck _
      | some i =>
        dsimp only [Machine.elsewhere]
        cases m.instances[f.inst]? with
        | none => exact stuck _
        | some inst =>
          dsimp only
          have same := i.exec_same inst ⟨{ f with pc := f.pc + 1 }, m.store⟩
          have funcs := i.exec_funcs inst ⟨{ f with pc := f.pc + 1 }, m.store⟩
          have raised := i.exec_raised inst { f with pc := f.pc + 1 } m.store
          have agree :=
            resume_above entries neutral own below linked same funcs (outer'.push f.raised)
          rw [← raised] at agree
          exact agree

/-! ## Loops -/

include entries neutral in
/-- A loop of steps above the footing, if it is asked the same on both machines whether it goes
on. -/
theorem stepWhile_above {more more' : Machine σ → Bool}
    (same : ∀ ⦃m m' : Machine σ⦄, ft.Rel m m' → more' m' = more m)
    (above : ∀ ⦃m : Machine σ⦄, more m = true → ft.low.size + 1 < m.frames.size) (bound : Nat)
    (rel : ft.Rel m m') :
    ft.Agree Eq (Run.stepWhile enter more bound m) (Run.stepWhile enter more' bound m') := by
  induction bound generalizing m m' with
  | zero => exact .out
  | succ bound ih =>
    rw [Run.stepWhile_succ, Run.stepWhile_succ, same rel]
    cases goes : more m with
    | false => exact .ok rfl rel
    | true =>
      exact (step_above entries neutral rel (above goes)).bind fun _ _ _ _ _ _ rel => ih rel

include entries neutral in
theorem execute_above {depth : Nat} (deep : ft.low.size < depth) (bound : Nat)
    (rel : ft.Rel m m') :
    ft.Agree Eq (Run.execute enter bound depth m) (Run.execute enter bound (depth + 1) m') := by
  refine stepWhile_above entries neutral (fun m m' rel => ?_) (fun m more => ?_) bound rel
  · rw [rel.frames.sizes.1]
    exact decide_eq_decide.mpr Nat.add_lt_add_iff_right
  · have := of_decide_eq_true more
    omega

/-- Frames that are taken off above the footing hold the same operands. -/
theorem popFrame_above (rel : ft.Rel m m') (more : ft.low.size + 1 < m.frames.size) :
    ft.Agree (fun f f' => f'.map (·.stack) = f.map (·.stack)) (Run.popFrame? m)
      (Run.popFrame? m') := by
  cases rel with
  | mk frames placeless =>
    obtain ⟨outer, f, outer', top, rfl, below, -⟩ := frames.above more
    refine .ok ?_ (.mk ?_ (placeless.of_same rfl rfl))
    · rw [top]
      dsimp only [Machine.elsewhere]
      rw [Array.back?_push, Array.back?_push]
      rfl
    · rw [top]
      dsimp only [Machine.elsewhere]
      rw [Array.pop_push, Array.pop_push]
      exact below

/-! ## Entries -/

/-- The innermost frames run in the same instance and have the same operands. -/
theorem Frames.back? {fs fs' : Array Frame} (frames : ft.Frames fs fs') :
    fs'.back?.map (·.inst) = fs.back?.map (·.inst) ∧
      fs'.back?.map (·.stack) = fs.back?.map (·.stack) := by
  obtain ⟨outer, f, outer', f', rfl, rfl, -, inst, stack, -⟩ := frames.top
  rw [Array.back?_push, Array.back?_push]
  exact ⟨congrArg some inst, congrArg some stack⟩

include entries neutral in
/-- A call from outside. -/
theorem invoke_alike (bound addr : Nat) (args : Array Value) :
    ft.Alike (Run.invoke enter bound addr args) := by
  refine (Alike.op (.getFunc addr)).bind fun func m m' rel => ?_
  dsimp only
  split
  · exact Alike.trap _ rel
  obtain ⟨size, deep⟩ := rel.frames.sizes
  rw [Run.get_bind, Run.get_bind, rel.frames.back?.1, size]
  generalize entered : Frame.entry _ args = entry
  have free : entry.labels = [] ∧ entry.raised = entry ∧ entry.prev = none := by
    rw [← entered]
    exact ⟨rfl, rfl, rfl⟩
  have on : ft.Rel { m with frames := m.frames.push entry }
      { m' with frames := m'.frames.push entry } := by
    cases rel with
    | mk frames placeless =>
      have pushed := frames.push (f := entry) fun p linked => by
        rw [free.2.2] at linked
        cases linked
      rw [free.2.1] at pushed
      exact .mk pushed (placeless.of_same rfl rfl)
  rw [Run.pushFrame, Run.modify_bind, Run.modify_bind]
  have inside : ft.Agree Eq
      ((do Run.call enter addr; Run.execute enter bound (m.frames.size + 1) : Run σ Unit)
        { m with frames := m.frames.push entry })
      ((do Run.call enter addr; Run.execute enter bound (m.frames.size + 1 + 1) : Run σ Unit)
        { m' with frames := m'.frames.push entry }) :=
    (call_alike entries neutral addr on).bind fun _ _ _ _ _ _ rel =>
      execute_above entries neutral (Nat.lt_succ_of_lt deep) bound rel
  refine (inside.restoring deep).bind fun _ _ n n' ran _ rel => ?_
  have larger : ft.low.size + 1 < n.frames.size := by
    rcases Run.restoring_cases ran with ⟨_, ran, -⟩ | ⟨_, _, -, failed, -⟩
    · have kept := (Run.invoked_kept neutral on.placeless.tame free.1 rfl ran).1
      generalize n.frames = fs at kept
      cases kept with
      | tower tower =>
        obtain ⟨base, above, rfl, -⟩ := tower
        rw [Array.size_append, Array.size_push]
        omega
    · cases failed
  refine (popFrame_above rel larger).bind fun f f' n n' _ same rel => ?_
  cases f with
  | none =>
    cases Option.map_eq_none_iff.mp same
    exact Alike.trap _ rel
  | some f =>
    obtain ⟨g, rfl, stack⟩ := Option.map_eq_some_iff.mp same
    exact .ok stack.symm rel

include entries neutral in
/-- A constant expression, the code of which runs above the footing. -/
theorem constant_alike (bound inst : Nat) (code : Code) :
    ft.Alike (Run.constant enter bound inst code) := by
  intro m m' rel
  obtain ⟨size, deep⟩ := rel.frames.sizes
  rw [Run.constant_eq, Run.get_bind, Run.get_bind, size]
  have on : ft.Rel (Run.starting m inst code) (Run.starting m' inst code) := by
    cases rel with
    | mk frames placeless => exact .mk (frames.push nofun) (placeless.of_same rfl rfl)
  rw [Run.pushFrame, Run.modify_bind, Run.modify_bind]
  have inside : ft.Agree Eq
      (Run.stepWhile enter (Run.openAt m.frames.size) bound (Run.starting m inst code))
      (Run.stepWhile enter (Run.openAt (m.frames.size + 1)) bound
        (Run.starting m' inst code)) := by
    refine stepWhile_above entries neutral (fun n n' rel => ?_) (fun n more => ?_) bound on
    · rw [Run.openAt, rel.frames.getElem?_of_lt deep, Option.map_map]
      rfl
    · rw [Run.openAt] at more
      cases found : n.frames[m.frames.size]? with
      | none =>
        rw [found] at more
        cases more
      | some f =>
        have := (Array.getElem?_eq_some_iff.mp found).1
        omega
  refine (inside.restoring deep).bind fun _ _ n n' ran _ rel => ?_
  have cut : ft.Rel { n with frames := n.frames.shrink (m.frames.size + 1) }
      { n' with frames := n'.frames.shrink (m.frames.size + 1 + 1) } := by
    cases rel with
    | mk frames placeless =>
      exact .mk (frames.shrink (Nat.lt_succ_of_lt deep)) (placeless.of_same rfl rfl)
  have larger : ft.low.size + 1 < (n.frames.shrink (m.frames.size + 1)).size := by
    rcases Run.restoring_cases ran with ⟨_, ran, -⟩ | ⟨_, _, -, failed, -⟩
    · have tower : Discipline.any.Tower m.frames (Run.starting m inst code).frames :=
        ⟨_, #[], rfl, Discipline.any.callees_empty _, fun _ => ⟨rfl, trivial⟩⟩
      have kept :=
        (Run.stepWhile_kept neutral (fun m base => Run.labels_of_openAt) on.placeless.tame
        tower ran).1
      generalize n.frames = fs at kept
      cases kept with
      | tower tower =>
        obtain ⟨base, above, rfl, -⟩ := tower
        have all : (m.frames.push base).size = m.frames.size + 1 := Array.size_push _
        rw [← all, Run.shrink_append, all]
        omega
    · cases failed
  rw [Run.truncate, Run.truncate, Run.modify_bind, Run.modify_bind]
  refine (popFrame_above cut larger).bind fun f f' n n' _ same rel => ?_
  cases f with
  | none =>
    cases Option.map_eq_none_iff.mp same
    exact Alike.trap _ rel
  | some f =>
    obtain ⟨g, rfl, stack⟩ := Option.map_eq_some_iff.mp same
    dsimp only
    rw [stack]
    rcases f.stack.toList with _ | ⟨v, _ | ⟨w, more⟩⟩
    · exact Alike.trap _ rel
    · exact .ok rfl rel
    · exact Alike.trap _ rel

include entries neutral in
/-- A trampolined call: what unwinds it takes the operands off that it has pushed. -/
theorem trampoline_alike (bound addr : Nat) (args : Array Value) :
    ft.Alike (Run.trampoline enter bound addr args) := by
  intro m m' rel
  obtain ⟨size, deep⟩ := rel.frames.sizes
  have level : m'.frames.back?.map (·.stack.size) = m.frames.back?.map (·.stack.size) := by
    have operands := congrArg (·.map Array.size) rel.frames.back?.2
    rwa [Option.map_map, Option.map_map] at operands
  rw [Run.trampoline, Run.get_bind, Run.get_bind, Run.get_bind, Run.get_bind, size, level]
  refine ((invoke_alike entries neutral bound addr args).map _ rel).tryCatch fun h n n' rel => ?_
  cases h with
  | trap t => exact Alike.throw _ rel
  | exit code => exact Alike.throw _ rel
  | longjmp =>
    cases rel with
    | @mk gs' frames placeless =>
      have cut := frames.shrink deep
      obtain ⟨size', deep'⟩ := cut.sizes
      have own : ∀ gs, Machine.Placeless { n with frames := gs } :=
        fun _ => placeless.of_same rfl rfl
      dsimp only
      rw [Run.truncate, Run.modify_bind, Run.truncate, Run.modify_bind]
      cases m.frames.back?.map (·.stack.size) with
      | none => exact .ok rfl (.mk cut (own _))
      | some level =>
        have there : (gs'.shrink (m.frames.size + 1)).size - 1
          = (n.frames.shrink m.frames.size).size - 1 + 1 := by omega
        have last : (n.frames.shrink m.frames.size).size - 1
            < (n.frames.shrink m.frames.size).size := by omega
        have lowered := cut.modify (by omega) last (·.shrink level)
        rw [← there] at lowered
        exact .ok rfl (.mk lowered (own _))

include entries neutral in
theorem callExport_alike (bound inst : Nat) (name : String) (args : Array Value) :
    ft.Alike (Run.callExport enter bound inst name args) := by
  intro m m' rel
  have same : m'.exported? inst name = m.exported? inst name := by
    cases rel
    rfl
  rw [Run.callExport, Run.get_bind, Run.get_bind, same]
  cases m.exported? inst name with
  | none => exact Alike.trap _ rel
  | some v =>
    cases v with
    | func addr =>
      refine ((invoke_alike entries neutral bound addr args).map _ rel).tryCatch
        fun h n n' rel => ?_
      cases h with
      | longjmp => exact Alike.trap _ rel
      | trap t => exact Alike.throw _ rel
      | exit code => exact .ok rfl rel
    | _ => exact Alike.trap _ rel

/-! ### Instantiations -/

theorem closed : Run.ClosedOnStore fun α (x : Unit → Run σ α) => ft.Alike (x ()) where
  pure := .pure
  throw := .throw
  bind := .bind
  instanceAt := .instanceAt
  op := .op

theorem Alike.allocate (name : String) (module : Module) (e : Externs) :
    ft.Alike (Run.allocate name module e : Run σ _) := by
  intro m m' rel
  cases rel with
  | @mk fs' frames placeless =>
    rw [Run.allocate_eq, Run.allocate_eq,
      Machine.checkImports_aside (Machine.aside_elsewhere fs' m.config.deeper)]
    have again : ft.Rel { m with store := m.store.allocate module m.instances.size name }
      (Machine.elsewhere { m with store := m.store.allocate module m.instances.size name } fs'
        m.config.deeper) := .mk frames (placeless.allocate module _ name)
    dsimp only [Machine.elsewhere] at again ⊢
    cases m.checkImports module e with
    | error t => exact .error _ (.mk frames placeless)
    | ok =>
      dsimp only
      cases (Instance.allocated m.store module m.instances.size name e).addExports
        module.exports with
      | error t => exact .error _ again
      | ok i => exact .ok rfl (.mk frames (again.placeless.of_same rfl rfl))

theorem Alike.publish (inst : Nat) (name : String) :
    ft.Alike (Run.publish inst name : Run σ Unit) :=
  .modify (fun _ _ _ => rfl) (fun _ => ⟨rfl, rfl⟩) fun _ own => own.of_same rfl rfl

include entries neutral in
/-- An entry that leaves stepping to the machine, in view of the entries within it. -/
theorem perform_alike (bound : Nat) {op : Entry} (tame : op.Tame fun _ => True) :
    ft.Alike (op.perform enter bound) := by
  cases op with
  | invoke addr args => exact invoke_alike entries neutral bound addr args
  | trampoline addr args => exact trampoline_alike entries neutral bound addr args
  | callExport inst name args => exact callExport_alike entries neutral bound inst name args
  | instantiate name module e =>
    exact closed.instantiate (fun _ => enter) (fun _ => bound)
      (constant_alike entries neutral bound)
      (invoke_alike entries neutral bound) (fun inst => Alike.publish inst name)
      (Alike.allocate name module e) fun addr values => Alike.store fun _ => rfl
  | step => cases tame
  | execute => cases tame

end Footing

/-- Whatever stands on a footing, an entry goes the same way on both machines, unless it steps
through the frames. -/
theorem Machine.enter_alike (ft : Footing) (bound : Nat) :
    Enter.Alike ft (Machine.enter bound : Enter σ) := by
  induction bound with
  | zero => exact fun _ _ _ _ _ => .out
  | succ bound ih =>
    exact fun _ tame => Footing.perform_alike ih (Machine.enter_neutral .any bound) bound tame

end WasmMachine
