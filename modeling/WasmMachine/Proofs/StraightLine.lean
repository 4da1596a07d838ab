import WasmMachine.Proofs.ImportedGlobals
import WasmMachine.Proofs.Neutral

/-!
# Straight-line constant expressions

Most constant expressions do not branch: they push constants, references and globals, and add,
subtract and multiply integers.  What such an expression comes to is computed without a machine,
from what its indices denote (`Scope.value?`); whether it comes to anything depends on the sizes
of the index spaces alone (`Scope.value?_isSome_congr`).  A machine without a meter gets the same
value and is not changed (`Run.constant_value`).
-/

namespace WasmMachine

variable {σ : Type}

/-! ## What an expression comes to -/

/-- What indices denote: functions, tables and memories their addresses, and globals their
values. -/
structure Scope where
  funcs : Array Nat
  tables : Array Nat
  memories : Array Nat
  globals : List Value

/-- The scope of an instance whose globals have certain values. -/
def Instance.scope (i : Instance) (globals : List Value) : Scope where
  funcs := i.funcs
  tables := i.tables
  memories := i.memories
  globals := globals

/-- Integer arithmetic at a width, given at both. -/
def Value.arith (f : UInt32 → UInt32 → UInt32) (g : UInt64 → UInt64 → UInt64) (a b : Value) :
    Width → Value
  | .w32 => .ofU32 (f a.u32 b.u32)
  | .w64 => .ofU64 (g a.lo b.lo)

/-- The arithmetic that a constant expression may use. -/
def Instr.arith? : Instr → Option (Value → Value → Value)
  | .numeric (.intBinary w .add) => some fun a b => .arith (· + ·) (· + ·) a b w
  | .numeric (.intBinary w .sub) => some fun a b => .arith (· - ·) (· - ·) a b w
  | .numeric (.intBinary w .mul) => some fun a b => .arith (· * ·) (· * ·) a b w
  | _ => none

namespace Scope

/-- What an instruction pushes that takes no operands and depends on its indices alone; none for
any other instruction, and for an index that denotes nothing. -/
def operand? (scope : Scope) : Instr → Option Value
  | .i32Const n => some (.ofU32 n.toUInt32)
  | .i64Const n => some (.ofU64 n.toUInt64)
  | .f32Const x => some (.ofU32 x.bits)
  | .f64Const x => some (.ofU64 x.bits)
  | .vector 0x0c (.const v) => some v
  | .refNull _ => some .null
  | .refFunc idx => Value.funcRef <$> scope.funcs[idx.toNat]?
  | .globalGet idx => scope.globals[idx.toNat]?
  | _ => none

/-- An instruction of a straight-line constant expression, on operands of which the last is listed
first. -/
def step (scope : Scope) (vs : List Value) (i : Instr) : Option (List Value) :=
  match scope.operand? i with
  | some v => some (v :: vs)
  | none => match i.arith?, vs with
    | some f, b :: a :: vs => some (f a b :: vs)
    | _, _ => none

/-- The value of a straight-line constant expression, which ends after it has left one operand. -/
def value? (scope : Scope) (code : Code) : Option Value :=
  match code.toList.getLast?, code.toList.dropLast.foldlM scope.step [] with
  | some .endOf, some [v] => some v
  | _, _ => none

variable {scope other : Scope} {code : Code} {v : Value}

theorem value?_eq_some_iff : scope.value? code = some v ↔
    code.toList.getLast? = some .endOf ∧ code.toList.dropLast.foldlM scope.step [] =
      some [v] := by
  unfold value?
  split
  · next last run => simp [last, run]
  · next other =>
    constructor
    · rintro ⟨⟩
    · rintro ⟨last, run⟩
      exact absurd run (other v last)

theorem exists_body (value : scope.value? code = some v) : ∃ body : List Instr,
    code.toList = body ++ [.endOf] ∧ body.foldlM scope.step [] = some [v] := by
  obtain ⟨last, run⟩ := value?_eq_some_iff.mp value
  obtain ⟨body, whole⟩ := List.getLast?_eq_some_iff.mp last
  rw [whole, List.dropLast_concat] at run
  exact ⟨body, whole, run⟩

section Sizes

variable (funcs : scope.funcs.size = other.funcs.size)
  (globals : scope.globals.length = other.globals.length)
include funcs globals

theorem operand?_isSome_congr (i : Instr) :
    (scope.operand? i).isSome = (other.operand? i).isSome := by
  unfold operand?
  split
  case h_7 idx =>
    change (scope.funcs[idx.toNat]?.map _).isSome = (other.funcs[idx.toNat]?.map _).isSome
    rw [Bool.eq_iff_iff, Option.isSome_map, Option.isSome_map, Option.isSome_iff_ne_none,
      Option.isSome_iff_ne_none, Ne, Ne, Array.getElem?_eq_none_iff,
      Array.getElem?_eq_none_iff, funcs]
  case h_8 idx =>
    rw [Bool.eq_iff_iff, Option.isSome_iff_ne_none, Option.isSome_iff_ne_none, Ne, Ne,
      List.getElem?_eq_none_iff, List.getElem?_eq_none_iff, globals]
  all_goals rfl

theorem step_congr {vs ws : List Value} (same : vs.length = ws.length) (i : Instr) :
    (scope.step vs i).map List.length = (other.step ws i).map List.length := by
  have pushed := operand?_isSome_congr funcs globals i
  unfold step
  cases one : scope.operand? i with
  | some v =>
    obtain ⟨w, two⟩ :=
      Option.isSome_iff_exists.mp (pushed ▸ one ▸ rfl : (other.operand? i).isSome)
    simp [two, same]
  | none =>
    have two : other.operand? i = none := by simpa [one] using pushed.symm
    rw [two]
    cases i.arith? with
    | none => rfl
    | some f =>
      rcases vs with _ | ⟨b, _ | ⟨a, vs⟩⟩ <;> rcases ws with _ | ⟨b', _ | ⟨a', ws⟩⟩ <;>
        simp_all

/-- Whether an expression comes to anything depends on how many functions and globals there
are. -/
theorem value?_isSome_congr (known : (scope.value? code).isSome) :
    (other.value? code).isSome := by
  have run : ∀ (body : List Instr) (vs ws : List Value), vs.length = ws.length →
      (body.foldlM scope.step vs).map List.length =
        (body.foldlM other.step ws).map List.length := by
    intro body
    induction body with
    | nil => exact fun vs ws same => congrArg some same
    | cons i body ih =>
      intro vs ws same
      have first := step_congr funcs globals same i
      rw [List.foldlM_cons, List.foldlM_cons]
      cases one : scope.step vs i with
      | none =>
        have two : other.step ws i = none := by simpa [one] using first.symm
        rw [two]
        rfl
      | some vs' =>
        rw [one, Option.map_some] at first
        obtain ⟨ws', two, same'⟩ := Option.map_eq_some_iff.mp first.symm
        rw [two]
        exact ih vs' ws' same'.symm
  obtain ⟨v, value⟩ := Option.isSome_iff_exists.mp known
  obtain ⟨last, ran⟩ := value?_eq_some_iff.mp value
  have lengths := run code.toList.dropLast [] [] rfl
  rw [ran] at lengths
  obtain ⟨ws, ran', one⟩ := Option.map_eq_some_iff.mp lengths.symm
  obtain ⟨w, rfl⟩ := List.length_eq_one_iff.mp one
  exact Option.isSome_iff_exists.mpr ⟨w, value?_eq_some_iff.mpr ⟨last, ran'⟩⟩

end Sizes

end Scope

/-! ## What a machine makes of it -/

/-- The indices of an instance denote what they do in a scope. -/
structure Instance.Sees (i : Instance) (s : Store σ) (scope : Scope) : Prop where
  funcs : i.funcs = scope.funcs
  globals : ∀ (k : Nat) (v : Value), scope.globals[k]? = some v →
    ∃ a, i.globals[k]? = some a ∧ s.globals[a]? = some v

section Running

variable {inst : Instance} {s : Store σ} {scope : Scope} {i : Instr}

theorem Instr.exec_refFunc (idx : FuncIdx) (f : Frame) {a : Nat}
    (at_ : inst.funcs[idx.toNat]? = some a) : (Instr.refFunc idx).exec inst ⟨f, s⟩
      = .ok .next ⟨{ f with stack := f.stack.push (.funcRef a) }, s⟩ := by
  change (do
    FrameM.push (.funcRef (← Instance.addrOf .func inst.funcs idx.val))
    return .next : Act σ Flow) ⟨f, s⟩ = _
  rw [Idx.toNat] at at_
  simp [Instance.addrOf, Act.ofExcept, Act.onFrame, FrameM.push, at_]

theorem Instr.exec_operand? {v : Value} (sees : inst.Sees s scope)
    (pushed : scope.operand? i = some v)
    (f : Frame) : i.exec inst ⟨f, s⟩ = .ok .next ⟨{ f with stack := f.stack.push v }, s⟩ := by
  unfold Scope.operand? at pushed
  split at pushed
  case h_7 idx =>
    obtain ⟨a, at_, rfl⟩ := Option.map_eq_some_iff.mp pushed
    exact exec_refFunc idx f (sees.funcs ▸ at_)
  case h_8 idx =>
    obtain ⟨a, at_, stored⟩ := sees.globals _ _ pushed
    simp only [exec_globalGet, at_, stored]
  case h_9 => cases pushed
  all_goals
    cases pushed
    rfl

theorem Instr.exec_binary {op : NumericOp} {g : Value → Value → Except Trap Value} {a b v : Value}
    (binary : op.func = .binary g) (result : g a b = .ok v) {rest : Array Value} {f : Frame}
    (operands : f.stack = (rest.push a).push b) : (Instr.numeric op).exec inst ⟨f, s⟩
      = .ok .next ⟨{ f with stack := rest.push v }, s⟩ := by
  change (do Act.numeric op; return .next : Act σ Flow) ⟨f, s⟩ = _
  simp [Act.numeric, binary, Act.onFrame, Act.ofExcept, FrameM.pop_eq, FrameM.push,
    operands, result]

theorem Instr.exec_arith? {g : Value → Value → Value} (arith : i.arith? = some g)
    {rest : Array Value} {a b : Value} {f : Frame} (operands : f.stack = (rest.push a).push b) :
    i.exec inst ⟨f, s⟩ = .ok .next ⟨{ f with stack := rest.push (g a b) }, s⟩ := by
  unfold Instr.arith? at arith
  split at arith
  case h_4 => cases arith
  all_goals
    next w =>
      cases arith
      exact exec_binary rfl (by cases w <;> rfl) operands

/-- An instruction of a constant expression does in a frame what it does to a list of operands. -/
theorem Scope.exec_step (sees : inst.Sees s scope) {vs ws : List Value}
    (step : scope.step vs i = some ws) {f : Frame} (operands : f.stack = vs.reverse.toArray) :
    i.exec inst ⟨f, s⟩ = .ok .next ⟨{ f with stack := ws.reverse.toArray }, s⟩ := by
  unfold Scope.step at step
  split at step
  · next v pushed =>
    cases step
    rw [Instr.exec_operand? sees pushed, operands, List.push_toArray, List.reverse_cons]
  · split at step
    · next g b a rest arith =>
      cases step
      have split : f.stack = (rest.reverse.toArray.push a).push b := by
        rw [operands, List.push_toArray, List.push_toArray, List.reverse_cons, List.reverse_cons]
      rw [Instr.exec_arith? arith split, List.push_toArray, List.reverse_cons]
    · cases step

end Running

theorem Code.getElem?_of_drop {code : Code} {pc : Nat} {i : Instr} {more : List Instr}
    (rest : code.toList.drop pc = i :: more) :
    code[pc]? = some i ∧ code.toList.drop (pc + 1) = more := by
  constructor
  · rw [← Array.getElem?_toList, ← List.head?_drop, rest]
    rfl
  · rw [← List.drop_drop, rest]
    rfl

namespace Run

variable {enter : Enter σ} {i : Instance} {scope : Scope} {m : Machine σ} {outer : Array Frame}
  {f : Frame}

/-- A step of an innermost frame that goes on within the frame, on a machine without a meter. -/
theorem step_next {j : Instr} {g : Frame} (unmetered : m.fuel = none)
    (listed : m.instances[f.inst]? = some i) (top : m.frames = outer.push f)
    (at_ : f.code[f.pc]? = some j)
    (next : j.exec i ⟨{ f with pc := f.pc + 1 }, m.store⟩ = .ok .next ⟨g, m.store⟩)
    (alone : g.prev = none) :
    step enter m = some (.ok (), { m with frames := outer.push g }) := by
  have paid : m.paying 1 = some m := by rw [Machine.paying, unmetered]
  rw [step_eq enter top, paid]
  simp only [at_, listed, next, resume]
  rw [finish_eq (m := m.within outer ⟨g, m.store⟩) rfl, alone]
  rfl

/-- The rest of a constant expression runs to its end in a frame of its own. -/
theorem stepWhile_straight {label : Label} (unmetered : m.fuel = none)
    (listed : m.instances[f.inst]? = some i) (sees : i.Sees m.store scope)
    (top : m.frames = outer.push f) (alone : f.prev = none) (inside : f.labels = [label])
    {body : List Instr} {vs ws : List Value} (operands : f.stack = vs.reverse.toArray)
    (run : body.foldlM scope.step vs = some ws)
    (rest : f.code.toList.drop f.pc = body ++ [.endOf]) {bound : Nat}
    (long : body.length + 1 < bound) :
    ∃ pc, stepWhile enter (openAt outer.size) bound m = some (.ok (), { m with
      frames := outer.push { f with stack := ws.reverse.toArray, labels := [], pc } }) := by
  have opened : openAt outer.size m = true := by
    rw [openAt, top, Array.getElem?_push_size]
    simp [Frame.hasLabel, inside]
  induction body generalizing m f vs bound with
  | nil =>
    cases run
    obtain ⟨bound, rfl⟩ : ∃ b, bound = b + 2 := ⟨bound - 2, by simp at long; omega⟩
    obtain ⟨at_, -⟩ := Code.getElem?_of_drop rest
    have ends : Instr.endOf.exec i ⟨{ f with pc := f.pc + 1 }, m.store⟩
        = .ok .next ⟨{ f with pc := f.pc + 1, labels := [] }, m.store⟩ := by
      rw [Instr.exec_endOf]
      simp only [inside]
    refine ⟨f.pc + 1, ?_⟩
    rw [stepWhile_succ, if_pos opened, bind_apply, step_next unmetered listed top at_ ends alone]
    dsimp only
    rw [stepWhile_succ, if_neg (by simp [openAt, Frame.hasLabel]), ← operands]
  | cons j body ih =>
    obtain ⟨bound, rfl⟩ : ∃ b, bound = b + 1 := ⟨bound - 1, by omega⟩
    obtain ⟨at_, rest⟩ := Code.getElem?_of_drop rest
    rw [List.foldlM_cons] at run
    obtain ⟨us, step, run⟩ := Option.bind_eq_some_iff.mp run
    let g := { f with pc := f.pc + 1, stack := us.reverse.toArray }
    have next : j.exec i ⟨{ f with pc := f.pc + 1 }, m.store⟩ = .ok .next ⟨g, m.store⟩ :=
      Scope.exec_step sees step operands
    obtain ⟨pc, ran⟩ :=
      ih (m := { m with frames := outer.push g }) (f := g) unmetered listed sees rfl
      alone inside rfl run rest (by simp at long; omega)
        (by simp [openAt, Frame.hasLabel, g, inside])
    refine ⟨pc, ?_⟩
    rw [stepWhile_succ, if_pos opened, bind_apply, step_next unmetered listed top at_ next alone]
    exact ran

/-- A machine without a meter evaluates a straight-line constant expression to its value and is as
it was. -/
theorem constant_value (enter : Enter σ) {inst bound : Nat} {code : Code} {v : Value}
    (unmetered : m.fuel = none) (listed : m.instances[inst]? = some i)
    (sees : i.Sees m.store scope)
    (value : scope.value? code = some v) (long : code.size < bound) :
    constant enter bound inst code m = some (.ok v, m) := by
  obtain ⟨body, whole, run⟩ := Scope.exists_body value
  have size : code.size = body.length + 1 := by
    rw [← Array.length_toList, whole, List.length_append, List.length_singleton]
  let base := Frame.new none code inst #[] 1 none ⟨0, code.size, 0⟩
  obtain ⟨pc, looped⟩ := @stepWhile_straight σ enter i scope
    { m with frames := m.frames.push base } m.frames base
      ⟨0, code.size, 0⟩ unmetered listed sees rfl
    rfl rfl body [] [v] rfl run whole bound (by omega)
  rw [constant_eq, get_bind, pushFrame, modify_bind, bind_apply, restoring_apply, looped]
  have kept (g : Frame) : (m.frames.push g).shrink (m.frames.size + 1) = m.frames.push g := by
    rw [← Array.size_push g, shrink_size]
  simp only [truncate, modify_bind, kept]
  rw [bind_apply, popFrame?]
  simp

end Run

end WasmMachine
