import WasmMachine.Proofs.Stability

/-!
# Instructions that keep to their instance

A value carries no type, so a reference is as good as the way its bits came about.  Of all
instructions only some vector instructions can set the high half of a value, or change the low
half of one whose high half is set: these can forge a reference (`Instr.isForging`).  All others
pass values on, make numbers, and make references to functions of their own instance.

So as long as all values within reach of an instance are its own (`Instance.Owns`), an instruction
that is not forging keeps them so, touches nothing of the store but what the instance lists, and
calls no function but one that the instance lists (`Instr.exec_confined`).
-/

namespace WasmMachine

variable {σ α β : Type}

/-! ## Forging -/

/-- The instructions that can make a reference otherwise than by naming a function: a vector is
loaded, copied from a number into every lane, or computed bit by bit, or it is a constant that
is not a number. -/
def Instr.isForging : Instr → Bool
  | .vector 0x0c (.const v) => v.hi != 0
  | .vector op _ => [0x00, 0x0f, 0x11, 0x4d, 0x4e, 0x4f, 0x50, 0x51].contains op
  | _ => false

/-- Code without forging instructions. -/
def Code.Unforging (c : Code) : Prop := ∀ i ∈ c, i.isForging = false

/-! ## Values of an instance's own -/

/-- A number, the null reference, or a reference to a function that an instance lists. -/
def Instance.Owns (A : Instance) (v : Value) : Prop := v.hi = 0 ∨ ∃ a ∈ A.funcs, v = .funcRef a

/-- The tables, globals and element segments that an instance lists hold nothing but its own. -/
structure Instance.Holds (A : Instance) (s : Store σ) : Prop where
  tables : ∀ a ∈ A.tables, ∀ t, s.tables[a]? = some t → ∀ v ∈ t.values, A.Owns v
  globals : ∀ a ∈ A.globals, ∀ v, s.globals[a]? = some v → A.Owns v
  elems : ∀ a ∈ A.elems, ∀ e, s.elems[a]? = some (some e) → ∀ v ∈ e.values, A.Owns v

/-- Two stores that differ in nothing but what an instance lists; functions do not change at
all. -/
structure Instance.Spares (A : Instance) (s s' : Store σ) : Prop where
  funcs : s'.funcs = s.funcs
  tables : ∀ a : Nat, a ∉ A.tables → s'.tables[a]? = s.tables[a]?
  memories : ∀ a : Nat, a ∉ A.memories → s'.memories[a]? = s.memories[a]?
  globals : ∀ a : Nat, a ∉ A.globals → s'.globals[a]? = s.globals[a]?
  elems : ∀ a : Nat, a ∉ A.elems → s'.elems[a]? = s.elems[a]?
  datas : ∀ a : Nat, a ∉ A.datas → s'.datas[a]? = s.datas[a]?

/-- A frame whose locals and operands are an instance's own. -/
structure Instance.Fills (A : Instance) (f : Frame) : Prop where
  locals : ∀ v ∈ f.locals, A.Owns v
  stack : ∀ v ∈ f.stack, A.Owns v

/-- An activation in which an instance finds nothing but its own. -/
structure Instance.Rules (A : Instance) (a : Activation σ) : Prop where
  store : A.Holds a.store
  frame : A.Fills a.frame

/-- What an instruction asks for: the next one, or the call of a function that an instance
lists. -/
def Instance.Leads (A : Instance) : Flow → Prop
  | .next => True
  | .call addr => addr ∈ A.funcs

variable {A : Instance}

namespace Instance

/-- Every number is an instance's own, since it refers to nothing. -/
theorem Owns.number {v : Value} (number : v.hi = 0) : A.Owns v := .inl number

theorem Owns.null : A.Owns .null := .number rfl

/-- A reference to a function that the instance lists is its own. -/
theorem Owns.funcRef {a : Nat} (listed : a ∈ A.funcs) : A.Owns (.funcRef a) :=
  .inr ⟨a, listed, rfl⟩

/-- An own value that is the reference to a function denotes one that the instance lists. -/
theorem Owns.funcAddr {v : Value} (own : A.Owns v)
    (small : ∀ a ∈ A.funcs, a < UInt64.size) {a : Nat}
    (denotes : v.funcAddr? = some a) : a ∈ A.funcs := by
  rcases own with number | ⟨b, listed, rfl⟩
  · rw [Value.funcAddr?, Value.isNull, number] at denotes
    cases denotes
  · rw [Value.funcAddr?_funcRef, Nat.mod_eq_of_lt (small b listed)] at denotes
    cases denotes
    exact listed

theorem Spares.refl (s : Store σ) : A.Spares s s :=
  ⟨rfl, fun _ _ => rfl, fun _ _ => rfl, fun _ _ => rfl, fun _ _ => rfl, fun _ _ => rfl⟩

/-- What spares others may be done twice. -/
theorem Spares.trans {s s' s'' : Store σ} (first : A.Spares s s') (second : A.Spares s' s'') :
    A.Spares s s'' where
  funcs := second.funcs.trans first.funcs
  tables a foreign := (second.tables a foreign).trans (first.tables a foreign)
  memories a foreign := (second.memories a foreign).trans (first.memories a foreign)
  globals a foreign := (second.globals a foreign).trans (first.globals a foreign)
  elems a foreign := (second.elems a foreign).trans (first.elems a foreign)
  datas a foreign := (second.datas a foreign).trans (first.datas a foreign)

/-- What an index denotes is listed. -/
theorem addrOf_mem {space : IndexSpace} {addrs : Array Nat} {idx : UInt32} {a : Nat}
    (denotes : addrOf space addrs idx = .ok a) : a ∈ addrs := by
  unfold addrOf at denotes
  split at denotes
  · next b there =>
    cases denotes
    exact Array.mem_of_getElem? there
  · cases denotes

theorem memAddr_mem {idx : MemIdx} {a : Nat} (denotes : A.memAddr idx = .ok a) :
    a ∈ A.memories := by
  unfold memAddr at denotes
  split at denotes
  · cases denotes
  · exact addrOf_mem denotes

end Instance

/-! ## Numbers -/

theorem Value.hi_ofBits (w : Width) (x : BitVec w.bits) : (ofBits w x).hi = 0 := by
  cases w <;> rfl

theorem Value.hi_ofSize (size : Option Nat) : (ofSize size).hi = 0 := by
  cases size <;> rfl

/-- What is loaded is a number, whatever the bytes. -/
theorem LoadOp.hi_value (op : LoadOp) (bytes : List UInt8) : (op.value bytes).hi = 0 := by
  unfold LoadOp.value
  dsimp only
  split
  · rfl
  · exact Value.hi_ofBits _ _

/-- A function whose results are all numbers. -/
def NumericFunc.Scalar : NumericFunc → Prop
  | .unary f => ∀ a v, f a = .ok v → v.hi = 0
  | .binary f => ∀ a b v, f a b = .ok v → v.hi = 0

/-- All numeric instructions make numbers of whatever they are given. -/
theorem NumericOp.func_scalar (op : NumericOp) : op.func.Scalar := by
  have bits {w : Width} {x : BitVec w.bits} {v : Value}
      (run : (.ok (.ofBits w x) : Except Trap Value) = .ok v) : v.hi = 0 := by
    cases run
    exact Value.hi_ofBits w x
  have checked {w : Width} {r : Except Trap (BitVec w.bits)} {v : Value}
      (run : Value.ofBits w <$> r = .ok v) : v.hi = 0 := by
    obtain ⟨x, -, rfl⟩ := Except.exists_of_map run
    exact Value.hi_ofBits w x
  cases op with
  | eqz =>
    intro a v run
    cases run
    rfl
  | intCompare | floatCompare =>
    intro a b v run
    cases run
    rfl
  | intUnary | floatUnary | wrap | extend | truncateSat | convert | demote | promote | bitsOfFloat
  | floatOfBits | signExtend => exact fun a v run => bits run
  | floatBinary => exact fun a b v run => bits run
  | intBinary => exact fun a b v run => checked run
  | truncate => exact fun a v run => checked run

/-! ## Tables -/

theorem mem_of_mem_extract {xs : Array α} {i j : Nat} {x : α} (mem : x ∈ xs.extract i j) :
    x ∈ xs := by
  rw [← Array.mem_toList_iff, Array.toList_extract, List.extract_eq_take_drop] at mem
  exact Array.mem_toList_iff.mp (List.mem_of_mem_drop (List.mem_of_mem_take mem))

theorem mem_of_mem_shrink {xs : Array α} {n : Nat} {x : α} (mem : x ∈ xs.shrink n) : x ∈ xs := by
  rw [Array.shrink_eq_take] at mem
  exact mem_of_mem_extract mem

theorem mem_of_mem_pop {xs : Array α} {x : α} (mem : x ∈ xs.pop) : x ∈ xs := by
  rw [← Array.mem_toList_iff, Array.toList_pop] at mem
  exact Array.mem_toList_iff.mp ((List.dropLast_sublist _).mem mem)

/-- What is found in an array after a write is what has been written, or was there. -/
theorem eq_or_getElem?_of_setIfInBounds {xs : Array α} {i j : Nat} {x y : α}
    (there : (xs.setIfInBounds i x)[j]? = some y) : y = x ∨ xs[j]? = some y := by
  rw [Array.getElem?_setIfInBounds] at there
  split at there
  · split at there <;> cases there
    exact .inl rfl
  · exact .inr there

/-- A write at an address that is listed is not seen at one that is not. -/
theorem getElem?_setIfInBounds_of_foreign {xs : Array α} {x : α} {addrs : Array Nat} {i j : Nat}
    (listed : i ∈ addrs) (foreign : j ∉ addrs) : (xs.setIfInBounds i x)[j]? = xs[j]? := by
  rw [Array.getElem?_setIfInBounds, if_neg]
  rintro rfl
  exact foreign listed

/-- The items of an array that has been overwritten are old ones and new ones. -/
theorem mem_or_mem_of_overwriteItems {xs : Array α} {pos : Nat} {ys : List α} {x : α}
    (mem : x ∈ overwriteItems xs pos ys) : x ∈ xs ∨ x ∈ ys := by
  induction ys generalizing xs pos with
  | nil => exact .inl mem
  | cons y ys ih =>
    rcases ih mem with before | later
    · rcases Array.mem_or_eq_of_mem_setIfInBounds before with before | rfl
      · exact .inl before
      · exact .inr List.mem_cons_self
    · exact .inr (List.mem_cons_of_mem y later)

namespace Table

/-- An operation on a table that leaves no value in it without a property that all of them had,
and whose result is as asked for. -/
def Retains (P : Value → Prop) (post : α → Prop) (x : EStateM Trap Table α) : Prop :=
  ∀ ⦃t : Table⦄, (∀ v ∈ t.values, P v) →
    (∀ v ∈ (stateAfter (x t)).values, P v) ∧ ∀ a t', x t = .ok a t' → post a

variable {P : Value → Prop}

theorem Retains.look {f : Table → α} {post : α → Prop}
    (found : ∀ t : Table, (∀ v ∈ t.values, P v) → post (f t)) :
    Retains P post (do return f (← get)) := by
  intro t all
  refine ⟨all, fun a t' run => ?_⟩
  cases run
  exact found t all

/-- A slot that is read holds what the table retains. -/
theorem Retains.get? (idx : Nat) :
    Retains P (fun found => ∀ v, found = some v → P v) (do return (← get).get? idx) :=
  look fun _ all v there => all v (Array.mem_of_getElem? there)

/-- Tables retain a property of their values if only values with it are written. -/
theorem Retains.set (idx : Nat) {v : Value} (own : P v) :
    Retains P (fun _ => True) (Table.set idx v) := by
  intro t all
  refine ⟨?_, fun _ _ _ => trivial⟩
  unfold Table.set
  split
  · intro w mem
    rcases Array.mem_or_eq_of_mem_setIfInBounds mem with before | rfl
    · exact all w before
    · exact own
  · exact all

theorem Retains.grow (delta : Nat) {v : Value} (own : P v) :
    Retains P (fun _ => True) (Table.grow delta v) := by
  intro t all
  refine ⟨?_, fun _ _ _ => trivial⟩
  unfold Table.grow
  dsimp only
  split
  · intro w mem
    rcases Array.mem_append.mp mem with before | new
    · exact all w before
    · exact (Array.mem_replicate.mp new).2 ▸ own
  · exact all

theorem Retains.read (pos count : Nat) :
    Retains P (fun vs => ∀ v ∈ vs, P v) (Table.read pos count) := by
  intro t all
  unfold Table.read
  split
  · refine ⟨all, fun vs t' run => ?_⟩
    cases run
    exact fun v mem => all v (mem_of_mem_extract (Array.mem_toList_iff.mp mem))
  · exact ⟨all, fun vs t' run => (nomatch run)⟩

theorem Retains.write (pos : Nat) {vs : List Value} (own : ∀ v ∈ vs, P v) :
    Retains P (fun _ => True) (Table.write pos vs) := by
  intro t all
  refine ⟨?_, fun _ _ _ => trivial⟩
  unfold Table.write
  split
  · intro w mem
    rcases mem_or_mem_of_overwriteItems mem with before | new
    · exact all w before
    · exact own w new
  · exact all

theorem Retains.fill (pos : Nat) {v : Value} (own : P v) (count : Nat) :
    Retains P (fun _ => True) (Table.fill pos v count) := by
  intro t all
  refine ⟨?_, fun _ _ _ => trivial⟩
  unfold Table.fill
  split
  · exact (write pos (fun w mem => (List.mem_replicate.mp mem).2 ▸ own) all).1
  · exact all

/-- A copy within a table writes what the table holds. -/
theorem Retains.copy (dst src count : Nat) :
    Retains P (fun _ => True) (Table.copy dst src count) := by
  intro t all
  refine ⟨?_, fun _ _ _ => trivial⟩
  have kept := Table.read_unchanged src count t
  unfold Table.copy
  split
  · change ∀ v ∈ (stateAfter (EStateM.bind (Table.read src count) (Table.write dst) t)).values,
      P v
    unfold EStateM.bind
    cases ran : Table.read src count t <;> rw [ran] at kept <;> obtain rfl : _ = t := kept
    · exact (write dst ((read src count all).2 _ _ ran) all).1
    · exact all
  · exact all

end Table

/-! ## Operations on the store -/

namespace StoreM

/-- An operation on the store that keeps to an instance: it leaves the instance nothing but its
own, touches nothing that the instance does not list, and if it succeeds its result is as asked
for. -/
def Confined (A : Instance) (post : α → Prop) (x : StoreM σ α) : Prop :=
  ∀ ⦃s : Store σ⦄, A.Holds s → A.Holds (stateAfter (x s)) ∧ A.Spares s (stateAfter (x s)) ∧
    ∀ v s', x s = .ok v s' → post v

namespace Confined

variable {post : α → Prop}

/-- Looking something up changes nothing, so that only what is found has to be known. -/
theorem gets {f : Store σ → Except Trap α} (known : ∀ s, A.Holds s → ∀ v, f s = .ok v → post v) :
    Confined A post (StoreM.gets f) := by
  intro s holds
  unfold StoreM.gets
  cases found : f s with
  | ok v =>
    refine ⟨holds, .refl _, fun w s' run => ?_⟩
    cases run
    exact known s holds v found
  | error t => exact ⟨holds, .refl _, fun v s' run => (nomatch run)⟩

/-- A global that the instance lists holds its own values. -/
theorem getGlobal {addr : Nat} (listed : addr ∈ A.globals) :
    Confined A A.Owns (StoreM.getGlobal addr : StoreM σ Value) :=
  gets fun s holds v found => by
    split at found <;> cases found
    next there => exact holds.globals addr listed v there

/-- A global that the instance lists may be given values of its own. -/
theorem setGlobal {addr : Nat} {v : Value} (listed : addr ∈ A.globals) (own : A.Owns v) :
    Confined A (fun _ => True) (StoreM.setGlobal addr v : StoreM σ Unit) := by
  intro s holds
  unfold StoreM.setGlobal
  split
  · refine ⟨{ holds with globals := fun a mem w there => ?_ },
      { Instance.Spares.refl s with
        globals := fun a foreign => getElem?_setIfInBounds_of_foreign listed foreign },
      fun _ _ _ => trivial⟩
    rcases eq_or_getElem?_of_setIfInBounds there with rfl | before
    · exact own
    · exact holds.globals a mem w before
  · exact ⟨holds, .refl s, fun _ _ _ => trivial⟩

theorem dropElem {addr : Nat} (listed : addr ∈ A.elems) :
    Confined A (fun _ => True) (StoreM.dropElem addr : StoreM σ Unit) := by
  intro s holds
  refine ⟨{ holds with elems := fun a mem e there => ?_ },
    { Instance.Spares.refl s with
      elems := fun a foreign => getElem?_setIfInBounds_of_foreign listed foreign },
    fun _ _ _ => trivial⟩
  rcases eq_or_getElem?_of_setIfInBounds there with dropped | before
  · cases dropped
  · exact holds.elems a mem e before

theorem fillElem {addr : Nat} {vs : List Value} (listed : addr ∈ A.elems)
    (own : ∀ v ∈ vs, A.Owns v) :
    Confined A (fun _ => True) (StoreM.fillElem addr vs : StoreM σ Unit) := by
  intro s holds
  refine ⟨{ holds with elems := fun a mem e there => ?_ },
    { Instance.Spares.refl s with elems := fun a foreign => ?_ }, fun _ _ _ => trivial⟩
  · change (s.elems.modify addr (Option.map fun e => { e with values := vs }))[a]? = _ at there
    rw [Array.getElem?_modify] at there
    split at there
    · obtain ⟨d, -, filled⟩ := Option.map_eq_some_iff.mp there
      obtain ⟨e', -, rfl⟩ := Option.map_eq_some_iff.mp filled
      exact own
    · exact holds.elems a mem e there
  · change (s.elems.modify addr _)[a]? = _
    rw [Array.getElem?_modify, if_neg]
    rintro rfl
    exact foreign listed

theorem dropData {addr : Nat} (listed : addr ∈ A.datas) :
    Confined A (fun _ => True) (StoreM.dropData addr : StoreM σ Unit) :=
  fun s holds => ⟨⟨holds.tables, holds.globals, holds.elems⟩,
    { Instance.Spares.refl s with
      datas := fun _ foreign => getElem?_setIfInBounds_of_foreign listed foreign },
    fun _ _ _ => trivial⟩

/-- An operation on a table that is listed is confined if the table retains what is the instance's
own. -/
theorem onTable {addr : Nat} {x : EStateM Trap Table α} (listed : addr ∈ A.tables)
    (retains : Table.Retains A.Owns post x) :
    Confined A post (StoreM.onTable addr x : StoreM σ α) := by
  intro s holds
  rw [stateAfter_onTable]
  cases there : s.tables[addr]? with
  | none =>
    refine ⟨holds, .refl s, fun v s' run => ?_⟩
    rw [onTable_of_le (Array.getElem?_eq_none_iff.mp there)] at run
    cases run
  | some t =>
    obtain ⟨kept, known⟩ := retains (holds.tables addr listed t there)
    refine ⟨{ holds with tables := fun a mem t' there' => ?_ },
      { Instance.Spares.refl s with
        tables := fun a foreign => getElem?_setIfInBounds_of_foreign listed foreign },
      fun v s' run => ?_⟩
    · rcases eq_or_getElem?_of_setIfInBounds there' with rfl | before
      · exact kept
      · exact holds.tables a mem t' before
    · obtain ⟨lt, rfl⟩ := Array.getElem?_eq_some_iff.mp there
      rw [onTable_of_lt lt] at run
      cases ran : x s.tables[addr] with
      | ok w t' =>
        rw [ran] at run
        cases run
        exact known v t' ran
      | error e t' =>
        rw [ran] at run
        cases run

/-- A memory holds bytes, so that nothing has to be known of an operation on one that is
listed. -/
theorem onMemory {addr : Nat} (listed : addr ∈ A.memories) (x : EStateM Trap Memory α) :
    Confined A (fun _ => True) (StoreM.onMemory addr x : StoreM σ α) := by
  intro s holds
  rw [stateAfter_onMemory]
  split
  · exact ⟨holds, .refl s, fun _ _ _ => trivial⟩
  · exact ⟨⟨holds.tables, holds.globals, holds.elems⟩,
      { Instance.Spares.refl s with
        memories := fun a foreign => getElem?_setIfInBounds_of_foreign listed foreign },
      fun _ _ _ => trivial⟩

end Confined

end StoreM

/-! ## Acts -/

namespace Act

/-- An act that keeps to an instance. -/
def Confined (A : Instance) (post : α → Prop) (x : Act σ α) : Prop :=
  ∀ ⦃a : Activation σ⦄, A.Rules a → A.Rules (stateAfter (x a)) ∧
    A.Spares a.store (stateAfter (x a)).store ∧ ∀ v b, x a = .ok v b → post v

namespace Confined

variable {post : α → Prop}

theorem pure {a : α} (known : post a) : Confined A post (Pure.pure a : Act σ α) := by
  intro s rules
  refine ⟨rules, .refl _, fun v b run => ?_⟩
  cases run
  exact known

theorem throw (t : Trap) : Confined A post (MonadExcept.throw t : Act σ α) := by
  intro s rules
  exact ⟨rules, .refl _, fun v b run => (nomatch run)⟩

/-- What has been found by the first part is known to the second one. -/
theorem bind {M : β → Prop} {x : Act σ β} {k : β → Act σ α} (first : Confined A M x)
    (next : ∀ v, M v → Confined A post (k v)) : Confined A post (x >>= k) := by
  intro a rules
  obtain ⟨rules', spares, known⟩ := first rules
  rw [bind_apply]
  cases ran : x a with
  | ok v b =>
    rw [ran] at rules' spares
    obtain ⟨rules'', spares', known'⟩ := next v (known v b ran) rules'
    exact ⟨rules'', spares.trans spares', known'⟩
  | error t b =>
    rw [ran] at rules' spares
    exact ⟨rules', spares, fun v b run => (nomatch run)⟩

/-- What follows an act whose result does not matter. -/
theorem andThen {x : Act σ β} {k : β → Act σ α} (first : Confined A (fun _ => True) x)
    (next : ∀ v, Confined A post (k v)) : Confined A post (x >>= k) :=
  bind first fun v _ => next v

/-- An act that is followed by the next instruction. -/
theorem next {x : Act σ α} (inner : Confined A post x) :
    Confined A A.Leads (do let _ ← x; return Flow.next) :=
  bind inner fun _ _ => pure trivial

theorem ofExcept {r : Except Trap α} (known : ∀ v, r = .ok v → post v) :
    Confined A post (Act.ofExcept r : Act σ α) := by
  intro a rules
  cases r with
  | ok v =>
    refine ⟨rules, .refl _, fun w b run => ?_⟩
    cases run
    exact known v rfl
  | error t => exact ⟨rules, .refl _, fun v b run => (nomatch run)⟩

/-- An operation on the frame alone is confined if it keeps the frame filled with the instance's
own. -/
theorem onFrame {x : FrameM α} (kept : ∀ f, A.Fills f →
    A.Fills (stateAfter (x f)) ∧ ∀ v g, x f = .ok v g → post v) :
    Confined A post (Act.onFrame x : Act σ α) := by
  intro a rules
  obtain ⟨fills, known⟩ := kept a.frame rules.frame
  simp only [Act.onFrame]
  cases ran : x a.frame with
  | ok v g =>
    rw [ran] at fills
    refine ⟨⟨rules.store, fills⟩, .refl _, fun w b run => ?_⟩
    cases run
    exact known v g ran
  | error t g =>
    rw [ran] at fills
    refine ⟨⟨rules.store, fills⟩, .refl _, fun v b run => ?_⟩
    cases run

/-- An act on the frame that moves no value. -/
theorem onControl {x : FrameM α} (kept : ∀ f, (stateAfter (x f)).locals = f.locals ∧
    (stateAfter (x f)).stack = f.stack) : Confined A (fun _ => True) (Act.onFrame x : Act σ α) :=
  onFrame fun f fills => ⟨⟨(kept f).1 ▸ fills.locals, (kept f).2 ▸ fills.stack⟩,
    fun _ _ _ => trivial⟩

theorem push {v : Value} (own : A.Owns v) :
    Confined A (fun _ => True) (Act.onFrame (FrameM.push v) : Act σ Unit) :=
  onFrame fun f fills => by
    refine ⟨⟨fills.locals, fun w mem => ?_⟩, fun _ _ _ => trivial⟩
    rcases Array.mem_push.mp mem with before | rfl
    · exact fills.stack w before
    · exact own

theorem pop : Confined A A.Owns (Act.onFrame FrameM.pop : Act σ Value) :=
  onFrame fun f fills => by
  rw [FrameM.pop_eq]
  cases top : f.stack.back? with
  | none => exact ⟨fills, fun v g run => (nomatch run)⟩
  | some w =>
    refine ⟨⟨fills.locals, fun v mem => fills.stack v (mem_of_mem_pop mem)⟩, fun v g run => ?_⟩
    cases run
    exact fills.stack w (Array.mem_of_back? top)

theorem popNat : Confined A (fun _ => True) (Act.onFrame FrameM.popNat : Act σ Nat) :=
  onFrame fun f fills => by
    rw [FrameM.popNat_eq]
    cases f.stack.back? with
    | none => exact ⟨fills, fun _ _ _ => trivial⟩
    | some w =>
      exact ⟨⟨fills.locals, fun v mem => fills.stack v (mem_of_mem_pop mem)⟩,
        fun _ _ _ => trivial⟩

theorem peek : Confined A A.Owns (Act.onFrame FrameM.peek : Act σ Value) :=
  onFrame fun f fills => by
  unfold FrameM.peek
  split
  · refine ⟨fills, fun v g run => ?_⟩
    cases run
    exact fills.stack _ (Array.back_mem _)
  · exact ⟨fills, fun v g run => (nomatch run)⟩

theorem getLocal (idx : Nat) :
    Confined A A.Owns (Act.onFrame (FrameM.getLocal idx) : Act σ Value) :=
  onFrame fun f fills => by
    unfold FrameM.getLocal
    split
    · next v there =>
      refine ⟨fills, fun w g run => ?_⟩
      cases run
      exact fills.locals v (Array.mem_of_getElem? there)
    · exact ⟨fills, fun v g run => (nomatch run)⟩

theorem setLocal (idx : Nat) {v : Value} (own : A.Owns v) :
    Confined A (fun _ => True) (Act.onFrame (FrameM.setLocal idx v) : Act σ Unit) :=
  onFrame fun f fills => by
    unfold FrameM.setLocal
    split
    · refine ⟨⟨fun w mem => ?_, fills.stack⟩, fun _ _ _ => trivial⟩
      rcases Array.mem_or_eq_of_mem_setIfInBounds mem with before | rfl
      · exact fills.locals w before
      · exact own
    · exact ⟨fills, fun _ _ _ => trivial⟩

theorem pushLabel (arity target params : Nat) :
    Confined A (fun _ => True)
      (Act.onFrame (FrameM.pushLabel arity target params) : Act σ Unit) :=
  onControl fun f => by
    unfold FrameM.pushLabel
    split <;> exact ⟨rfl, rfl⟩

theorem popLabel : Confined A (fun _ => True) (Act.onFrame FrameM.popLabel : Act σ Unit) :=
  onControl fun f => by
    unfold FrameM.popLabel
    split <;> exact ⟨rfl, rfl⟩

theorem jump (pc : Nat) :
    Confined A (fun _ => True) (Act.onFrame (FrameM.jump pc) : Act σ Unit) :=
  onControl fun _ => ⟨rfl, rfl⟩

/-- A branch drops operands and moves others. -/
theorem branch (depth : Nat) :
    Confined A (fun _ => True) (Act.onFrame (FrameM.branch depth) : Act σ Unit) :=
  onFrame fun f fills => by
    refine ⟨?_, fun _ _ _ => trivial⟩
    unfold FrameM.branch
    split
    · exact fills
    · split
      · refine ⟨fills.locals, fun v mem => ?_⟩
        rcases Array.mem_append.mp mem with below | kept
        · exact fills.stack v (mem_of_mem_shrink below)
        · exact fills.stack v (mem_of_mem_extract kept)
      · exact fills

/-- A return drops labels and operands, and adds none. -/
theorem ret : Confined A (fun _ => True) (Act.onFrame FrameM.ret : Act σ Unit) := by
  intro a rules
  unfold FrameM.ret
  by_cases outside : a.frame.labels.isEmpty
  · simp only [Act.onFrame, outside, if_true]
    exact ⟨rules, .refl _, fun _ _ _ => trivial⟩
  · have kept := branch (A := A) (a.frame.labels.length - 1) rules
    simp only [Act.onFrame, outside] at kept ⊢
    exact kept

theorem onStore {x : StoreM σ α} (confined : StoreM.Confined A post x) :
    Confined A post (Act.onStore x) := by
  intro a rules
  obtain ⟨holds, spares, known⟩ := confined rules.store
  simp only [Act.onStore]
  cases ran : x a.store with
  | ok v s =>
    rw [ran] at holds spares
    refine ⟨⟨holds, rules.frame⟩, spares, fun w b run => ?_⟩
    cases run
    exact known v s ran
  | error t s =>
    rw [ran] at holds spares
    refine ⟨⟨holds, rules.frame⟩, spares, fun v b run => ?_⟩
    cases run

theorem onTable {addr : Nat} {x : EStateM Trap Table α} (listed : addr ∈ A.tables)
    (retains : Table.Retains A.Owns post x) : Confined A post (Act.onTable addr x : Act σ α) :=
  onStore (.onTable listed retains)

theorem onMemory {addr : Nat} (listed : addr ∈ A.memories) (x : EStateM Trap Memory α) :
    Confined A (fun _ => True) (Act.onMemory addr x : Act σ α) :=
  onStore (.onMemory listed x)

/-- A look at the store whose result does not matter. -/
theorem gets (f : Store σ → Except Trap α) :
    Confined A (fun _ => True) (Act.onStore (StoreM.gets f)) :=
  onStore (.gets fun _ _ _ _ => trivial)

/-! ### Groups of instructions -/

/-- The table of an instruction is looked up in the instance, and so it is listed. -/
theorem table (idx : TableIdx) : Confined A (· ∈ A.tables) (Act.table A idx : Act σ Nat) :=
  bind (.ofExcept fun _ => Instance.addrOf_mem) fun _ listed =>
    andThen (.gets _) fun _ => .pure listed

/-- So is its memory. -/
theorem memory (idx : MemIdx) : Confined A (· ∈ A.memories) (Act.memory A idx : Act σ Nat) :=
  bind (.ofExcept fun _ => Instance.memAddr_mem) fun _ listed =>
    andThen (.gets _) fun _ => .pure listed

theorem popAddr (arg : MemArg) : Confined A (fun _ => True) (Act.popAddr arg : Act σ Nat) :=
  andThen .popNat fun _ => .pure trivial

theorem read (pos count : Nat) :
    Confined A (fun _ => True) (Act.read A pos count : Act σ (List UInt8)) :=
  bind (.ofExcept fun _ => Instance.memAddr_mem) fun _ listed => .onMemory listed _

theorem write (pos : Nat) (bs : List UInt8) :
    Confined A (fun _ => True) (Act.write A pos bs : Act σ Unit) :=
  bind (.ofExcept fun _ => Instance.memAddr_mem) fun _ listed => .onMemory listed _

theorem popBulk : Confined A (fun _ => True) (Act.popBulk : Act σ Bulk) :=
  andThen .popNat fun _ => andThen .popNat fun _ => andThen .popNat fun _ => .pure trivial

/-- A numeric instruction pushes a number, or traps. -/
theorem numeric (op : NumericOp) : Confined A (fun _ => True) (Act.numeric op : Act σ Unit) := by
  have scalar := op.func_scalar
  unfold Act.numeric
  cases func : op.func with
  | unary f =>
    rw [func] at scalar
    exact bind .pop fun a _ => bind (.ofExcept (scalar a)) fun _ number => .push (.number number)
  | binary f =>
    rw [func] at scalar
    exact bind .pop fun b _ => bind .pop fun a _ =>
      bind (.ofExcept (scalar a b)) fun _ number => .push (.number number)

/-- Of the vector instructions that do not forge, one stores and one pushes a number. -/
theorem vector {op : UInt32} {imm : VectorImm}
    (honest : Instr.isForging (.vector op imm) = false) :
    Confined A (fun _ => True) (Act.vector A op imm : Act σ Unit) := by
  unfold Act.vector
  split
  case h_2 => exact bind .pop fun _ _ => andThen (.popAddr _) fun _ => write _ _
  case h_3 v => exact .push (.number (by simpa [Instr.isForging] using honest))
  case h_11 => exact .throw _
  all_goals exact absurd honest (by simp [Instr.isForging])

/-- An indirect call finds its function in a table of the instance, whose references are the
instance's own. This is where they must not be forged. -/
theorem indirect (small : ∀ a ∈ A.funcs, a < UInt64.size) (type : TypeIdx) (idx : TableIdx) :
    Confined A (· ∈ A.funcs) (Act.indirect A type idx : Act σ Nat) := by
  refine andThen (.ofExcept fun _ _ => trivial) fun expected =>
    bind (.table idx) fun addr listed =>
    andThen .popNat fun slot => bind (.onTable listed (.get? slot)) fun found own => ?_
  cases found with
  | none => exact .throw _
  | some v =>
    dsimp only
    cases denotes : v.funcAddr? with
    | none => exact .throw _
    | some a =>
      have own' : a ∈ A.funcs := (own v rfl).funcAddr small denotes
      refine andThen (.gets _) fun func => ?_
      split
      · exact andThen (.throw _) fun _ => .pure own'
      · exact .pure own'

/-- A copy between tables of the instance moves its own values. -/
theorem tableCopy (dst src : TableIdx) :
    Confined A (fun _ => True) (Act.tableCopy A dst src : Act σ Unit) := by
  refine andThen .popBulk fun b => bind (.ofExcept fun _ => Instance.addrOf_mem)
    fun dstAddr listed =>
    bind (.ofExcept fun _ => Instance.addrOf_mem) fun srcAddr listed' => ?_
  split
  · exact .onTable listed (.copy _ _ _)
  · exact bind (.onTable listed' (.read _ _)) fun _ own => .onTable listed (.write _ own)

/-- Element segments of the instance hold its own values. -/
theorem tableInit (segment : ElemIdx) (idx : TableIdx) :
    Confined A (fun _ => True) (Act.tableInit A segment idx : Act σ Unit) := by
  refine andThen .popBulk fun b => bind (.ofExcept fun _ => Instance.addrOf_mem)
    fun source listed =>
    bind (M := fun vs => ∀ v ∈ vs, A.Owns v) (.onStore (.gets fun s holds vs found => ?_))
      fun vs own =>
      bind (.ofExcept fun _ => Instance.addrOf_mem) fun _ listed' =>
        .onTable listed' (.write _ own)
  split at found
  · next e there =>
    split at found <;> cases found
    next taken =>
    unfold sublist? at taken
    split at taken <;> cases taken
    exact fun v mem => holds.elems source listed e there v
      (List.mem_of_mem_drop (List.mem_of_mem_take mem))
  · cases found

theorem memoryInit (segment : DataIdx) (idx : MemIdx) :
    Confined A (fun _ => True) (Act.memoryInit A segment idx : Act σ Unit) :=
  andThen .popBulk fun _ => bind (.ofExcept fun _ => Instance.memAddr_mem) fun _ listed =>
    andThen (.ofExcept fun _ _ => trivial) fun _ =>
      andThen (.gets _) fun _ => .onMemory listed _

end Confined

end Act

/-! ## All instructions -/

open Act.Confined in
/-- An instruction that is not forging keeps to its instance. -/
theorem Instr.exec_confined (small : ∀ a ∈ A.funcs, a < UInt64.size) {i : Instr}
    (honest : i.isForging = false) : Act.Confined A A.Leads (i.exec A : Act σ Flow) := by
  cases i with
  | unreachable => exact throw _
  | nop => exact pure trivial
  | block | loop => exact andThen (.ofExcept fun _ _ => trivial) fun _ => next (.pushLabel _ _ _)
  | ifThen type target elseTarget =>
    refine andThen .popNat fun cond => andThen (.ofExcept fun _ _ => trivial) fun arity => ?_
    dsimp only
    split
    · exact next (.pushLabel _ _ _)
    · split
      · exact next (.jump _)
      · exact andThen (.pushLabel _ _ _) fun _ => next (.jump _)
  | elseArm target => exact andThen .popLabel fun _ => next (.jump _)
  | endOf => exact next .popLabel
  | br l => exact next (.branch _)
  | brIf l =>
    refine andThen .popNat fun cond => ?_
    split
    · exact next (.branch _)
    · exact pure trivial
  | brTable ls fallback => exact andThen .popNat fun _ => next (.branch _)
  | ret => exact next .ret
  | call f => exact bind (.ofExcept fun _ => Instance.addrOf_mem) fun _ listed => .pure listed
  | callIndirect type table => exact bind (.indirect small _ _) fun _ listed => .pure listed
  | refNull type => exact next (.push .null)
  | refIsNull => exact bind .pop fun _ _ => next (.push (.number rfl))
  | refFunc f =>
    exact bind (.ofExcept fun _ => Instance.addrOf_mem) fun _ listed =>
      next (.push (.funcRef listed))
  | drop => exact next .pop
  | select | selectTyped =>
    refine andThen .popNat fun cond => bind .pop fun b own => bind .pop fun a own' =>
      next (.push ?_)
    split
    · exact own'
    · exact own
  | localGet i => exact bind (.getLocal _) fun _ own => next (.push own)
  | localSet i => exact bind .pop fun _ own => next (.setLocal _ own)
  | localTee i => exact bind .peek fun _ own => next (.setLocal _ own)
  | globalGet i =>
    exact bind (.ofExcept fun _ => Instance.addrOf_mem) fun _ listed =>
      bind (.onStore (.getGlobal listed)) fun _ own => next (.push own)
  | globalSet i =>
    exact bind (.ofExcept fun _ => Instance.addrOf_mem) fun _ listed =>
      bind .pop fun _ own => next (.onStore (.setGlobal listed own))
  | tableGet t =>
    refine bind (.table t) fun addr listed => andThen .popNat fun slot =>
      bind (.onTable listed (.get? slot)) fun found own => ?_
    cases found with
    | none => exact andThen (.throw _) fun _ => .pure trivial
    | some v => exact next (.push (own v rfl))
  | tableSet t =>
    exact bind (.table t) fun _ listed => bind .pop fun _ own => andThen .popNat fun _ =>
      next (.onTable listed (.set _ own))
  | tableInit segment t => exact next (.tableInit _ _)
  | elemDrop segment =>
    exact bind (.ofExcept fun _ => Instance.addrOf_mem) fun _ listed =>
      next (.onStore (.dropElem listed))
  | tableCopy dst src => exact next (.tableCopy _ _)
  | tableGrow t =>
    exact bind (.table t) fun _ listed => andThen .popNat fun _ => bind .pop fun _ own =>
      andThen (.onTable listed (.grow _ own)) fun _ => next (.push (.number rfl))
  | tableSize t =>
    exact bind (.table t) fun _ listed =>
      andThen (.onTable listed (.look fun _ _ => trivial)) fun _ =>
      next (.push (.number (Value.hi_ofSize _)))
  | tableFill t =>
    exact bind (.table t) fun _ listed => andThen .popNat fun _ => bind .pop fun _ own =>
      andThen .popNat fun _ => next (.onTable listed (.fill _ own _))
  | load op arg =>
    exact andThen (.popAddr _) fun _ => andThen (.read _ _) fun _ =>
      next (.push (.number (LoadOp.hi_value _ _)))
  | store op arg => exact bind .pop fun _ _ => andThen (.popAddr _) fun _ => next (.write _ _)
  | memorySize m =>
    exact bind (.memory m) fun _ listed => andThen (.onMemory listed _) fun _ =>
      next (.push (.number (Value.hi_ofSize _)))
  | memoryGrow m =>
    exact bind (.memory m) fun _ listed => andThen .popNat fun _ =>
      andThen (.onMemory listed _) fun _ => next (.push (.number (Value.hi_ofSize _)))
  | memoryInit segment m => exact next (.memoryInit _ _)
  | dataDrop segment =>
    exact bind (.ofExcept fun _ => Instance.addrOf_mem) fun _ listed =>
      next (.onStore (.dropData listed))
  | memoryCopy dst src =>
    exact andThen (.ofExcept fun _ _ => trivial) fun _ => bind (.memory dst) fun _ listed =>
      andThen .popBulk fun _ => next (.onMemory listed _)
  | memoryFill m =>
    exact bind (.memory m) fun _ listed => andThen .popNat fun _ => bind .pop fun _ _ =>
      andThen .popNat fun _ => next (.onMemory listed _)
  | i32Const | i64Const | f32Const | f64Const => exact next (.push (.number rfl))
  | numeric op => exact next (.numeric op)
  | vector op imm => exact next (.vector honest)

end WasmMachine
