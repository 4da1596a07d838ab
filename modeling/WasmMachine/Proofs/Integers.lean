import Mathlib.Algebra.Group.Int.Defs
import Mathlib.Algebra.Group.Nat.Defs
import WasmMachine.Proofs.MemoryAccess

/-!
# Integer instructions

The integer instructions compute with numbers: the low bits of an operand are read as a number,
with a sign or without one (`Value.unsigned`, `Value.signed`), and a result is a number that is
reduced to the width (`Value.ofInt`).  `NumericOp.Gives` says what an instruction makes of its
operands on any machine.  What it computes is that of an operation on words, which is said of
numbers first, for words of any width (`Words`).  The instructions of a kind are then a structure
with a field for each, for both widths, and `NumericOp.integers_exact` puts the kinds together.
-/

namespace WasmMachine

variable {σ : Type} {n : Nat}

/-! ## Operations on words, as numbers -/

namespace Words

/-- A word is its number, reduced. -/
theorem eq_ofInt_toNat (x : BitVec n) : x = .ofInt n x.toNat := by
  rw [BitVec.ofInt_natCast]
  simp

/-- To know a word it is enough to know its number up to the width. -/
theorem eq_ofInt_of_toNat {x : BitVec n} {i : Int} (same : (x.toNat : Int) = i % 2 ^ n) :
    x = .ofInt n i := by
  apply BitVec.eq_of_toNat_eq
  rw [BitVec.toNat_ofInt, Int.natCast_pow, Int.cast_ofNat_Int, ← same]
  rfl

theorem add_eq (a b : BitVec n) : a + b = .ofInt n (a.toNat + b.toNat) := by
  rw [BitVec.ofInt_add, ← eq_ofInt_toNat, ← eq_ofInt_toNat]

/-- A difference is taken of integers, so that one that is negative wraps around. -/
theorem sub_eq (a b : BitVec n) : a - b = .ofInt n (a.toNat - b.toNat) := by
  rw [Int.sub_eq_add_neg, BitVec.ofInt_add, BitVec.ofInt_neg, ← eq_ofInt_toNat, ← eq_ofInt_toNat,
    BitVec.sub_eq_add_neg]

theorem mul_eq (a b : BitVec n) : a * b = .ofInt n (a.toNat * b.toNat) := by
  rw [BitVec.ofInt_mul, ← eq_ofInt_toNat, ← eq_ofInt_toNat]

/-- A shift to the left multiplies; a shift to the right divides, and rounds down. -/
theorem shiftLeft_eq (a : BitVec n) (k : Nat) : a <<< k = .ofInt n (a.toNat * 2 ^ k : Nat) := by
  refine eq_ofInt_of_toNat ?_
  rw [BitVec.toNat_shiftLeft, Nat.shiftLeft_eq, Int.natCast_emod, Int.natCast_pow 2 n]
  rfl

theorem shiftRight_eq (a : BitVec n) (k : Nat) : a >>> k = .ofInt n (a.toNat / 2 ^ k : Nat) := by
  rw [eq_ofInt_toNat (a >>> k), BitVec.toNat_ushiftRight, Nat.shiftRight_eq_div_pow]

/-- The shift that keeps the sign rounds down too, so that it is no truncated quotient. -/
theorem sshiftRight_eq (a : BitVec n) (k : Nat) :
    a.sshiftRight k = .ofInt n (a.toInt.fdiv (2 ^ k : Nat)) := by
  rw [← BitVec.ofInt_toInt (x := a.sshiftRight k), BitVec.toInt_sshiftRight,
    Int.shiftRight_eq_div_pow, Int.fdiv_eq_ediv_of_nonneg _ (Int.natCast_nonneg _)]

/-- The two parts of a rotation share no bit, so that putting them together adds them. -/
theorem or_wrapped {x j k : Nat} (small : x < 2 ^ (j + k)) :
    x * 2 ^ j % 2 ^ (j + k) ||| x / 2 ^ k = (x * 2 ^ j + x / 2 ^ k) % 2 ^ (j + k) := by
  rw [Nat.pow_add] at *
  have low : x / 2 ^ k < 2 ^ j := Nat.div_lt_of_lt_mul (Nat.mul_comm .. ▸ small)
  have high : x * 2 ^ j % (2 ^ j * 2 ^ k) = 2 ^ j * (x % 2 ^ k) := by
    rw [Nat.mul_comm x, Nat.mul_mod_mul_left]
  have top := Nat.mul_le_mul_left (2 ^ j) (Nat.mod_lt x (Nat.two_pow_pos k))
  have bound : 2 ^ j * (x % 2 ^ k) + x / 2 ^ k < 2 ^ j * 2 ^ k := by
    rw [Nat.succ_eq_add_one, Nat.mul_add] at top
    omega
  have inside : x / 2 ^ k < 2 ^ j * 2 ^ k := by omega
  rw [high, ← Nat.two_pow_add_eq_or_of_lt low, Nat.add_mod, high, Nat.mod_eq_of_lt inside,
    Nat.mod_eq_of_lt bound]

/-- A rotation multiplies, and adds what has been pushed out on the other side. -/
theorem rotateLeft_eq (a : BitVec n) {k : Nat} (inside : k < n) :
    a.rotateLeft k = .ofInt n (a.toNat * 2 ^ k + a.toNat / 2 ^ (n - k) : Nat) := by
  have whole : k + (n - k) = n := Nat.add_sub_cancel' (Nat.le_of_lt inside)
  have joined := or_wrapped (x := a.toNat) (j := k) (k := n - k) (whole.symm ▸ a.isLt)
  rw [whole] at joined
  refine eq_ofInt_of_toNat ?_
  rw [BitVec.toNat_rotateLeft, Nat.mod_eq_of_lt inside, Nat.shiftLeft_eq,
    Nat.shiftRight_eq_div_pow, joined, Int.natCast_emod, Int.natCast_pow 2 n]
  rfl

theorem rotateRight_eq (a : BitVec n) {k : Nat} (inside : k < n) :
    a.rotateRight k = .ofInt n (a.toNat * 2 ^ (n - k) + a.toNat / 2 ^ k : Nat) := by
  have whole : n - k + k = n := Nat.sub_add_cancel (Nat.le_of_lt inside)
  have joined := or_wrapped (x := a.toNat) (j := n - k) (k := k) (whole.symm ▸ a.isLt)
  rw [whole] at joined
  refine eq_ofInt_of_toNat ?_
  rw [BitVec.toNat_rotateRight, Nat.mod_eq_of_lt inside, Nat.shiftLeft_eq,
    Nat.shiftRight_eq_div_pow, Nat.or_comm, joined, Int.natCast_emod, Int.natCast_pow 2 n]
  rfl

/-- A rotation is undone by that to the other side. -/
theorem rotateRight_rotateLeft (a : BitVec n) {k : Nat} (inside : k < n) :
    (a.rotateLeft k).rotateRight k = a := by
  apply BitVec.eq_of_getLsbD_eq
  intro i lt
  rw [BitVec.getLsbD_rotateRight, BitVec.getLsbD_rotateLeft, BitVec.getLsbD_rotateLeft,
    Nat.mod_eq_of_lt inside]
  by_cases low : i < n - k
  · have above : ¬k + i < k := by omega
    have within : k + i < n := by omega
    simp [low, above, within]
  · have below : i - (n - k) < k := by omega
    have back : n - k + (i - (n - k)) = i := by omega
    simp [low, below, back, lt]

/-! ### Counts -/

theorem toNat_width : ((n : BitVec n)).toNat = n := by
  rw [BitVec.natCast_eq_ofNat, BitVec.toNat_ofNat, Nat.mod_eq_of_lt Nat.lt_two_pow_self]

/-- Leading zeros -/
theorem clz_exact (a : BitVec n) : a.clz.toNat ≤ n ∧
    (∀ i, n - a.clz.toNat ≤ i → a.toNat.testBit i = false) ∧
    (a.clz.toNat < n → a.toNat.testBit (n - 1 - a.clz.toNat) = true) := by
  have most : a.clz.toNat ≤ n := by
    have le := BitVec.clz_le (x := a)
    rwa [BitVec.le_def, toNat_width] at le
  refine ⟨most, fun i above => ?_, fun some_ => ?_⟩
  · exact Nat.testBit_lt_two_pow (Nat.lt_of_lt_of_le BitVec.toNat_lt_two_pow_sub_clz
      (Nat.pow_le_pow_right (by decide) above))
  · have nonzero : a ≠ 0#n := fun zero => by
      rw [BitVec.clz_eq_iff_eq_zero.mpr zero, toNat_width] at some_
      exact Nat.lt_irrefl n some_
    exact BitVec.getLsbD_true_clz_of_ne_zero (by omega) nonzero

/-- The zeros below are counted up to the lowest bit that is set, or all bits if none is. -/
theorem ctz_exact (a : BitVec n) : a.ctz.toNat ≤ n ∧
    (∀ i < a.ctz.toNat, a.toNat.testBit i = false) ∧
    (a.ctz.toNat < n → a.toNat.testBit a.ctz.toNat = true) := by
  refine ⟨?_, fun i below => BitVec.getLsbD_false_of_lt_ctz below, fun some_ => ?_⟩
  · have le := BitVec.clz_le (x := a.reverse)
    rwa [BitVec.le_def, toNat_width] at le
  · have nonzero : a ≠ 0#n := BitVec.ctz_lt_iff_ne_zero.mp (by rwa [BitVec.lt_def, toNat_width])
    exact BitVec.getLsbD_true_ctz_of_ne_zero nonzero

/-- The ones are counted place by place, by induction on how many places have been counted. -/
theorem cpopNatRec_eq_countP (a : BitVec n) (k : Nat) :
    a.cpopNatRec k 0 = (List.range k).countP a.toNat.testBit := by
  induction k with
  | zero => rfl
  | succ k ih =>
    rw [BitVec.cpopNatRec_succ, BitVec.cpopNatRec_add, ih, List.range_succ, List.countP_append,
      List.countP_singleton]
    change _ + (a.toNat.testBit k).toNat = _
    cases a.toNat.testBit k <;> rfl

/-- The number of places whose bit is set. -/
theorem cpop_exact (a : BitVec n) : a.cpop.toNat = (List.range n).countP a.toNat.testBit := by
  rw [BitVec.toNat_cpop, cpopNatRec_eq_countP]

end Words

/-! ## Operands and results as numbers -/

namespace Value

/-- The low bits of a value as a number. -/
def unsigned (v : Value) (w : Width) : Nat := v.lo.toNat % 2 ^ w.bits

/-- The low bits of a value as a number in two's complement. -/
def signed (v : Value) (w : Width) : Int := Int.bmod v.lo.toNat (2 ^ w.bits)

/-- The low bits of a value as a number, with a sign or without one. -/
def number (v : Value) (w : Width) : Sign → Int
  | .signed => v.signed w
  | .unsigned => v.unsigned w

/-- The value of a number that is reduced to a width: nothing stands above its low bits. -/
def ofInt (w : Width) (i : Int) : Value := ⟨.ofNat (i % 2 ^ w.bits).toNat, 0⟩

variable {w : Width}

theorem toNat_bits (v : Value) (w : Width) : (v.bits w).toNat = v.unsigned w := by
  cases w with
  | w32 => exact UInt64.toNat_toUInt32 v.lo
  | w64 => exact (Nat.mod_eq_of_lt v.lo.toNat_lt).symm

theorem toInt_bits (v : Value) (w : Width) : (v.bits w).toInt = v.signed w := by
  rw [BitVec.toInt_eq_toNat_bmod, toNat_bits, unsigned, signed, Int.natCast_emod, Int.emod_bmod]

/-- The signed number follows from the unsigned one. -/
theorem signed_congr {a b : Value} (low : a.unsigned w = b.unsigned w) :
    a.signed w = b.signed w := by
  have same : a.bits w = b.bits w := BitVec.eq_of_toNat_eq (by rw [toNat_bits, toNat_bits, low])
  rw [← toInt_bits, ← toInt_bits, same]

/-- A value that is made of a word is known by the number of the word. -/
theorem ofBits_eq {x : BitVec w.bits} {i : Int} (same : x = .ofInt w.bits i) :
    ofBits w x = ofInt w i := by
  have number : x.toNat = (i % 2 ^ w.bits).toNat := by
    rw [same, BitVec.toNat_ofInt, Int.natCast_pow]
    rfl
  rw [ofInt, ← number]
  cases w with
  | w32 =>
    have lo : (UInt32.ofBitVec x).toUInt64 = .ofNat x.toNat := by
      apply UInt64.toNat_inj.mp
      rw [UInt32.toNat_toUInt64, UInt64.toNat_ofNat',
        Nat.mod_eq_of_lt (Nat.lt_trans x.isLt (by decide))]
      rfl
    exact congrArg (Value.mk · 0) lo
  | w64 => exact congrArg (Value.mk · 0) (UInt64.toNat_inj.mp (Nat.mod_eq_of_lt x.isLt).symm)

/-- Nothing stands above the low bits of a result. -/
theorem lo_ofInt (w : Width) (i : Int) : ((ofInt w i).lo.toNat : Int) = i % 2 ^ w.bits := by
  have positive : (0 : Int) < 2 ^ w.bits := Int.pow_pos (by decide)
  have low := Int.emod_nonneg i (Int.ne_of_gt positive)
  have high := Int.emod_lt_of_pos i positive
  have room : (2 : Int) ^ w.bits ≤ 2 ^ 64 := by cases w <;> decide
  have number : (ofInt w i).lo.toNat = (i % 2 ^ w.bits).toNat % 2 ^ 64 := UInt64.toNat_ofNat'
  rw [number]
  omega

theorem bits_ofBits (w : Width) (x : BitVec w.bits) : (ofBits w x).bits w = x := by
  cases w with
  | w32 => exact congrArg UInt32.toBitVec (UInt32.toUInt32_toUInt64 (.ofBitVec x))
  | w64 => rfl

end Value

/-! ## Numeric instructions on a machine -/

/-- On every machine whose innermost frame has these operands on top, a numeric instruction
replaces them by a value or traps, and changes nothing else. -/
def NumericOp.Gives (σ : Type) (op : NumericOp) (operands : List Value)
    (r : Except Trap Value) : Prop :=
  ∀ ⦃m : Machine σ⦄ ⦃outer : Array Frame⦄ ⦃f : Frame⦄ ⦃inst : Instance⦄ ⦃rest : Array Value⦄,
    m.frames = outer.push f → m.instances[f.inst]? = some inst → f.stack = rest ++ operands →
      Run.dispatch (.numeric op) m = match r with
        | .ok v => some (.ok .next, m.passed outer f (rest.push v))
        | .error t => some (.error (.trap t), m.passed outer f rest)

namespace NumericOp

variable {op : NumericOp}

/-- A numeric instruction on one operand: it pops the operand even when it traps. -/
theorem exec_unary {g : Value → Except Trap Value} (func : op.func = .unary g) {f : Frame}
    {rest : Array Value} {a : Value} (operand : f.stack = rest.push a) (inst : Instance)
    (s : Store σ) :
    (Instr.numeric op).exec inst ⟨f, s⟩ = match g a with
      | .ok v => .ok .next ⟨{ f with stack := rest.push v }, s⟩
      | .error t => .error t ⟨{ f with stack := rest }, s⟩ := by
  have popped := Act.pop_push operand s
  have pushed (v : Value) : Act.onFrame (FrameM.push v) ⟨{ f with stack := rest }, s⟩
      = .ok () ⟨{ f with stack := rest.push v }, s⟩ := rfl
  cases made : g a <;> simp [Instr.exec, Act.numeric, func, popped, made, pushed, Act.ofExcept]

/-- The same on two operands, the second of which is on top. -/
theorem exec_binary {g : Value → Value → Except Trap Value}
    (func : op.func = .binary g) {f : Frame}
    {rest : Array Value} {a b : Value} (operands : f.stack = (rest.push a).push b)
    (inst : Instance)
    (s : Store σ) :
    (Instr.numeric op).exec inst ⟨f, s⟩ = match g a b with
      | .ok v => .ok .next ⟨{ f with stack := rest.push v }, s⟩
      | .error t => .error t ⟨{ f with stack := rest }, s⟩ := by
  have second := Act.pop_push operands s
  have first : Act.onFrame FrameM.pop ⟨{ f with stack := rest.push a }, s⟩
      = .ok a ⟨{ f with stack := rest }, s⟩ := Act.pop_push rfl s
  have pushed (v : Value) : Act.onFrame (FrameM.push v) ⟨{ f with stack := rest }, s⟩
      = .ok () ⟨{ f with stack := rest.push v }, s⟩ := rfl
  cases made : g a b <;> simp [Instr.exec, Act.numeric, func, second, first, made, pushed,
    Act.ofExcept]

/-- What an instruction on one operand makes of it is what its table says, on any machine. -/
theorem gives_unary (op : NumericOp) {g : Value → Except Trap Value} (func : op.func = .unary g)
    (a : Value) :
    op.Gives σ [a] (g a) := by
  intro m outer f inst rest top found operands
  rw [Run.dispatch_within _ top found, exec_unary func (f := { f with pc := f.pc + 1 }) operands]
  cases g a <;> rfl

/-- The same for two operands. -/
theorem gives_binary (op : NumericOp) {g : Value → Value → Except Trap Value}
    (func : op.func = .binary g) (a b : Value) :
    op.Gives σ [a, b] (g a b) := by
  intro m outer f inst rest top found operands
  rw [Run.dispatch_within _ top found, exec_binary func (f := { f with pc := f.pc + 1 }) operands]
  cases g a b <;> rfl

variable {w : Width} {a b : Value} {t : Trap} {i : Int}

/-- An operation on words is known by the number that it comes to. -/
theorem gives_intBinary {op : IntBinary} {x : BitVec w.bits}
    (eval : op.eval (a.bits w) (b.bits w) = .ok x)
    (same : x = .ofInt w.bits i) :
    (NumericOp.intBinary w op).Gives σ [a, b] (.ok (.ofInt w i)) := by
  have given := gives_binary (σ := σ) (.intBinary w op) rfl a b
  rw [eval] at given
  rw [← Value.ofBits_eq same]
  exact given

/-- An operation on words that traps does so whatever is above the width. -/
theorem gives_trap {op : IntBinary} (eval : op.eval (a.bits w) (b.bits w) = .error t) :
    (NumericOp.intBinary w op).Gives σ [a, b] (.error t) := by
  have given := gives_binary (σ := σ) (.intBinary w op) rfl a b
  rw [eval] at given
  exact given

theorem gives_intCompare {op : IntCompare} {c : Bool} (eval : op.eval (a.bits w) (b.bits w) = c) :
    (NumericOp.intCompare w op).Gives σ [a, b] (.ok (.ofBool c)) :=
  eval ▸ gives_binary (σ := σ) (.intCompare w op) rfl a b

theorem gives_value {g : Value → Except Trap Value} {x : BitVec w.bits}
    (func : op.func = .unary g)
    (made : g a = .ok (.ofBits w x)) (same : x = .ofInt w.bits i) :
    op.Gives σ [a] (.ok (.ofInt w i)) := by
  rw [← Value.ofBits_eq same, ← made]
  exact gives_unary op func a

/-! ## Sums, products and bits -/

section Kinds

variable (σ : Type) (w : Width)

/-- Sums, differences and products are reduced to the width. -/
structure Arithmetic : Prop where
  add (a b : Value) :
    (NumericOp.intBinary w .add).Gives σ [a, b] (.ok (.ofInt w (a.unsigned w + b.unsigned w)))
  sub (a b : Value) :
    (NumericOp.intBinary w .sub).Gives σ [a, b] (.ok (.ofInt w (a.unsigned w - b.unsigned w)))
  mul (a b : Value) :
    (NumericOp.intBinary w .mul).Gives σ [a, b] (.ok (.ofInt w (a.unsigned w * b.unsigned w)))
  and (a b : Value) : (NumericOp.intBinary w .and).Gives σ [a, b]
    (.ok (.ofInt w ((a.unsigned w &&& b.unsigned w : Nat) : Int)))
  or (a b : Value) : (NumericOp.intBinary w .or).Gives σ [a, b]
    (.ok (.ofInt w ((a.unsigned w ||| b.unsigned w : Nat) : Int)))
  xor (a b : Value) : (NumericOp.intBinary w .xor).Gives σ [a, b]
    (.ok (.ofInt w ((a.unsigned w ^^^ b.unsigned w : Nat) : Int)))

/-- Sums, differences, products, and operations bit by bit. -/
theorem arithmetic : Arithmetic σ w where
  add a b := gives_intBinary rfl (by rw [Words.add_eq, Value.toNat_bits, Value.toNat_bits])
  sub a b := gives_intBinary rfl (by rw [Words.sub_eq, Value.toNat_bits, Value.toNat_bits])
  mul a b := gives_intBinary rfl (by rw [Words.mul_eq, Value.toNat_bits, Value.toNat_bits])
  and a b := gives_intBinary rfl (by
    rw [Words.eq_ofInt_toNat (_ &&& _), BitVec.toNat_and, Value.toNat_bits, Value.toNat_bits])
  or a b := gives_intBinary rfl (by
    rw [Words.eq_ofInt_toNat (_ ||| _), BitVec.toNat_or, Value.toNat_bits, Value.toNat_bits])
  xor a b := gives_intBinary rfl (by
    rw [Words.eq_ofInt_toNat (_ ^^^ _), BitVec.toNat_xor, Value.toNat_bits, Value.toNat_bits])

/-! ## Quotients and remainders -/

/-- A quotient is rounded toward zero, and the remainder has the sign of the dividend. Division by
zero traps, and so does the one quotient that does not exist; its remainder does. -/
structure Division : Prop where
  by_zero (sign : Sign) {a b : Value} (zero : b.unsigned w = 0) :
    (NumericOp.intBinary w (.div sign)).Gives σ [a, b] (.error .divideByZero) ∧
      (NumericOp.intBinary w (.rem sign)).Gives σ [a, b] (.error .divideByZero)
  unsigned {a b : Value} (nonzero : b.unsigned w ≠ 0) : ∃ q r : Nat,
    (NumericOp.intBinary w (.div .unsigned)).Gives σ [a, b] (.ok (.ofInt w q)) ∧
      (NumericOp.intBinary w (.rem .unsigned)).Gives σ [a, b] (.ok (.ofInt w r)) ∧
      a.unsigned w = q * b.unsigned w + r ∧ r < b.unsigned w
  signed {a b : Value} (nonzero : b.unsigned w ≠ 0)
      (proper : ¬(a.signed w = -2 ^ (w.bits - 1) ∧ b.signed w = -1)) : ∃ q r : Int,
    (NumericOp.intBinary w (.div .signed)).Gives σ [a, b] (.ok (.ofInt w q)) ∧
      (NumericOp.intBinary w (.rem .signed)).Gives σ [a, b] (.ok (.ofInt w r)) ∧
      a.signed w = q * b.signed w + r ∧ q = (a.signed w).tdiv (b.signed w) ∧
      (-2 ^ (w.bits - 1) ≤ q ∧ q < 2 ^ (w.bits - 1)) ∧
      r.natAbs < (b.signed w).natAbs ∧ (r = 0 ∨ r.sign = (a.signed w).sign)
  overflow {a b : Value} (least : a.signed w = -2 ^ (w.bits - 1)) (minus_one : b.signed w = -1) :
    (NumericOp.intBinary w (.div .signed)).Gives σ [a, b] (.error .integerOverflow) ∧
      (NumericOp.intBinary w (.rem .signed)).Gives σ [a, b] (.ok (.ofInt w 0))

variable {w} in
theorem bits_eq_zero_iff : b.bits w = 0 ↔ b.unsigned w = 0 := by
  rw [← Value.toNat_bits, ← BitVec.toNat_inj]
  rfl

variable {w} in
/-- The least signed number is a word of its own, by which the quotient that overflows is told. -/
theorem bits_eq_intMin_iff :
    a.bits w = BitVec.intMin w.bits ↔ a.signed w = -2 ^ (w.bits - 1) := by
  have positive : 0 < w.bits := by cases w <;> decide
  rw [← Value.toInt_bits, ← BitVec.toInt_inj, BitVec.toInt_intMin_of_pos positive]

variable {w} in
theorem bits_eq_minus_one_iff : b.bits w = -1 ↔ b.signed w = -1 := by
  have minus_one : (-1 : BitVec w.bits).toInt = -1 := by cases w <;> decide
  rw [← Value.toInt_bits, ← BitVec.toInt_inj, minus_one]

variable {w} in
theorem signed_eq_zero_iff : b.signed w = 0 ↔ b.unsigned w = 0 := by
  rw [← bits_eq_zero_iff, ← Value.toInt_bits, ← BitVec.toInt_inj,
    show (0 : BitVec w.bits).toInt = 0 from BitVec.toInt_zero]

/-- A quotient traps for a divisor of zero, and a signed one for the overflow. The remainder of
that pair is zero and does not trap. -/
theorem division : Division σ w where
  by_zero sign {a b} zero := by
    have zero := bits_eq_zero_iff.mpr zero
    constructor <;> cases sign <;> exact gives_trap (if_pos zero)
  unsigned {a b} nonzero := by
    refine ⟨a.unsigned w / b.unsigned w, a.unsigned w % b.unsigned w,
      gives_intBinary (if_neg (mt bits_eq_zero_iff.mp nonzero)) ?_,
      gives_intBinary (if_neg (mt bits_eq_zero_iff.mp nonzero)) ?_,
      (Nat.div_add_mod' ..).symm, Nat.mod_lt _ (Nat.pos_of_ne_zero nonzero)⟩
    · rw [Words.eq_ofInt_toNat (BitVec.udiv ..), BitVec.udiv_eq, BitVec.toNat_udiv,
        Value.toNat_bits, Value.toNat_bits]
    · rw [Words.eq_ofInt_toNat (BitVec.umod ..), BitVec.umod_eq, BitVec.toNat_umod,
        Value.toNat_bits, Value.toNat_bits]
  signed {a b} nonzero proper := by
    have divisor := mt bits_eq_zero_iff.mp nonzero
    have quotient : ¬(a.bits w = BitVec.intMin w.bits ∧ b.bits w = -1) := by
      rwa [bits_eq_intMin_iff, bits_eq_minus_one_iff]
    have q_eq : ((a.bits w).sdiv (b.bits w)).toInt = (a.signed w).tdiv (b.signed w) := by
      rw [BitVec.toInt_sdiv_of_ne_or_ne _ _ (Classical.not_and_iff_not_or_not.mp quotient),
        Value.toInt_bits, Value.toInt_bits]
    have r_eq : ((a.bits w).srem (b.bits w)).toInt = (a.signed w).tmod (b.signed w) := by
      rw [BitVec.toInt_srem, Value.toInt_bits, Value.toInt_bits]
    refine ⟨(a.signed w).tdiv (b.signed w), (a.signed w).tmod (b.signed w),
      gives_intBinary ((if_neg divisor).trans (if_neg quotient)) ?_,
      gives_intBinary (if_neg divisor) ?_, (Int.tdiv_mul_add_tmod ..).symm, rfl, ?_, ?_, ?_⟩
    · rw [← q_eq, BitVec.ofInt_toInt]
    · rw [← r_eq, BitVec.ofInt_toInt]
    · rw [← q_eq]
      exact ⟨BitVec.le_toInt _, BitVec.toInt_lt⟩
    · rw [Int.natAbs_tmod]
      exact Nat.mod_lt _ (Int.natAbs_pos.mpr fun zero => nonzero (signed_eq_zero_iff.mp zero))
    · rw [Int.sign_tmod]
      by_cases divides : b.signed w ∣ a.signed w
      · exact .inl (Int.tmod_eq_zero_of_dvd divides)
      · exact .inr (if_neg divides)
  overflow {a b} least minus_one := by
    have divisor : b.bits w ≠ 0 := by
      rw [bits_eq_minus_one_iff.mpr minus_one]
      cases w <;> decide
    refine ⟨gives_trap ((if_neg divisor).trans
      (if_pos ⟨bits_eq_intMin_iff.mpr least, bits_eq_minus_one_iff.mpr minus_one⟩)),
      gives_intBinary (if_neg divisor) ?_⟩
    rw [← BitVec.ofInt_toInt (x := BitVec.srem ..), BitVec.toInt_srem, Value.toInt_bits,
      Value.toInt_bits, minus_one, Int.tmod_neg, Int.tmod_one]

-- The quotient that does not exist.
example : (Run.dispatch (.numeric (.intBinary .w32 (.div .signed)))
    (Machine.onePage (.ofU32 0x80000000) (.ofU32 0xffffffff))).map Prod.fst
      = some (.error (.trap .integerOverflow)) := by
  rfl

/-! ## Shifts and rotations -/

/-- How far a shift or a rotation goes: its second operand counts modulo the width. -/
def places (b : Value) : Nat := b.unsigned w % w.bits

/-- A shift multiplies by a power of two or divides by it, rounding down. A rotation does both, so
that what leaves the word on one side comes back on the other. -/
structure Shifts : Prop where
  shl (a b : Value) : (NumericOp.intBinary w .shl).Gives σ [a, b]
    (.ok (.ofInt w (a.unsigned w * 2 ^ places w b : Nat)))
  shr_unsigned (a b : Value) : (NumericOp.intBinary w (.shr .unsigned)).Gives σ [a, b]
    (.ok (.ofInt w (a.unsigned w / 2 ^ places w b : Nat)))
  shr_signed (a b : Value) : (NumericOp.intBinary w (.shr .signed)).Gives σ [a, b]
    (.ok (.ofInt w ((a.signed w).fdiv (2 ^ places w b : Nat))))
  rotl (a b : Value) : (NumericOp.intBinary w .rotl).Gives σ [a, b]
    (.ok (.ofInt w (a.unsigned w * 2 ^ places w b + a.unsigned
      w / 2 ^ (w.bits - places w b) : Nat)))
  rotr (a b : Value) : (NumericOp.intBinary w .rotr).Gives σ [a, b]
    (.ok (.ofInt w (a.unsigned w * 2 ^ (w.bits - places w b) + a.unsigned w / 2 ^ places
      w b : Nat)))
  undone (a b : Value) : ∃ v, (NumericOp.intBinary w .rotl).Gives σ [a, b] (.ok v) ∧
    (NumericOp.intBinary w .rotr).Gives σ [v, b] (.ok (.ofInt w (a.unsigned w)))

theorem places_lt (b : Value) : places w b < w.bits := Nat.mod_lt _ (by cases w <;> decide)

theorem toNat_bits_mod (b : Value) : (b.bits w).toNat % w.bits = places w b := by
  rw [places, Value.toNat_bits]

/-- A count that is cut to 32 bits is the same modulo the width. -/
theorem shiftCount_bits (b : Value) : shiftCount (b.bits w) = places w b := by
  have divides : w.bits ∣ 2 ^ 32 := by cases w <;> decide
  rw [shiftCount, BitVec.toNat_setWidth, Nat.mod_mod_of_dvd _ divides, toNat_bits_mod]

/-- The count of a shift is taken modulo the width, as is that of a rotation. -/
theorem shifts : Shifts σ w where
  shl a b := gives_intBinary rfl (by rw [Words.shiftLeft_eq, shiftCount_bits, Value.toNat_bits])
  shr_unsigned a b := gives_intBinary rfl (by
    rw [Words.shiftRight_eq, shiftCount_bits, Value.toNat_bits])
  shr_signed a b := gives_intBinary rfl (by
    rw [Words.sshiftRight_eq, shiftCount_bits, Value.toInt_bits])
  rotl a b := gives_intBinary rfl (by
    rw [toNat_bits_mod, Words.rotateLeft_eq _ (places_lt w b), Value.toNat_bits])
  rotr a b := gives_intBinary rfl (by
    rw [toNat_bits_mod, Words.rotateRight_eq _ (places_lt w b), Value.toNat_bits])
  undone a b := by
    have turned := gives_binary (σ := σ) (.intBinary w .rotl) rfl a b
    refine ⟨_, turned, gives_intBinary rfl ?_⟩
    rw [Value.bits_ofBits, toNat_bits_mod, Words.rotateRight_rotateLeft _ (places_lt w b),
      Words.eq_ofInt_toNat (a.bits w), Value.toNat_bits]

/-! ## Comparisons -/

/-- Comparisons are those of the numbers, with a sign or without one. -/
structure Comparisons : Prop where
  eqz (a : Value) : (NumericOp.eqz w).Gives σ [a] (.ok (.ofBool (decide (a.unsigned w = 0))))
  eq (a b : Value) : (NumericOp.intCompare w .eq).Gives σ [a, b]
    (.ok (.ofBool (decide (a.unsigned w = b.unsigned w))))
  ne (a b : Value) : (NumericOp.intCompare w .ne).Gives σ [a, b]
    (.ok (.ofBool (decide (a.unsigned w ≠ b.unsigned w))))
  lt (sign : Sign) (a b : Value) : (NumericOp.intCompare w (.lt sign)).Gives σ [a, b]
    (.ok (.ofBool (decide (a.number w sign < b.number w sign))))
  gt (sign : Sign) (a b : Value) : (NumericOp.intCompare w (.gt sign)).Gives σ [a, b]
    (.ok (.ofBool (decide (a.number w sign > b.number w sign))))
  le (sign : Sign) (a b : Value) : (NumericOp.intCompare w (.le sign)).Gives σ [a, b]
    (.ok (.ofBool (decide (a.number w sign ≤ b.number w sign))))
  ge (sign : Sign) (a b : Value) : (NumericOp.intCompare w (.ge sign)).Gives σ [a, b]
    (.ok (.ofBool (decide (a.number w sign ≥ b.number w sign))))

theorem beq_bits (a b : Value) :
    (a.bits w == b.bits w) = decide (a.unsigned w = b.unsigned w) := by
  rw [Bool.eq_iff_iff, beq_iff_eq, decide_eq_true_iff, ← BitVec.toNat_inj, Value.toNat_bits,
    Value.toNat_bits]

/-- One order, of numbers with a sign or without one. -/
theorem lt_bits (sign : Sign) (a b : Value) : (IntCompare.lt sign).eval (a.bits w) (b.bits w)
    = decide (a.number w sign < b.number w sign) := by
  cases sign with
  | signed =>
    change (a.bits w).slt (b.bits w) = decide (a.signed w < b.signed w)
    rw [BitVec.slt_eq_decide, Value.toInt_bits, Value.toInt_bits]
  | unsigned =>
    change (a.bits w).ult (b.bits w) = decide ((a.unsigned w : Int) < b.unsigned w)
    rw [BitVec.ult_eq_decide, Value.toNat_bits, Value.toNat_bits]
    exact decide_eq_decide.mpr Int.ofNat_lt.symm

/-- The same for the comparisons that admit equality. -/
theorem le_bits (sign : Sign) (a b : Value) : (IntCompare.le sign).eval (a.bits w) (b.bits w)
    = decide (a.number w sign ≤ b.number w sign) := by
  cases sign with
  | signed =>
    change (a.bits w).sle (b.bits w) = decide (a.signed w ≤ b.signed w)
    rw [BitVec.sle_eq_decide, Value.toInt_bits, Value.toInt_bits]
  | unsigned =>
    change (a.bits w).ule (b.bits w) = decide ((a.unsigned w : Int) ≤ b.unsigned w)
    rw [BitVec.ule_eq_decide, Value.toNat_bits, Value.toNat_bits]
    exact decide_eq_decide.mpr Int.ofNat_le.symm

/-- A comparison gives one or zero, a number of 32 bits at both widths. -/
theorem comparisons : Comparisons σ w where
  eqz a := by
    have zero : (a.bits w == 0) = decide (a.unsigned w = 0) := by
      rw [Bool.eq_iff_iff, beq_iff_eq, decide_eq_true_iff, bits_eq_zero_iff]
    exact zero ▸ gives_unary (σ := σ) (.eqz w) rfl a
  eq a b := gives_intCompare (beq_bits w a b)
  ne a b := gives_intCompare (by
    rw [decide_not, ← beq_bits]
    rfl)
  lt sign a b := gives_intCompare (lt_bits w sign a b)
  gt sign a b := gives_intCompare (by
    cases sign
    · exact lt_bits w .signed b a
    · exact lt_bits w .unsigned b a)
  le sign a b := gives_intCompare (le_bits w sign a b)
  ge sign a b := gives_intCompare (by
    cases sign
    · exact le_bits w .signed b a
    · exact le_bits w .unsigned b a)

/-! ## Counts -/

/-- Counts go over all bits of the width. A count of zeros from one end stops at the first one. -/
structure Counts : Prop where
  clz (a : Value) : ∃ k ≤ w.bits, (NumericOp.intUnary w .clz).Gives σ [a] (.ok (.ofInt w k)) ∧
    (∀ i, w.bits - k ≤ i → (a.unsigned w).testBit i = false) ∧
    (k < w.bits → (a.unsigned w).testBit (w.bits - 1 - k) = true)
  ctz (a : Value) : ∃ k ≤ w.bits, (NumericOp.intUnary w .ctz).Gives σ [a] (.ok (.ofInt w k)) ∧
    (∀ i < k, (a.unsigned w).testBit i = false) ∧ (k < w.bits → (a.unsigned w).testBit k = true)
  popcnt (a : Value) : (NumericOp.intUnary w .popcnt).Gives σ [a]
    (.ok (.ofInt w ((List.range w.bits).countP (a.unsigned w).testBit)))

theorem counts : Counts σ w where
  clz a := by
    obtain ⟨most, zeros, one⟩ := Words.clz_exact (a.bits w)
    rw [Value.toNat_bits] at zeros one
    exact ⟨_, most, gives_value rfl rfl (Words.eq_ofInt_toNat _), zeros, one⟩
  ctz a := by
    obtain ⟨most, zeros, one⟩ := Words.ctz_exact (a.bits w)
    rw [Value.toNat_bits] at zeros one
    exact ⟨_, most, gives_value rfl rfl (Words.eq_ofInt_toNat _), zeros, one⟩
  popcnt a := by
    have ones := Words.cpop_exact (a.bits w)
    rw [Value.toNat_bits] at ones
    rw [← ones]
    exact gives_value rfl rfl (Words.eq_ofInt_toNat _)

end Kinds

/-! ## Conversions -/

/-- Conversions read a number at one width and reduce it to another. -/
structure Conversions (σ : Type) : Prop where
  wrap (a : Value) : NumericOp.wrap.Gives σ [a] (.ok (.ofInt .w32 (a.unsigned .w64)))
  extend (sign : Sign) (a : Value) :
    (NumericOp.extend sign).Gives σ [a] (.ok (.ofInt .w64 (a.number .w32 sign)))
  /-- The low bits of a number, so many as the instruction says, as a number with a sign. -/
  signExtend (kind : SignExtension) (a : Value) : (NumericOp.signExtend kind).Gives σ [a]
    (.ok (.ofInt kind.width (Int.bmod (a.unsigned kind.width) (2 ^ kind.source))))

/-- Wrapping drops the upper half, and extending fills it with zeros or with the sign. -/
theorem conversions (σ : Type) : Conversions σ where
  wrap a := by
    refine gives_value rfl rfl (Words.eq_ofInt_of_toNat ?_)
    have low : a.unsigned .w32 = a.unsigned .w64 % 2 ^ 32 :=
      (Nat.mod_mod_of_dvd _ (Nat.pow_dvd_pow 2 (by decide))).symm
    rw [Value.toNat_bits, low, Int.natCast_emod]
    rfl
  extend sign a := by
    cases sign with
    | signed =>
      refine gives_value rfl rfl ?_
      change BitVec.ofInt 64 (a.bits .w32).toInt = _
      rw [Value.toInt_bits]
      rfl
    | unsigned =>
      refine gives_value rfl rfl (Words.eq_ofInt_of_toNat ?_)
      change ((((a.bits .w32).setWidth 64).toNat : Nat) : Int) = _
      rw [BitVec.toNat_setWidth, Value.toNat_bits, Int.natCast_emod]
      rfl
  signExtend kind a := by
    refine gives_value rfl rfl ?_
    change BitVec.ofInt _ ((a.bits kind.width).setWidth kind.source).toInt = _
    rw [BitVec.toInt_setWidth, Value.toNat_bits]

/-- Integer instructions of both widths, on any operands and on any machine. -/
structure IntegersExact (σ : Type) : Prop where
  arithmetic (w : Width) : Arithmetic σ w
  division (w : Width) : Division σ w
  shifts (w : Width) : Shifts σ w
  comparisons (w : Width) : Comparisons σ w
  counts (w : Width) : Counts σ w
  conversions : Conversions σ
  /-- An operand is read by its low bits. -/
  operands (w : Width) {a b : Value} (low : a.lo.toNat % 2 ^ w.bits = b.lo.toNat % 2 ^ w.bits) :
    a.unsigned w = b.unsigned w ∧ a.signed w = b.signed w
  /-- A result is a number of its width, and a flag is zero or one. -/
  results (w : Width) (i : Int) :
    (Value.ofInt w i).hi = 0 ∧ ((Value.ofInt w i).lo.toNat : Int) = i % 2 ^ w.bits
  flags (c : Bool) : (Value.ofBool c).hi = 0 ∧ (Value.ofBool c).lo = if c then 1 else 0
  messages : Trap.divideByZero.message = "integer divide by zero" ∧
    Trap.integerOverflow.message = "integer overflow"

/-- Integer instructions compute with numbers. -/
theorem integers_exact (σ : Type) : IntegersExact σ where
  arithmetic := arithmetic σ
  division := division σ
  shifts := shifts σ
  comparisons := comparisons σ
  counts := counts σ
  conversions := conversions σ
  operands _ _ _ low := ⟨low, Value.signed_congr low⟩
  results w i := ⟨rfl, Value.lo_ofInt w i⟩
  flags _ := ⟨rfl, rfl⟩
  messages := ⟨rfl, rfl⟩

end NumericOp

end WasmMachine
