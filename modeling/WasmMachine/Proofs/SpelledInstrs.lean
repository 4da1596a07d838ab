import WasmMachine.Proofs.InstrReads
import WasmMachine.Proofs.Spellings

/-!
# The spellings of instructions

An instruction is spelled by its opcode, by its number if the opcode opens a group, and by its
operands.  `Decoder.Exactly.instr` says that the decoder reads the spelled instructions and no
others.  An opcode or a number that belongs to no instruction is reported as such
(`Decoder.instr_unknown`, `Decoder.instr_unknownNumber`).
-/

namespace WasmMachine

open Leb128 (SpellsU32 SpellsI32 SpellsI64)

/-! ## Opcodes, numbers and operands -/

def NumericOp.opcode : NumericOp → UInt8
  | .truncateSat .. => 0xfc
  | op => op.code

/-- The number of an operation in the first group. -/
def NumericOp.number? : NumericOp → Option UInt32
  | .truncateSat dest source sign => some (truncateSat dest source sign).code.toUInt32
  | _ => none

def Instr.opcode : Instr → UInt8
  | .unreachable => 0x00
  | .nop => 0x01
  | .block .. => 0x02
  | .loop .. => 0x03
  | .ifThen .. => 0x04
  | .elseArm _ => 0x05
  | .endOf => 0x0b
  | .br _ => 0x0c
  | .brIf _ => 0x0d
  | .brTable .. => 0x0e
  | .ret => 0x0f
  | .call _ => 0x10
  | .callIndirect .. => 0x11
  | .drop => 0x1a
  | .select => 0x1b
  | .selectTyped _ => 0x1c
  | .localGet _ => 0x20
  | .localSet _ => 0x21
  | .localTee _ => 0x22
  | .globalGet _ => 0x23
  | .globalSet _ => 0x24
  | .tableGet _ => 0x25
  | .tableSet _ => 0x26
  | .load op _ => op.code
  | .store op _ => op.code
  | .memorySize _ => 0x3f
  | .memoryGrow _ => 0x40
  | .i32Const _ => 0x41
  | .i64Const _ => 0x42
  | .f32Const _ => 0x43
  | .f64Const _ => 0x44
  | .numeric op => op.opcode
  | .refNull _ => 0xd0
  | .refIsNull => 0xd1
  | .refFunc _ => 0xd2
  | .memoryInit .. | .dataDrop _ | .memoryCopy .. | .memoryFill _ => 0xfc
  | .tableInit .. | .elemDrop _ | .tableCopy .. => 0xfc
  | .tableGrow _ | .tableSize _ | .tableFill _ => 0xfc
  | .vector .. => 0xfd

/-- The number of an instruction whose opcode opens a group. -/
def Instr.number? : Instr → Option UInt32
  | .memoryInit .. => some 8
  | .dataDrop _ => some 9
  | .memoryCopy .. => some 10
  | .memoryFill _ => some 11
  | .tableInit .. => some 12
  | .elemDrop _ => some 13
  | .tableCopy .. => some 14
  | .tableGrow _ => some 15
  | .tableSize _ => some 16
  | .tableFill _ => some 17
  | .numeric op => op.number?
  | .vector number _ => some number
  | _ => none

def VectorImm.Spelled : VectorImm → List UInt8 → Prop
  | .none, bs => bs = []
  | .memArg arg, bs => arg.Spelled bs
  | .memArgLane arg i, bs => ∃ x, arg.Spelled x ∧ bs = x ++ [i]
  | .lane i, bs => bs = [i]
  | .shuffle v, bs | .const v, bs => v.Spelled bs

/-- The bytes of what follows the opcode and the number. Targets are not written; an instruction
is read with targets of zero. -/
def Instr.Operands : Instr → List UInt8 → Prop
  | .block type target, bs | .loop type target, bs => target = 0 ∧ type.Spelled bs
  | .ifThen type target elseTarget, bs => target = 0 ∧ elseTarget = 0 ∧ type.Spelled bs
  | .elseArm target, bs => target = 0 ∧ bs = []
  | .br i, bs | .brIf i, bs => i.Spelled bs
  | .brTable labels fallback, bs =>
    ∃ x y, SpelledVec Idx.Spelled labels x ∧ fallback.Spelled y ∧ bs = x ++ y
  | .call i, bs | .refFunc i, bs => i.Spelled bs
  | .callIndirect type table, bs => ∃ x y, type.Spelled x ∧ table.Spelled y ∧ bs = x ++ y
  | .selectTyped types, bs => SpelledVec (fun type x => x = type.encode) types bs
  | .localGet i, bs | .localSet i, bs | .localTee i, bs => i.Spelled bs
  | .globalGet i, bs | .globalSet i, bs => i.Spelled bs
  | .tableGet i, bs | .tableSet i, bs => i.Spelled bs
  | .tableGrow i, bs | .tableSize i, bs | .tableFill i, bs => i.Spelled bs
  | .load _ arg, bs | .store _ arg, bs => arg.Spelled bs
  | .memorySize mem, bs | .memoryGrow mem, bs | .memoryFill mem, bs => MemIdx.Spelled mem bs
  | .i32Const n, bs => SpellsI32 n bs
  | .i64Const n, bs => SpellsI64 n bs
  | .f32Const x, bs => x.Spelled bs
  | .f64Const x, bs => x.Spelled bs
  | .refNull type, bs => bs = [type.toByte]
  | .memoryInit segment mem, bs => ∃ x y, segment.Spelled x ∧ MemIdx.Spelled mem y ∧ bs = x ++ y
  | .memoryCopy dst src, bs => ∃ x y, MemIdx.Spelled dst x ∧ MemIdx.Spelled src y ∧ bs = x ++ y
  | .dataDrop i, bs => i.Spelled bs
  | .elemDrop i, bs => i.Spelled bs
  | .tableInit segment table, bs => ∃ x y, segment.Spelled x ∧ table.Spelled y ∧ bs = x ++ y
  | .tableCopy dst src, bs => ∃ x y, dst.Spelled x ∧ src.Spelled y ∧ bs = x ++ y
  | .vector number imm, bs => imm.Fits number.toNat ∧ imm.Spelled bs
  | _, bs => bs = []

/-- The number of an instruction is spelled if it has one. -/
def Instr.SpelledNumber (i : Instr) (bs : List UInt8) : Prop :=
  match i.number? with
  | none => bs = []
  | some n => SpellsU32 n bs

/-- An instruction and all that its opcode asks for. -/
def Instr.Spelled (i : Instr) (bs : List UInt8) : Prop :=
  ∃ x y, bs = i.opcode :: (x ++ y) ∧ i.SpelledNumber x ∧ i.Operands y

theorem Instr.Spelled.ne_nil {i : Instr} {bs : List UInt8} (spelled : i.Spelled bs) :
    bs ≠ [] := by
  obtain ⟨x, y, rfl, -⟩ := spelled
  exact List.cons_ne_nil _ _

theorem Instr.spelled_of_none {i : Instr} {bs : List UInt8} (none : i.number? = none)
    (operands : i.Operands bs) : i.Spelled (i.opcode :: bs) := by
  refine ⟨[], bs, rfl, ?_, operands⟩
  rw [SpelledNumber, none]

theorem Instr.spelled_of_some {i : Instr} {n : UInt32} {x y : List UInt8}
    (some : i.number? = some n) (number : SpellsU32 n x) (operands : i.Operands y) :
    i.Spelled (i.opcode :: (x ++ y)) := by
  refine ⟨x, y, rfl, ?_, operands⟩
  rw [SpelledNumber, some]
  exact number

/-! ## Tables -/

section Entries

variable {α : Type} {table : Array α} {first : Nat} {code : α → UInt8}

/-- What is found in a table stands in it and has the opcode that it is looked up by. -/
theorem Consecutive.of_entry (consecutive : Consecutive table first code) {opcode : UInt8} {a : α}
    (found : lookup? table first opcode = some a) : a ∈ table.toList ∧ code a = opcode := by
  unfold lookup? at found
  split at found
  · next le =>
    obtain ⟨inside, rfl⟩ := Array.getElem?_eq_some_iff.mp found
    refine ⟨Array.getElem_mem_toList inside, ?_⟩
    have codes := congrArg (·[opcode.toNat - first]?) consecutive
    simp only [List.getElem?_map, List.getElem?_range inside, Option.map_some] at codes
    rw [Array.getElem?_toList, found, Option.map_some, Option.some_inj] at codes
    rw [codes, Nat.add_sub_cancel' le, UInt8.ofNat_toNat]
  · cases found

/-- Every opcode of a table is that of an entry. -/
theorem Consecutive.exists_code (consecutive : Consecutive table first code) (opcode : UInt8)
    (low : first ≤ opcode.toNat) (high : opcode.toNat < first + table.size) :
    ∃ a ∈ table.toList, code a = opcode := by
  have inside : opcode.toNat - first < table.size := by omega
  have found : lookup? table first opcode = some table[opcode.toNat - first] := by
    rw [lookup?, if_pos low, Array.getElem?_eq_getElem inside]
  exact ⟨_, consecutive.of_entry found⟩

end Entries

/-- An operation without a number has an opcode of its own. -/
theorem NumericOp.own_of_none {op : NumericOp} (none : op.number? = none) :
    op.opcode = op.code ∧ op.encode = [op.code] := by
  cases op with
  | truncateSat => cases none
  | _ => exact ⟨rfl, rfl⟩

theorem NumericOp.own_of_mem_table {op : NumericOp} (mem : op ∈ NumericOp.table.toList) :
    op.number? = none ∧ op.opcode = op.code := by
  have all : ∀ op ∈ NumericOp.table.toList, op.number? = none ∧ op.opcode = op.code := by
    decide +kernel
  exact all op mem

theorem NumericOp.of_saturating {k : Nat} {op : NumericOp}
    (found : NumericOp.saturating[k]? = some op) :
    op.opcode = 0xfc ∧ op.number? = some (UInt32.ofNat k) := by
  have all : ∀ k : Fin 8, ∀ op ∈ NumericOp.saturating[k.val]?,
      op.opcode = 0xfc ∧ op.number? = some (UInt32.ofNat k) := by decide
  obtain ⟨inside, -⟩ := Array.getElem?_eq_some_iff.mp found
  exact all ⟨k, inside⟩ op found

theorem VectorShape.exists_imm (shape : VectorShape) : ∃ imm : VectorImm, imm.shape = shape := by
  cases shape with
  | none => exact ⟨.none, rfl⟩
  | memArg => exact ⟨.memArg default, rfl⟩
  | memArgLane => exact ⟨.memArgLane default 0, rfl⟩
  | lane => exact ⟨.lane 0, rfl⟩
  | shuffle => exact ⟨.shuffle default, rfl⟩
  | const => exact ⟨.const default, rfl⟩

/-- The immediates of a shape fit the numbers that take it. -/
theorem VectorImm.fits_of_shape {number : Nat} {imm : VectorImm}
    (shape : VectorShape.ofNumber? number = some imm.shape) : imm.Fits number := by
  unfold VectorShape.ofNumber? at shape
  cases imm <;> simp only [VectorImm.shape, VectorImm.Fits] at shape ⊢ <;> grind

namespace Decoder

/-! ## Reading instructions -/

namespace Exactly

theorem vectorImm (shape : VectorShape) : (Decoder.vectorImm shape).Exactly
    fun imm bs => imm.shape = shape ∧ imm.Spelled bs := by
  cases shape with
  | none =>
    refine ⟨.pure ⟨rfl, rfl⟩, ?_⟩
    rintro (_ | _) bs ⟨⟨⟩, rfl⟩
    exact .pure _
  | memArg =>
    refine ⟨memArg.finds.map fun arg x spelled => ⟨rfl, spelled⟩, ?_⟩
    rintro (_ | arg) bs ⟨⟨⟩, spelled⟩
    exact (memArg.accepts spelled).map
  | memArgLane =>
    refine ⟨memArg.finds.map₂ byte.finds ?_, ?_⟩
    · rintro arg i x _ spelled rfl
      exact ⟨rfl, x, spelled, rfl⟩
    · rintro (_ | _ | ⟨arg, i⟩) bs ⟨⟨⟩, x, spelled, rfl⟩
      exact (memArg.accepts spelled).bind (byte.accepts rfl).map
  | lane =>
    refine ⟨byte.finds.map fun i x spelled => ⟨rfl, spelled⟩, ?_⟩
    rintro (_ | _ | _ | i) bs ⟨⟨⟩, rfl⟩
    exact (byte.accepts rfl).map
  | shuffle =>
    refine ⟨value.finds.map fun v x spelled => ⟨rfl, spelled⟩, ?_⟩
    rintro (_ | _ | _ | _ | v) bs ⟨⟨⟩, spelled⟩
    exact (value.accepts spelled).map
  | const =>
    refine ⟨value.finds.map fun v x spelled => ⟨rfl, spelled⟩, ?_⟩
    rintro (_ | _ | _ | _ | _ | v) bs ⟨⟨⟩, spelled⟩
    exact (value.accepts spelled).map

end Exactly

/-- An instruction that has no number, with operands of one kind. -/
theorem Finds.operand {α : Type} {d : Decoder α} {F : α → List UInt8 → Prop} {f : α → Instr}
    {opcode : UInt8} (exactly : d.Exactly F)
    (made : ∀ a x, F a x → (f a).number? = none ∧ (f a).opcode = opcode ∧ (f a).Operands x) :
    (d >>= fun a => Pure.pure (f a) : Decoder Instr).Finds fun i bs => i.Spelled (opcode :: bs) :=
  exactly.finds.map fun a x spelled => by
    obtain ⟨none, rfl, operands⟩ := made a x spelled
    exact Instr.spelled_of_none none operands

section Numbered

variable {α β : Type} {d : Decoder α} {d' : Decoder β} {F : α → List UInt8 → Prop}
  {G : β → List UInt8 → Prop} {opcode : UInt8} {n : UInt32} {number : List UInt8}

/-- An instruction that has a number, which is read already, with operands of one kind. -/
theorem Finds.numbered {f : α → Instr} (spells : SpellsU32 n number) (exactly : d.Exactly F)
    (made : ∀ a x, F a x → (f a).number? = some n ∧ (f a).opcode = opcode ∧ (f a).Operands x) :
    (d >>= fun a => Pure.pure (f a) : Decoder Instr).Finds
      fun i bs => i.Spelled (opcode :: (number ++ bs)) :=
  exactly.finds.map fun a x spelled => by
    obtain ⟨some, rfl, operands⟩ := made a x spelled
    exact Instr.spelled_of_some some spells operands

/-- The same with operands of two kinds. -/
theorem Finds.numbered₂ {f : α → β → Instr} (spells : SpellsU32 n number) (exactly : d.Exactly F)
    (exactly' : d'.Exactly G)
    (made : ∀ a b x y, F a x → G b y →
      (f a b).number? = some n ∧ (f a b).opcode = opcode ∧ (f a b).Operands (x ++ y)) :
    (d >>= fun a => d' >>= fun b => Pure.pure (f a b) : Decoder Instr).Finds
      fun i bs => i.Spelled (opcode :: (number ++ bs)) :=
  exactly.finds.map₂ exactly'.finds fun a b x y spelled spelled' => by
    obtain ⟨some, rfl, operands⟩ := made a b x y spelled spelled'
    exact Instr.spelled_of_some some spells operands

end Numbered

theorem tabledInstr_finds (opcode : UInt8) :
    (tabledInstr opcode).Finds fun i bs => i.Spelled (opcode :: bs) := by
  unfold tabledInstr
  split
  · next op found =>
    obtain ⟨-, rfl⟩ := LoadOp.consecutive.of_entry found
    exact .operand .memArg fun arg x spelled => ⟨rfl, rfl, spelled⟩
  · split
    · next op found =>
      obtain ⟨-, rfl⟩ := StoreOp.consecutive.of_entry found
      exact .operand .memArg fun arg x spelled => ⟨rfl, rfl, spelled⟩
    · split
      · next op found =>
        obtain ⟨mem, rfl⟩ := NumericOp.consecutive.of_entry found
        obtain ⟨none, own⟩ := NumericOp.own_of_mem_table mem
        refine .pure ?_
        rw [← own]
        exact Instr.spelled_of_none (i := .numeric op) none rfl
      · exact .fail

theorem bulkInstr_finds : bulkInstr.Finds fun i bs => i.Spelled (0xfc :: bs) := by
  refine Exactly.u32.finds.bind ?_
  intro n x number
  split
  · exact .numbered₂ number .idx .memIdx fun segment mem y z spelled spelled' =>
      ⟨rfl, rfl, y, z, spelled, spelled', rfl⟩
  · exact .numbered number .idx fun segment y spelled => ⟨rfl, rfl, spelled⟩
  · exact .numbered₂ number .memIdx .memIdx fun dst src y z spelled spelled' =>
      ⟨rfl, rfl, y, z, spelled, spelled', rfl⟩
  · exact .numbered number .memIdx fun mem y spelled => ⟨rfl, rfl, spelled⟩
  · exact .numbered₂ number .idx .idx fun segment table y z spelled spelled' =>
      ⟨rfl, rfl, y, z, spelled, spelled', rfl⟩
  · exact .numbered number .idx fun segment y spelled => ⟨rfl, rfl, spelled⟩
  · exact .numbered₂ number .idx .idx fun dst src y z spelled spelled' =>
      ⟨rfl, rfl, y, z, spelled, spelled', rfl⟩
  · exact .numbered number .idx fun table y spelled => ⟨rfl, rfl, spelled⟩
  · exact .numbered number .idx fun table y spelled => ⟨rfl, rfl, spelled⟩
  · exact .numbered number .idx fun table y spelled => ⟨rfl, rfl, spelled⟩
  · split
    · next op found =>
      obtain ⟨opens, numbered⟩ := NumericOp.of_saturating found
      rw [UInt32.ofNat_toNat] at numbered
      refine .pure ?_
      rw [← opens]
      exact Instr.spelled_of_some (i := .numeric op) numbered number rfl
    · exact .fail

theorem vectorInstr_finds : vectorInstr.Finds fun i bs => i.Spelled (0xfd :: bs) := by
  refine Exactly.u32.finds.bind ?_
  intro n x number
  split
  · next shape found =>
    refine (Exactly.vectorImm shape).finds.map ?_
    rintro imm y ⟨rfl, spelled⟩
    exact Instr.spelled_of_some (i := .vector n imm) rfl number
      ⟨VectorImm.fits_of_shape found, spelled⟩
  · exact .fail

theorem instrBody_finds (opcode : UInt8) :
    (instrBody opcode).Finds fun i bs => i.Spelled (opcode :: bs) := by
  unfold instrBody
  split
  all_goals try exact .operand .idx fun i x spelled => ⟨rfl, rfl, spelled⟩
  all_goals try exact .operand .memIdx fun mem x spelled => ⟨rfl, rfl, spelled⟩
  · exact .pure (Instr.spelled_of_none (i := .unreachable) rfl rfl)
  · exact .pure (Instr.spelled_of_none (i := .nop) rfl rfl)
  · exact .operand .blockType fun type x spelled => ⟨rfl, rfl, rfl, spelled⟩
  · exact .operand .blockType fun type x spelled => ⟨rfl, rfl, rfl, spelled⟩
  · exact .operand .blockType fun type x spelled => ⟨rfl, rfl, rfl, rfl, spelled⟩
  · exact .pure (Instr.spelled_of_none (i := .elseArm 0) rfl ⟨rfl, rfl⟩)
  · exact .pure (Instr.spelled_of_none (i := .endOf) rfl rfl)
  · exact (Exactly.vec .idx).finds.map₂ Exactly.idx.finds
      fun labels fallback x y spelled spelled' =>
      Instr.spelled_of_none (i := .brTable labels fallback) rfl ⟨x, y, spelled, spelled', rfl⟩
  · exact .pure (Instr.spelled_of_none (i := .ret) rfl rfl)
  · exact Exactly.idx.finds.map₂ Exactly.idx.finds fun type table x y spelled spelled' =>
      Instr.spelled_of_none (i := .callIndirect type table) rfl ⟨x, y, spelled, spelled', rfl⟩
  · exact .pure (Instr.spelled_of_none (i := .drop) rfl rfl)
  · exact .pure (Instr.spelled_of_none (i := .select) rfl rfl)
  · exact .operand (.vec .valType) fun types x spelled => ⟨rfl, rfl, spelled⟩
  · exact .operand .i32 fun n x spelled => ⟨rfl, rfl, spelled⟩
  · exact .operand .i64 fun n x spelled => ⟨rfl, rfl, spelled⟩
  · exact .operand (.word 4) fun w x spelled => ⟨rfl, rfl, spelled.1, by rw [spelled.2]⟩
  · exact .operand (.word 8) fun w x spelled => ⟨rfl, rfl, spelled.1, by rw [spelled.2]⟩
  · exact .operand .refType fun type x spelled => ⟨rfl, rfl, spelled⟩
  · exact .pure (Instr.spelled_of_none (i := .refIsNull) rfl rfl)
  · exact bulkInstr_finds
  · exact vectorInstr_finds
  · exact tabledInstr_finds opcode

namespace Accepts

variable {α : Type} {bs : List UInt8} {a : α}

/-- A form that begins with one byte. -/
theorem afterByte {k : UInt8 → Decoder α} {x : UInt8} (second : (k x).Accepts bs a) :
    (Decoder.byte >>= k).Accepts (x :: bs) a :=
  (Exactly.byte.accepts rfl).bind second

/-- A number in a group. -/
theorem afterNumber {k : UInt32 → Decoder α} {n : UInt32} {x : List UInt8}
    (number : SpellsU32 n x) (second : (k n).Accepts bs a) :
    (Decoder.u32 >>= k).Accepts (x ++ bs) a :=
  (Exactly.u32.accepts number).bind second

theorem numeric (op : NumericOp) {x y : List UInt8} (number : (Instr.numeric op).SpelledNumber x)
    (none : y = []) : (Decoder.instrBody op.opcode).Accepts (x ++ y) (.numeric op) := by
  subst none
  cases numbered : op.number? with
  | none =>
    obtain ⟨opcode, own⟩ := NumericOp.own_of_none numbered
    rw [Instr.SpelledNumber, Instr.number?, numbered] at number
    cases number
    rw [opcode, Reads.instrBody_numeric own]
    exact .pure _
  | some n =>
    cases op with
    | truncateSat dest source sign =>
      cases dest <;> cases source <;> cases sign <;> exact afterNumber number (.pure _)
    | _ => cases numbered

/-- The rest of an instruction is read behind its opcode and its number. -/
theorem instrBody {i : Instr} {x y : List UInt8} (number : i.SpelledNumber x)
    (operands : i.Operands y) : (Decoder.instrBody i.opcode).Accepts (x ++ y) i := by
  cases i with
  | unreachable | nop | endOf | ret | drop | select | refIsNull =>
    cases number
    cases operands
    exact .pure _
  | elseArm =>
    cases number
    obtain ⟨rfl, rfl⟩ := operands
    exact .pure _
  | block | loop =>
    cases number
    obtain ⟨rfl, spelled⟩ := operands
    exact (Exactly.blockType.accepts spelled).map
  | ifThen =>
    cases number
    obtain ⟨rfl, rfl, spelled⟩ := operands
    exact (Exactly.blockType.accepts spelled).map
  | br | brIf | call | localGet | localSet | localTee | globalGet | globalSet | tableGet
  | tableSet | refFunc =>
    cases number
    exact (Exactly.idx.accepts operands).map
  | brTable =>
    cases number
    obtain ⟨_, _, spelled, spelled', rfl⟩ := operands
    exact ((Exactly.vec .idx).accepts spelled).bind (Exactly.idx.accepts spelled').map
  | callIndirect =>
    cases number
    obtain ⟨_, _, spelled, spelled', rfl⟩ := operands
    exact (Exactly.idx.accepts spelled).bind (Exactly.idx.accepts spelled').map
  | selectTyped =>
    cases number
    exact ((Exactly.vec .valType).accepts operands).map
  | refNull =>
    cases number
    exact (Exactly.refType.accepts operands).map
  | memorySize | memoryGrow =>
    cases number
    exact (Exactly.memIdx.accepts operands).map
  | i32Const =>
    cases number
    exact (Exactly.i32.accepts operands).map
  | i64Const =>
    cases number
    exact (Exactly.i64.accepts operands).map
  | f32Const =>
    cases number
    obtain ⟨length, rfl⟩ := operands
    exact ((Exactly.word 4).accepts ⟨length, rfl⟩).map
  | f64Const =>
    cases number
    obtain ⟨length, rfl⟩ := operands
    exact ((Exactly.word 8).accepts ⟨length, rfl⟩).map
  | load op arg =>
    cases number
    change (Decoder.instrBody op.code).Accepts _ _
    rw [Reads.instrBody_load]
    exact (Exactly.memArg.accepts operands).map
  | store op arg =>
    cases number
    change (Decoder.instrBody op.code).Accepts _ _
    rw [Reads.instrBody_store]
    exact (Exactly.memArg.accepts operands).map
  | numeric op => exact numeric op number operands
  | vector n imm =>
    obtain ⟨fits, spelled⟩ := operands
    refine afterNumber number ?_
    rw [Reads.shape_of_fits fits]
    exact ((Exactly.vectorImm imm.shape).accepts ⟨rfl, spelled⟩).map
  | memoryInit =>
    obtain ⟨_, _, spelled, spelled', rfl⟩ := operands
    exact afterNumber number
      ((Exactly.idx.accepts spelled).bind (Exactly.memIdx.accepts spelled').map)
  | memoryCopy =>
    obtain ⟨_, _, spelled, spelled', rfl⟩ := operands
    exact afterNumber number
      ((Exactly.memIdx.accepts spelled).bind (Exactly.memIdx.accepts spelled').map)
  | memoryFill => exact afterNumber number (Exactly.memIdx.accepts operands).map
  | dataDrop | elemDrop | tableGrow | tableSize | tableFill =>
    exact afterNumber number (Exactly.idx.accepts operands).map
  | tableInit | tableCopy =>
    obtain ⟨_, _, spelled, spelled', rfl⟩ := operands
    exact afterNumber number
      ((Exactly.idx.accepts spelled).bind (Exactly.idx.accepts spelled').map)

end Accepts

/-- The decoder reads the instructions that are spelled. -/
theorem Exactly.instr : Decoder.instr.Exactly Instr.Spelled where
  finds := Exactly.byte.finds.bind fun opcode x same => by
    rw [same]
    exact instrBody_finds opcode
  accepts := by
    rintro i _ ⟨x, y, rfl, number, operands⟩
    exact .afterByte (.instrBody number operands)

end Decoder

/-! ## Opcodes and numbers that stand for nothing -/

/-- One instruction for each opcode that is not in a table. -/
def Instr.untabled : List Instr :=
  [.unreachable, .nop, .block .empty 0, .loop .empty 0, .ifThen .empty 0 0, .elseArm 0, .endOf,
    .br ⟨0⟩, .brIf ⟨0⟩, .brTable [] ⟨0⟩, .ret, .call ⟨0⟩, .callIndirect ⟨0⟩ ⟨0⟩, .drop, .select,
    .selectTyped [], .localGet ⟨0⟩, .localSet ⟨0⟩, .localTee ⟨0⟩, .globalGet ⟨0⟩, .globalSet ⟨0⟩,
    .tableGet ⟨0⟩, .tableSet ⟨0⟩, .memorySize ⟨0⟩, .memoryGrow ⟨0⟩, .i32Const 0, .i64Const 0,
    .f32Const ⟨0⟩, .f64Const ⟨0⟩, .refNull .funcRef, .refIsNull, .refFunc ⟨0⟩, .dataDrop ⟨0⟩,
    .vector 0 .none]

/-- The opcodes of instructions. -/
def Instr.HasOpcode (n : Nat) : Prop :=
  n ≤ 0x05 ∨ 0x0b ≤ n ∧ n ≤ 0x11 ∨ 0x1a ≤ n ∧ n ≤ 0x1c ∨ 0x20 ≤ n ∧ n ≤ 0x26 ∨
    0x28 ≤ n ∧ n ≤ 0xc4 ∨ 0xd0 ≤ n ∧ n ≤ 0xd2 ∨ 0xfc ≤ n ∧ n ≤ 0xfd

theorem Instr.hasOpcode (i : Instr) : Instr.HasOpcode i.opcode.toNat := by
  cases i with
  | load op arg =>
    obtain ⟨k, inside, -, same⟩ := LoadOp.consecutive.code_of_mem (by decide) op.mem_table
    rw [Decoder.Reads.size_load] at inside
    rw [opcode, same, LoadOp.firstOpcode, HasOpcode]
    omega
  | store op arg =>
    obtain ⟨k, inside, -, same⟩ := StoreOp.consecutive.code_of_mem (by decide) op.mem_table
    rw [Decoder.Reads.size_store] at inside
    rw [opcode, same, StoreOp.firstOpcode, HasOpcode]
    omega
  | numeric op =>
    cases numbered : op.number? with
    | none =>
      obtain ⟨own, encoded⟩ := NumericOp.own_of_none numbered
      have bound : NumericOp.firstOpcode + NumericOp.table.size ≤ 256 := by
        rw [Decoder.Reads.size_numeric, NumericOp.firstOpcode]
        decide
      obtain ⟨k, inside, -, same⟩ :=
        NumericOp.consecutive.code_of_mem bound (NumericOp.mem_table encoded)
      rw [Decoder.Reads.size_numeric] at inside
      rw [opcode, own, same, NumericOp.firstOpcode, HasOpcode]
      omega
    | some n =>
      cases op with
      | truncateSat => simp [opcode, NumericOp.opcode, HasOpcode]
      | _ => cases numbered
  | _ => simp [opcode, HasOpcode]

instance (n : Nat) : Decidable (Instr.HasOpcode n) :=
  inferInstanceAs (Decidable (_ ∨ _))

/-- Every opcode between the bounds belongs to an instruction. -/
theorem Instr.exists_opcode_iff (b : UInt8) :
    (∃ i : Instr, i.opcode = b) ↔ Instr.HasOpcode b.toNat := by
  constructor
  · rintro ⟨i, rfl⟩
    exact i.hasOpcode
  · intro has
    by_cases tabled : 0x28 ≤ b.toNat ∧ b.toNat < 0x3f ∨ 0x45 ≤ b.toNat ∧ b.toNat < 0xc5
    · rcases tabled with ⟨low, high⟩ | ⟨low, high⟩
      · rcases Nat.lt_or_ge b.toNat 0x36 with load | store
        · obtain ⟨op, -, same⟩ := LoadOp.consecutive.exists_code b low load
          exact ⟨.load op default, same⟩
        · obtain ⟨op, -, same⟩ := StoreOp.consecutive.exists_code b store high
          exact ⟨.store op default, same⟩
      · rw [← Nat.add_sub_cancel' (show 0x45 ≤ 0xc5 by decide)] at high
        obtain ⟨op, mem, same⟩ := NumericOp.consecutive.exists_code b low (by
          rwa [Decoder.Reads.size_numeric])
        exact ⟨.numeric op, (NumericOp.own_of_mem_table mem).2.trans same⟩
    · have single : ∀ n : Fin 256, HasOpcode n →
          ¬ (0x28 ≤ n.val ∧ n.val < 0x3f ∨ 0x45 ≤ n.val ∧ n.val < 0xc5) →
          UInt8.ofNat n ∈ untabled.map opcode := by
        decide +kernel
      have mem := single ⟨b.toNat, b.toNat_lt⟩ has tabled
      rw [UInt8.ofNat_toNat] at mem
      obtain ⟨i, -, same⟩ := List.mem_map.mp mem
      exact ⟨i, same⟩

/-- The numbers of the first group. -/
theorem Instr.exists_bulk_iff (n : UInt32) :
    (∃ i : Instr, i.Encodable ∧ i.opcode = 0xfc ∧ i.number? = some n) ↔ n.toNat ≤ 17 := by
  constructor
  · rintro ⟨i, -, opcode, numbered⟩
    cases i with
    | numeric op =>
      cases op with
      | truncateSat dest source sign =>
        cases numbered
        cases dest <;> cases source <;> cases sign <;> decide
      | _ => cases numbered
    | vector => cases opcode
    | memoryInit | dataDrop | memoryCopy | memoryFill | tableInit | elemDrop | tableCopy
    | tableGrow | tableSize | tableFill =>
      cases numbered
      decide
    | _ => cases numbered
  · intro le
    have zero : (⟨0⟩ : MemIdx).toNat < 256 := by decide
    rcases Nat.lt_or_ge n.toNat 8 with saturating | other
    · have inside : n.toNat < NumericOp.saturating.size := saturating
      obtain ⟨opcode, numbered⟩ :=
        NumericOp.of_saturating (Array.getElem?_eq_getElem inside)
      rw [UInt32.ofNat_toNat] at numbered
      exact ⟨.numeric _, trivial, opcode, numbered⟩
    · obtain ⟨k, same⟩ : ∃ k : Fin 10, n.toNat = 8 + k :=
        ⟨⟨n.toNat - 8, by omega⟩, by dsimp; omega⟩
      obtain rfl : n = UInt32.ofNat (8 + k) := by rw [← same, UInt32.ofNat_toNat]
      match k with
      | 0 => exact ⟨.memoryInit ⟨0⟩ ⟨0⟩, zero, rfl, rfl⟩
      | 1 => exact ⟨.dataDrop ⟨0⟩, trivial, rfl, rfl⟩
      | 2 => exact ⟨.memoryCopy ⟨0⟩ ⟨0⟩, ⟨zero, zero⟩, rfl, rfl⟩
      | 3 => exact ⟨.memoryFill ⟨0⟩, zero, rfl, rfl⟩
      | 4 => exact ⟨.tableInit ⟨0⟩ ⟨0⟩, trivial, rfl, rfl⟩
      | 5 => exact ⟨.elemDrop ⟨0⟩, trivial, rfl, rfl⟩
      | 6 => exact ⟨.tableCopy ⟨0⟩ ⟨0⟩, trivial, rfl, rfl⟩
      | 7 => exact ⟨.tableGrow ⟨0⟩, trivial, rfl, rfl⟩
      | 8 => exact ⟨.tableSize ⟨0⟩, trivial, rfl, rfl⟩
      | 9 => exact ⟨.tableFill ⟨0⟩, trivial, rfl, rfl⟩

namespace Decoder

/-- An opcode that no instruction has is reported. -/
theorem instr_unknown {opcode : UInt8} (none : ∀ i : Instr, i.opcode ≠ opcode) {s t : Input}
    (next : s.Leaves [opcode] t) : Decoder.instr.run s = .error (.unknownOpcode opcode) := by
  have outside : ¬ Instr.HasOpcode opcode.toNat := by
    rw [← Instr.exists_opcode_iff]
    rintro ⟨i, same⟩
    exact none i same
  rw [Decoder.instr, run_bind, Exactly.byte.accepts rfl next]
  change (instrBody opcode).run t = _
  unfold instrBody
  split
  case h_35 =>
    unfold tabledInstr
    split
    · next op found =>
      exact absurd (LoadOp.consecutive.of_entry found).2 (none (.load op default))
    · split
      · next op found =>
        exact absurd (StoreOp.consecutive.of_entry found).2 (none (.store op default))
      · split
        · next op found =>
          obtain ⟨mem, same⟩ := NumericOp.consecutive.of_entry found
          rw [← (NumericOp.own_of_mem_table mem).2] at same
          exact absurd same (none (.numeric op))
        · rfl
  all_goals exact absurd (by decide) outside

/-- A number that no instruction of its group has is reported. -/
theorem instr_unknownNumber {group : UInt8} (opens : group = 0xfc ∨ group = 0xfd) {n : UInt32}
    {x : List UInt8} (number : SpellsU32 n x)
    (none : ∀ i : Instr, i.Encodable → i.opcode = group → i.number? ≠ some n) {s t : Input}
    (next : s.Leaves (group :: x) t) :
    Decoder.instr.run s = .error (.unknownSubopcode group n) := by
  have joined : s.Leaves ([group] ++ x) t := next
  obtain ⟨u, first, rest⟩ := joined.split
  rw [Decoder.instr, run_bind, Exactly.byte.accepts rfl first]
  rcases opens with rfl | rfl
  · have outside : ¬ n.toNat ≤ 17 := by
      rw [← Instr.exists_bulk_iff]
      rintro ⟨i, encodable, opcode, numbered⟩
      exact none i encodable opcode numbered
    change bulkInstr.run u = _
    rw [bulkInstr, run_bind, Exactly.u32.accepts number rest]
    dsimp only
    split
    case h_11 =>
      have behind : NumericOp.saturating.size ≤ n.toNat := by
        change 8 ≤ n.toNat
        omega
      rw [Array.getElem?_eq_none behind]
      rfl
    all_goals exact absurd (by decide) outside
  · change vectorInstr.run u = _
    rw [vectorInstr, run_bind, Exactly.u32.accepts number rest]
    dsimp only
    split
    · next shape found =>
      obtain ⟨imm, rfl⟩ := VectorShape.exists_imm shape
      exact absurd rfl (none (.vector n imm) (VectorImm.fits_of_shape found) rfl)
    · rfl

end Decoder

end WasmMachine
