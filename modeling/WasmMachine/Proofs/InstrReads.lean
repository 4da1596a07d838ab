import WasmMachine.Proofs.InstrForms

/-!
# Instructions are read back

Each instruction that has a form is read back from it (`Decoder.Reads.instr`).  The opcodes that
stand in a table are led there by the decoder's own cases; the two groups continue with a number.
-/

namespace WasmMachine

open Leb128 (ofNat ofInt)

namespace Decoder.Reads

variable {α : Type} {bs : List UInt8} {a : α}

/-! ## Opcodes that stand in a table -/

/-- Between the first load and the last numeric instruction, only a few opcodes are in no
table. -/
theorem instrBody_eq_tabled {opcode : UInt8} (low : 0x28 ≤ opcode.toNat)
    (high : opcode.toNat < 0xc5) (tabled : opcode.toNat < 0x3f ∨ 0x44 < opcode.toNat) :
    instrBody opcode = tabledInstr opcode := by
  unfold instrBody
  -- each opcode with a case of its own lies outside one of the bounds
  split
  all_goals
    first
      | exact absurd low (by decide)
      | exact absurd high (by decide)
      | exact absurd tabled (by decide)
      | rfl

theorem size_load : LoadOp.table.size = 14 := rfl

theorem size_store : StoreOp.table.size = 9 := rfl

theorem size_numeric : NumericOp.table.size = 128 := by
  simp [NumericOp.table, IntCompare.all, IntUnary.all, IntBinary.all, FloatCompare.all,
    FloatUnary.all, FloatBinary.all]

/-- The opcode of a load is found in the first table. -/
theorem instrBody_load (op : LoadOp) :
    instrBody op.code = Decoder.memArg >>= fun arg => Pure.pure (.load op arg) := by
  have bound : LoadOp.firstOpcode + LoadOp.table.size ≤ 256 := by decide
  obtain ⟨i, inside, -, opcode⟩ := LoadOp.consecutive.code_of_mem bound op.mem_table
  rw [LoadOp.firstOpcode] at opcode
  rw [size_load] at inside
  rw [instrBody_eq_tabled (by omega) (by omega) (by omega), tabledInstr,
    LoadOp.consecutive.found bound op.mem_table]

theorem instrBody_store (op : StoreOp) :
    instrBody op.code = Decoder.memArg >>= fun arg => Pure.pure (.store op arg) := by
  have bound : StoreOp.firstOpcode + StoreOp.table.size ≤ 256 := by decide
  obtain ⟨i, inside, -, opcode⟩ := StoreOp.consecutive.code_of_mem bound op.mem_table
  rw [StoreOp.firstOpcode] at opcode
  rw [size_store] at inside
  have noLoad : lookup? LoadOp.table LoadOp.firstOpcode op.code = none :=
    lookup?_eq_none (by rw [size_load, LoadOp.firstOpcode]; omega)
  rw [instrBody_eq_tabled (by omega) (by omega) (by omega), tabledInstr, noLoad,
    StoreOp.consecutive.found bound op.mem_table]

/-- That of a numeric instruction is found in the last one, and not in those before. -/
theorem instrBody_numeric {op : NumericOp} (own : op.encode = [op.code]) :
    instrBody op.code = Pure.pure (.numeric op) := by
  have bound : NumericOp.firstOpcode + NumericOp.table.size ≤ 256 := by
    rw [size_numeric, NumericOp.firstOpcode]
    decide
  have mem := NumericOp.mem_table own
  obtain ⟨i, inside, -, opcode⟩ := NumericOp.consecutive.code_of_mem bound mem
  rw [NumericOp.firstOpcode] at opcode
  rw [size_numeric] at inside
  have noLoad : lookup? LoadOp.table LoadOp.firstOpcode op.code = none :=
    lookup?_eq_none (by rw [size_load, LoadOp.firstOpcode]; omega)
  have noStore : lookup? StoreOp.table StoreOp.firstOpcode op.code = none :=
    lookup?_eq_none (by rw [size_store, StoreOp.firstOpcode]; omega)
  rw [instrBody_eq_tabled (by omega) (by omega) (by omega), tabledInstr, noLoad, noStore,
    NumericOp.consecutive.found bound mem]

theorem load (op : LoadOp) (arg : MemArg) :
    Decoder.instr.Reads (op.code :: arg.encode) (.load op arg) := by
  refine afterByte ?_
  rw [instrBody_load]
  exact (memArg arg).map

theorem store (op : StoreOp) (arg : MemArg) :
    Decoder.instr.Reads (op.code :: arg.encode) (.store op arg) := by
  refine afterByte ?_
  rw [instrBody_store]
  exact (memArg arg).map

theorem numericOpcode {op : NumericOp} (own : op.encode = [op.code]) :
    Decoder.instr.Reads op.encode (.numeric op) := by
  rw [own]
  refine afterByte ?_
  rw [instrBody_numeric own]
  exact .pure _

/-! ## Groups -/

/-- A number that one byte has room for. -/
theorem afterNumber {k : UInt32 → Decoder α} {n : UInt8} (small : n.toNat < 128)
    (second : (k n.toUInt32).Reads bs a) : (Decoder.u32 >>= k).Reads (n :: bs) a := by
  have number := u32 n.toUInt32
  rw [ofNat, UInt8.toNat_toUInt32, if_pos small, UInt8.ofNat_toNat] at number
  exact number.bind second

/-- A numeric instruction is read from its opcode, or from the prefix and the number behind it. -/
theorem numeric (op : NumericOp) : Decoder.instr.Reads op.encode (.numeric op) := by
  cases op with
  | truncateSat dest source sign =>
    cases dest <;> cases source <;> cases sign <;>
      exact afterByte (afterNumber (by decide) (.pure _))
  | _ => exact numericOpcode rfl

/-! ## Immediates -/

/-- The index of a memory is read from one byte. -/
theorem memIdx {mem : MemIdx} (small : mem.toNat < 256) :
    Decoder.memIdx.Reads [memByte mem] mem := by
  have same : mem.val.toUInt8.toUInt32 = mem.val := by
    apply UInt32.toNat_inj.mp
    rw [UInt8.toNat_toUInt32, UInt32.toNat_toUInt8]
    exact Nat.mod_eq_of_lt small
  have reads := (byte (memByte mem)).map (f := fun b => (⟨b.toUInt32⟩ : MemIdx))
  rw [memByte, same] at reads
  exact reads

theorem word (n : Nat) (w : UInt64) :
    (Decoder.word n).Reads (leBytes n w) (ofLeBytes (leBytes n w)) := by
  have reads := take (leBytes n w)
  rw [length_leBytes] at reads
  exact reads.map

theorem value (v : Value) : Decoder.value.Reads v.toBytes v := by
  have reads := take v.toBytes
  rw [Value.length_toBytes] at reads
  have made := reads.map (f := Value.ofBytes)
  rwa [Value.ofBytes_toBytes] at made

theorem f32 (x : F32) : (instrBody 0x43).Reads (Native.toBytes x) (.f32Const x) := by
  have reads := (word 4 (Native.toWord x)).map (f := fun w => Instr.f32Const ⟨w.toUInt32⟩)
  have same : (⟨(ofLeBytes (Native.toBytes x)).toUInt32⟩ : F32) = x := Native.ofBytes_toBytes x
  change (instrBody 0x43).Reads _ (.f32Const ⟨(ofLeBytes (Native.toBytes x)).toUInt32⟩) at reads
  rwa [same] at reads

theorem f64 (x : F64) : (instrBody 0x44).Reads (Native.toBytes x) (.f64Const x) := by
  have reads := (word 8 (Native.toWord x)).map (f := fun w => Instr.f64Const ⟨w⟩)
  have same : (⟨ofLeBytes (Native.toBytes x)⟩ : F64) = x := Native.ofBytes_toBytes x
  change (instrBody 0x44).Reads _ (.f64Const ⟨ofLeBytes (Native.toBytes x)⟩) at reads
  rwa [same] at reads

/-- The decoder expects the immediate that a vector instruction takes. -/
theorem shape_of_fits {number : Nat} {imm : VectorImm} (fits : imm.Fits number) :
    VectorShape.ofNumber? number = some imm.shape := by
  cases imm with
  | none | memArg | memArgLane | lane =>
    unfold VectorImm.Fits at fits
    grind [VectorShape.ofNumber?, VectorImm.shape]
  | shuffle =>
    cases fits
    rfl
  | const =>
    cases fits
    rfl

theorem vectorImm (imm : VectorImm) : (Decoder.vectorImm imm.shape).Reads imm.encode imm := by
  cases imm with
  | none => exact .pure _
  | memArg arg => exact (memArg arg).map
  | memArgLane arg i => exact (memArg arg).bind (byte i).map
  | lane i => exact (byte i).map
  | shuffle v | const v => exact (value v).map

/-- A vector instruction is read by the shape of its operands. -/
theorem vector {number : UInt32} {imm : VectorImm} (fits : imm.Fits number.toNat) :
    Decoder.instr.Reads (Instr.vector number imm).encode (.vector number imm) := by
  refine afterByte ((u32 number).bind ?_)
  rw [shape_of_fits fits]
  exact (vectorImm imm).map

/-! ## Instructions -/

/-- An instruction that has a form is read back from it, with targets of zero. -/
theorem instr {i : Instr} (encodable : i.Encodable) :
    Decoder.instr.Reads i.encode (i.withTargets 0 0) := by
  cases i with
  | unreachable | nop | elseArm | endOf | ret | drop | select | refIsNull =>
    exact afterByte (.pure _)
  | block type target | loop type target | ifThen type target elseTarget =>
    exact afterByte (blockType type).map
  | br i | brIf i | call i | localGet i | localSet i | localTee i | globalGet i | globalSet i
  | tableGet i | tableSet i | refFunc i => exact afterByte (idx i).map
  | brTable labels fallback =>
    exact afterByte ((indices labels).bind (idx fallback).map)
  | callIndirect type table => exact afterByte ((idx type).bind (idx table).map)
  | selectTyped types => exact afterByte (valTypes types).map
  | refNull type => exact afterByte (refType type).map
  | memorySize mem | memoryGrow mem => exact afterByte (memIdx encodable).map
  | i32Const x => exact afterByte (i32 x).map
  | i64Const x => exact afterByte (i64 x).map
  | f32Const x => exact afterByte (f32 x)
  | f64Const x => exact afterByte (f64 x)
  | load op arg => exact load op arg
  | store op arg => exact store op arg
  | numeric op => exact numeric op
  | vector number imm => exact vector encodable
  | memoryInit segment mem =>
    exact afterByte (afterNumber (by decide) ((idx segment).bind (memIdx encodable).map))
  | memoryCopy dst src =>
    exact afterByte (afterNumber (by decide) ((memIdx encodable.1).bind (memIdx encodable.2).map))
  | memoryFill mem => exact afterByte (afterNumber (by decide) (memIdx encodable).map)
  | dataDrop i | elemDrop i | tableGrow i | tableSize i | tableFill i =>
    exact afterByte (afterNumber (by decide) (idx i).map)
  | tableInit segment table =>
    exact afterByte (afterNumber (by decide) ((idx segment).bind (idx table).map))
  | tableCopy dst src =>
    exact afterByte (afterNumber (by decide) ((idx dst).bind (idx src).map))

end Decoder.Reads

end WasmMachine
