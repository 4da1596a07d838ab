import WasmMachine.Binary.Leb128

/-!
# The binary form of types
-/

namespace WasmMachine

/-- The reference type that a byte stands for. -/
def RefType.ofByte? : UInt8 → Option RefType
  | 0x70 => some .funcRef
  | 0x6f => some .externRef
  | _ => none

/-- The value type that a byte stands for. -/
def ValType.ofByte? : UInt8 → Option ValType
  | 0x7f => some .i32
  | 0x7e => some .i64
  | 0x7d => some .f32
  | 0x7c => some .f64
  | 0x7b => some .v128
  | b => (RefType.ofByte? b).map .ref

/-- The block type that a signed number stands for: the empty one, a value type by its byte read
as a number of seven bits, or an index. -/
def BlockType.ofInt? (i : Int) : Option BlockType :=
  if i == -64 then some .empty
  else if i < -64 then none
  else if i < 0 then (ValType.ofByte? (UInt8.ofInt (i + 128))).map .val
  else if i < UInt32.size then some (.typeIndex ⟨UInt32.ofNat i.toNat⟩)
  else none

namespace Decoder

/-- One byte that stands for something. -/
def coded {α : Type} (decode? : UInt8 → Option α) (error : UInt8 → DecodeError) : Decoder α := do
  let b ← byte
  match decode? b with
  | some a => return a
  | none => fail (error b)

/-- A reference type is one byte. -/
def refType : Decoder RefType := coded RefType.ofByte? .badType

/-- A value type is one byte. -/
def valType : Decoder ValType := coded ValType.ofByte? .badType

/-- Whether a global may be assigned is one byte. -/
def mutability : Decoder Mutability :=
  coded (fun
    | 0 => some .const
    | 1 => some .var
    | _ => none) .badMutability

/-- A signature: a fixed byte, the parameters, the results. -/
def funcType : Decoder FuncType := do
  let form ← byte
  if form ≠ 0x60 then
    fail (.badTypeForm form)
  else
    return ⟨← vec valType, ← vec valType⟩

/-- Limits: a byte that says whether there is a greatest size, then the sizes. -/
def limits : Decoder Limits := do
  match ← byte with
  | 0 => return .atLeast (← u32)
  | 1 => return .between (← u32) (← u32)
  | flag => fail (.badLimitsFlag flag)

/-- The type of a memory is its limits. -/
def memType : Decoder MemType := do
  return ⟨← limits⟩

/-- The type of a table: what its slots hold, then its limits. -/
def tableType : Decoder TableType := do
  return ⟨← refType, ← limits⟩

/-- The type of a global: that of its value, then whether it may be assigned. -/
def globalType : Decoder GlobalType := do
  return ⟨← valType, ← mutability⟩

/-- A block type is one signed number of 64 bits. -/
def blockType : Decoder BlockType := do
  let i ← i64
  match BlockType.ofInt? i.toInt with
  | some t => return t
  | none => fail (.badBlockType i)

/-- The alignment hint and the offset of a memory access. -/
def memArg : Decoder MemArg := do
  return ⟨← u32, ← u32⟩

end Decoder

end WasmMachine
