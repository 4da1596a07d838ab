import WasmMachine.Instr

/-!
# Dumps

A dump writes a value as its constructor applied to its arguments: `Name`, `Name(a, b)`,
`Name { field: x }`, with lists in brackets and numbers in decimal.  It is the form in which
instructions and types appear in listings and in some error texts.
-/

namespace WasmMachine

/-- Values that have a dump. -/
class Dump (α : Type) where
  dump : α → String

export Dump (dump)

namespace Dump

/-- Items in brackets. -/
def list (items : List String) : String := "[" ++ ", ".intercalate items ++ "]"

/-- A constructor applied to at least one argument. -/
def app (name : String) (args : List String) : String :=
  name ++ "(" ++ ", ".intercalate args ++ ")"

/-- A constructor with named fields. -/
def fields (name : String) (args : List (String × String)) : String :=
  name ++ " \x7b " ++ ", ".intercalate (args.map fun (k, v) => k ++ ": " ++ v) ++ " \x7d"

end Dump

open Dump (list app fields)

instance : Dump Nat := ⟨toString⟩
instance : Dump UInt8 := ⟨fun n => toString n.toNat⟩
instance : Dump UInt32 := ⟨fun n => toString n.toNat⟩
instance : Dump UInt64 := ⟨fun n => toString n.toNat⟩
instance : Dump Bool := ⟨toString⟩
instance {α : Type} [Dump α] : Dump (List α) := ⟨fun xs => list (xs.map dump)⟩
instance {α : Type} [Dump α] : Dump (Option α) :=
  ⟨fun x => match x with
    | none => "None"
    | some a => app "Some" [dump a]⟩

/-- The name of an index, by its space. -/
def IndexSpace.indexName : IndexSpace → String
  | .type => "TypeIdx"
  | .func => "FuncIdx"
  | .table => "TableIdx"
  | .mem => "MemIdx"
  | .global => "GlobalIdx"
  | .elem => "ElemIdx"
  | .data => "DataIdx"
  | .localVar => "LocalIdx"
  | .label => "LabelIdx"

instance {space : IndexSpace} : Dump (Idx space) := ⟨fun i => app space.indexName [dump i.val]⟩

/-! ## Types -/

instance : Dump RefType :=
  ⟨fun
    | .funcRef => "FuncRef"
    | .externRef => "ExternRef"⟩

instance : Dump ValType :=
  ⟨fun
    | .i32 => "I32"
    | .i64 => "I64"
    | .f32 => "F32"
    | .f64 => "F64"
    | .v128 => "V128"
    | .ref t => app "Ref" [dump t]⟩

instance : Dump Limits :=
  ⟨fun
    | .atLeast min => app "Min" [dump min]
    | .between min max => app "Range" [dump min, dump max]⟩

instance : Dump MemType := ⟨fun t => app "MemType" [dump t.limits]⟩

instance : Dump TableType := ⟨fun t => app "TableType" [dump t.elem, dump t.limits]⟩

instance : Dump Mutability :=
  ⟨fun
    | .const => "Const"
    | .var => "Variable"⟩

instance : Dump GlobalType := ⟨fun t => app "GlobalType" [dump t.value, dump t.mutability]⟩

instance : Dump BlockType :=
  ⟨fun
    | .empty => "Empty"
    | .val t => app "Val" [dump t]
    | .typeIndex i => app "TypeIndex" [dump i]⟩

/-! ## Names of operations -/

/-- The tag of a signedness inside an operation's name. -/
def Sign.tag : Sign → String
  | .signed => "S"
  | .unsigned => "U"

/-- The integer type of a width, as it begins an operation's name. -/
def Width.intName : Width → String
  | .w32 => "I32"
  | .w64 => "I64"

/-- The float type of a width, as it begins an operation's name. -/
def Width.floatName : Width → String
  | .w32 => "F32"
  | .w64 => "F64"

/-- The part of an instruction name that a comparison of integers gives. -/
def IntCompare.name : IntCompare → String
  | .eq => "Eq"
  | .ne => "Ne"
  | .lt s => "Lt" ++ s.tag
  | .gt s => "Gt" ++ s.tag
  | .le s => "Le" ++ s.tag
  | .ge s => "Ge" ++ s.tag

/-- The part of an instruction name that a bit count gives. -/
def IntUnary.name : IntUnary → String
  | .clz => "Clz"
  | .ctz => "Ctz"
  | .popcnt => "Popcnt"

/-- The part of an instruction name that an operation on two integers gives. -/
def IntBinary.name : IntBinary → String
  | .add => "Add"
  | .sub => "Sub"
  | .mul => "Mul"
  | .div s => "Div" ++ s.tag
  | .rem s => "Rem" ++ s.tag
  | .and => "And"
  | .or => "Ior"
  | .xor => "Xor"
  | .shl => "Shl"
  | .shr s => "Shr" ++ s.tag
  | .rotl => "Rol"
  | .rotr => "Ror"

/-- The part of an instruction name that a comparison of floats gives. -/
def FloatCompare.name : FloatCompare → String
  | .eq => "Eq"
  | .ne => "Ne"
  | .lt => "Lt"
  | .gt => "Gt"
  | .le => "Le"
  | .ge => "Ge"

/-- The part of an instruction name that an operation on one float gives. -/
def FloatUnary.name : FloatUnary → String
  | .abs => "Abs"
  | .neg => "Neg"
  | .ceil => "Ceil"
  | .floor => "Floor"
  | .trunc => "Trunc"
  | .nearest => "NearestInt"
  | .sqrt => "Sqrt"

/-- The part of an instruction name that an operation on two floats gives. -/
def FloatBinary.name : FloatBinary → String
  | .add => "Add"
  | .sub => "Sub"
  | .mul => "Mul"
  | .div => "Div"
  | .min => "Min"
  | .max => "Max"
  | .copysign => "CopySign"

/-- The name of a sign extension. -/
def SignExtension.name : SignExtension → String
  | .i32From8 => "I32SExtendI8"
  | .i32From16 => "I32SExtendI16"
  | .i64From8 => "I64SExtendI8"
  | .i64From16 => "I64SExtendI16"
  | .i64From32 => "I64SExtendI32"

/-- The name of a numeric instruction. -/
def NumericOp.name : NumericOp → String
  | .eqz w => w.intName ++ "Eqz"
  | .intCompare w op => w.intName ++ op.name
  | .intUnary w op => w.intName ++ op.name
  | .intBinary w op => w.intName ++ op.name
  | .floatCompare w op => w.floatName ++ op.name
  | .floatUnary w op => w.floatName ++ op.name
  | .floatBinary w op => w.floatName ++ op.name
  | .wrap => "I32ConvertI64"
  | .extend s => "I64" ++ s.tag ++ "ConvertI32"
  | .truncate dest source s => dest.intName ++ s.tag ++ "Convert" ++ source.floatName
  | .truncateSat dest source s => dest.intName ++ s.tag ++ "ConvertSat" ++ source.floatName
  | .convert dest source s => dest.floatName ++ s.tag ++ "Convert" ++ source.intName
  | .demote => "F32ConvertF64"
  | .promote => "F64ConvertF32"
  | .bitsOfFloat w => w.intName ++ "Reinterpret" ++ w.floatName
  | .floatOfBits w => w.floatName ++ "Reinterpret" ++ w.intName
  | .signExtend k => k.name

/-- The name of a load. -/
def LoadOp.name : LoadOp → String
  | .i32 => "I32Load"
  | .i64 => "I64Load"
  | .f32 => "F32Load"
  | .f64 => "F64Load"
  | .i32From8 s => "I32Load8" ++ s.tag
  | .i32From16 s => "I32Load16" ++ s.tag
  | .i64From8 s => "I64Load8" ++ s.tag
  | .i64From16 s => "I64Load16" ++ s.tag
  | .i64From32 s => "I64Load32" ++ s.tag

/-- The name of a store. -/
def StoreOp.name : StoreOp → String
  | .i32 => "I32Store"
  | .i64 => "I64Store"
  | .f32 => "F32Store"
  | .f64 => "F64Store"
  | .i32To8 => "I32Store8"
  | .i32To16 => "I32Store16"
  | .i64To8 => "I64Store8"
  | .i64To16 => "I64Store16"
  | .i64To32 => "I64Store32"

/-! ## Instructions -/

instance : Dump MemArg := ⟨fun a => app "MemArg" [dump a.align, dump a.offset]⟩

instance : Dump VectorImm :=
  ⟨fun
    | .none => "None"
    | .memArg a => app "MemArg" [dump a]
    | .memArgLane a lane => app "MemArgLane" [dump a, dump lane]
    | .lane lane => app "Lane" [dump lane]
    | .shuffle lanes => app "Shuffle" [dump lanes.toBytes]
    | .const v => app "V128" [dump v.toBytes]⟩

/-- The dump of an instruction. -/
def Instr.dump : Instr → String
  | .unreachable => "Unreachable"
  | .nop => "Nop"
  | .block ty target => fields "Block" [("ty", Dump.dump ty), ("target", Dump.dump target)]
  | .loop ty target => fields "Loop" [("ty", Dump.dump ty), ("target", Dump.dump target)]
  | .ifThen ty target elseTarget =>
    fields "If" [("ty", Dump.dump ty), ("target", Dump.dump target),
      ("else_target", Dump.dump elseTarget)]
  | .elseArm target => fields "Else" [("target", Dump.dump target)]
  | .endOf => "End"
  | .br l => app "Br" [Dump.dump l]
  | .brIf l => app "BrIf" [Dump.dump l]
  | .brTable ls l => app "BrTable" [Dump.dump ls, Dump.dump l]
  | .ret => "Return"
  | .call f => app "Call" [Dump.dump f]
  | .callIndirect ty t => app "CallIndirect" [Dump.dump ty, Dump.dump t]
  | .refNull ty => app "RefNull" [Dump.dump ty]
  | .refIsNull => "RefIsNull"
  | .refFunc f => app "RefFunc" [Dump.dump f]
  | .drop => "Drop"
  | .select => "Select"
  | .selectTyped ts => app "SelectTyped" [Dump.dump ts]
  | .localGet i => app "LocalGet" [Dump.dump i]
  | .localSet i => app "LocalSet" [Dump.dump i]
  | .localTee i => app "LocalTee" [Dump.dump i]
  | .globalGet i => app "GlobalGet" [Dump.dump i]
  | .globalSet i => app "GlobalSet" [Dump.dump i]
  | .tableGet t => app "TableGet" [Dump.dump t]
  | .tableSet t => app "TableSet" [Dump.dump t]
  | .tableInit e t => app "TableInit" [Dump.dump e, Dump.dump t]
  | .elemDrop e => app "ElemDrop" [Dump.dump e]
  | .tableCopy dst src => app "TableCopy" [Dump.dump dst, Dump.dump src]
  | .tableGrow t => app "TableGrow" [Dump.dump t]
  | .tableSize t => app "TableSize" [Dump.dump t]
  | .tableFill t => app "TableFill" [Dump.dump t]
  | .load op arg => app op.name [Dump.dump arg]
  | .store op arg => app op.name [Dump.dump arg]
  | .memorySize m => app "MemorySize" [Dump.dump m]
  | .memoryGrow m => app "MemoryGrow" [Dump.dump m]
  | .memoryInit d m => app "MemoryInit" [Dump.dump d, Dump.dump m]
  | .dataDrop d => app "DataDrop" [Dump.dump d]
  | .memoryCopy dst src => app "MemoryCopy" [Dump.dump dst, Dump.dump src]
  | .memoryFill m => app "MemoryFill" [Dump.dump m]
  | .i32Const v => app "I32Const" [toString v.toInt]
  | .i64Const v => app "I64Const" [toString v.toInt]
  | .f32Const v => app "F32Const" [Dump.dump v.bits]
  | .f64Const v => app "F64Const" [Dump.dump v.bits]
  | .numeric op => op.name
  | .vector op imm => app "Simd" [Dump.dump op, Dump.dump imm]

instance : Dump Instr := ⟨Instr.dump⟩

end WasmMachine
