import WasmMachine.Binary.Error

/-!
# Traps

The causes for which a run is abandoned, with the wording of each.  `Halt` adds the two ways in
which a host function can leave a run on purpose.
-/

namespace WasmMachine

/-- What an index space holds, in words. -/
def IndexSpace.noun : IndexSpace → String
  | .type => "type"
  | .func => "function"
  | .table => "table"
  | .mem => "memory"
  | .global => "global"
  | .elem => "element segment"
  | .data => "data segment"
  | .localVar => "local"
  | .label => "label"

/-- How the addresses given for imports fail to match them. -/
inductive LinkError where
  /-- The numbers of addresses and of imports differ. -/
  | count (funcs tables memories globals : Nat) (imports : List Import)
  /-- There is nothing at an address. -/
  | absent (wanted : Import) (space : IndexSpace) (addr : Nat)
  | funcType (wanted : Import) (expected got : FuncType)
  | tableType (wanted : Import) (expected got : TableType)
  | memLimits (wanted : Import) (expected got : Limits)
  /-- No export and no host function has the names of an import. -/
  | unresolved (wanted : Import)
  deriving DecidableEq, Repr

/-- The wording of the error. -/
def LinkError.message : LinkError → String
  | .count funcs tables memories globals imports =>
    s!"Import count mismatch: got {funcs} funcs, {tables} tables, {memories} memories, {globals} "
      ++ "globals for imports [" ++ ", ".intercalate (imports.map Import.text) ++ "]"
  | .absent i space addr =>
    "Import " ++ i.text ++ ": no " ++ space.noun ++ " at address " ++ toString addr
  | .funcType i expected got =>
    "Import " ++ i.text ++ ": expected type " ++ expected.name ++ ", got " ++ got.name
  | .tableType i expected got =>
    "Import " ++ i.text ++ ": expected " ++ dump expected ++ ", got " ++ dump got
  | .memLimits i expected got =>
    "Import " ++ i.text ++ ": expected " ++ dump expected ++ ", got " ++ dump got
  | .unresolved i => "Could not resolve import " ++ i.text

/-- Why a run is abandoned. -/
inductive Trap where
  | unreachable
  | stackUnderflow
  | labelUnderflow
  | unknownLabel (depth : Nat)
  | undefinedElement
  | uninitializedElement
  | indirectCallType
  | tableBounds
  | memoryBounds
  /-- An index that its index space does not have. -/
  | index (space : IndexSpace) (idx : Nat)
  /-- An address that the store does not have. -/
  | address (space : IndexSpace) (addr : Nat)
  | nonzeroMemory (idx : Nat)
  | noLocal (idx : Nat)
  | elemDropped (idx : Nat)
  | dataDropped (idx : Nat)
  | divideByZero
  | integerOverflow
  | invalidConversion
  | unsupported
  | fuelExhausted
  | noFrame
  | noInstance (idx : Nat)
  | codeEnd (pc : Nat)
  | callDepth
  | noCaller
  | resultCount (got expected : Nat)
  | callerGone (idx : Nat)
  | hostResultCount
  | argumentCount (expected got : Nat)
  | noMemory
  | constantResultCount
  | entryGone
  | constantGone
  | noExport (name : String)
  | escapedLongjmp
  | noHostFunc (key : String) (expected : FuncType)
  | link (error : LinkError)
  /-- A trap that a host function words itself. -/
  | host (text : String)
  deriving DecidableEq, Repr

instance : Inhabited Trap := ⟨.unreachable⟩

/-- The wording of the trap. -/
def Trap.message : Trap → String
  | .unreachable => "unreachable"
  | .stackUnderflow => "stack underflow"
  | .labelUnderflow => "label stack underflow"
  | .unknownLabel depth => s!"unknown label {depth}"
  | .undefinedElement => "undefined element"
  | .uninitializedElement => "uninitialized element"
  | .indirectCallType => "indirect call type mismatch"
  | .tableBounds => "out of bounds table access"
  | .memoryBounds => "out of bounds memory access"
  | .index space idx => space.noun ++ " index " ++ toString idx ++ " out of range"
  | .address space addr => space.noun ++ " address " ++ toString addr ++ " out of range"
  | .nonzeroMemory idx => s!"Nonzero memory {idx} accessed."
  | .noLocal idx => s!"local {idx} out of range"
  | .elemDropped idx => s!"element segment {idx} has been dropped"
  | .dataDropped idx => s!"data segment {idx} has been dropped"
  | .divideByZero => "integer divide by zero"
  | .integerOverflow => "integer overflow"
  | .invalidConversion => "invalid conversion to integer"
  | .unsupported => "unsupported instruction"
  | .fuelExhausted => "Step budget exceeded"
  | .noFrame => "no frame to step"
  | .noInstance idx => s!"instance {idx} out of range"
  | .codeEnd pc => s!"pc {pc} out of range"
  | .callDepth => "call stack exhausted"
  | .noCaller => "no caller frame"
  | .resultCount got expected => s!"function left {got} values, expected {expected}"
  | .callerGone idx => s!"caller frame {idx} is gone"
  | .hostResultCount => "host function left too few values"
  | .argumentCount expected got => s!"expected {expected} arguments, got {got}"
  | .noMemory => "no memory allocated"
  | .constantResultCount => "Global init expr did not leave exactly one value on the stack"
  | .entryGone => "entry frame is gone"
  | .constantGone => "constant expression frame is gone"
  | .noExport name => "no exported function named " ++ name
  | .escapedLongjmp => "longjmp escaped to top level"
  | .noHostFunc key expected =>
    "Could not find host function " ++ key ++ " (expected " ++ expected.name ++ ")"
  | .link e => e.message
  | .host text => text

/-- A decoding error, met while running, is a trap with the same wording. -/
def Trap.ofDecodeError (e : DecodeError) : Trap := .host e.message

/-- Everything that can stop a run before it returns. -/
inductive Halt where
  | trap (cause : Trap)
  /-- The guest asked to end with an exit code. -/
  | exit (code : Int32)
  /-- A jump back to the nearest trampoline. -/
  | longjmp
  deriving DecidableEq, Repr, Inhabited

/-- The wording of the halt. -/
def Halt.message : Halt → String
  | .trap cause => cause.message
  | .exit code => "exit(" ++ toString code.toInt ++ ")"
  | .longjmp => "longjmp"

end WasmMachine
