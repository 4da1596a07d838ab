import WasmMachine.Module

/-!
# Decoding errors

Why a byte string is not a module, and the wording of each reason.  Positions count from the
start of the byte string.  A read that lacks bytes is `malformed` of kind `eof`, at the place
where the read begins; a number that is written with too many bytes is `malformed` of kind
`fail`, at the place after its last byte.
-/

namespace WasmMachine

/-- The two ways in which bytes can be malformed. -/
inductive MalformedKind where
  | eof
  | fail
  deriving DecidableEq, Repr, Inhabited

/-- Why a byte string is not a module. -/
inductive DecodeError where
  | badMagic (got : UInt32)
  | unexpectedVersion (version : UInt32)
  | badTypeForm (got : UInt8)
  | badType (got : UInt8)
  | badLimitsFlag (got : UInt8)
  | badMutability (got : UInt8)
  | badBlockType (got : Int64)
  | badImportKind (got : UInt8)
  | badExportKind (got : UInt8)
  | badElemTag (tag : UInt32)
  | badElemKind (got : UInt8)
  | badDataTag (tag : UInt32)
  | unknownOpcode (opcode : UInt8)
  | unknownSubopcode (opcode : UInt8) (sub : UInt32)
  | unexpectedElse (pos : Nat)
  | sizeMismatch (pos trailing : Nat)
  | badUtf8 (pos : Nat)
  | malformed (pos : Nat) (kind : MalformedKind)
  | module (error : ModuleError)
  deriving DecidableEq, Repr, Inhabited

/-- A number in upper-case hexadecimal, without padding. -/
def hexUpper (n : Nat) : String :=
  (String.ofList (Nat.toDigits 16 n)).toUpper

/-- The name of a malformation. -/
def MalformedKind.name : MalformedKind → String
  | .eof => "Eof"
  | .fail => "Fail"

/-- The wording of the error. -/
def DecodeError.message : DecodeError → String
  | .badMagic got =>
    "Bad magic number (expected 0061736DH ('\\0asm'), got " ++ hexUpper got.toNat ++ "H"
  | .unexpectedVersion v => "Unexpected version " ++ toString v.toNat
  | .badTypeForm b => "Bad type prefix (expected 60H, got " ++ hexUpper b.toNat ++ "H)"
  | .badType b => "Bad type (got " ++ hexUpper b.toNat ++ "H)"
  | .badLimitsFlag b => "Bad limits flag (got " ++ hexUpper b.toNat ++ "H)"
  | .badMutability b => "Bad mutability (got " ++ hexUpper b.toNat ++ "H)"
  | .badBlockType i => "Bad block type " ++ toString i.toInt
  | .badImportKind b => "Bad import descriptor type (got " ++ hexUpper b.toNat ++ "H)"
  | .badExportKind b => "Bad export descriptor type (got " ++ hexUpper b.toNat ++ "H)"
  | .badElemTag n => "Bad element segment tag " ++ toString n.toNat
  | .badElemKind b => "Bad element kind (got " ++ hexUpper b.toNat ++ "H)"
  | .badDataTag n => "Bad data segment tag " ++ toString n.toNat
  | .unknownOpcode b => "Unknown opcode " ++ hexUpper b.toNat ++ "H"
  | .unknownSubopcode b n => "Unknown opcode " ++ hexUpper b.toNat ++ "H " ++ toString n.toNat
  | .unexpectedElse pos => "else outside of an if at position " ++ toString pos
  | .sizeMismatch pos trailing =>
    toString trailing ++ " unread bytes at position " ++ toString pos
  | .badUtf8 pos => "invalid utf-8 name at position " ++ toString pos
  | .malformed pos kind =>
    "malformed input at position " ++ toString pos ++ " (" ++ kind.name ++ ")"
  | .module e => e.message

end WasmMachine
