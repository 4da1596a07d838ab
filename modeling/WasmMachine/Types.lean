/-!
# Types and indices

The static vocabulary of a module: value types, function signatures, limits, the types of
tables, memories and globals, block types, and the indices by which the parts of a module
refer to each other.  The text names of types (`i32`, `(i32, i64) -> (f32)`) are their
`ToString` instances.
-/

namespace WasmMachine

/-! ## Indices -/

/-- The nine index spaces of a module. -/
inductive IndexSpace where
  | type
  | func
  | table
  | mem
  | global
  | elem
  | data
  | localVar
  | label
  deriving DecidableEq, Repr, Inhabited

/-- An index into one index space. -/
structure Idx (space : IndexSpace) where
  val : UInt32
  deriving DecidableEq, Repr, Inhabited

abbrev TypeIdx := Idx .type
abbrev FuncIdx := Idx .func
abbrev TableIdx := Idx .table
abbrev MemIdx := Idx .mem
abbrev GlobalIdx := Idx .global
abbrev ElemIdx := Idx .elem
abbrev DataIdx := Idx .data
abbrev LocalIdx := Idx .localVar
abbrev LabelIdx := Idx .label

/-- The position that an index denotes. -/
def Idx.toNat {space : IndexSpace} (i : Idx space) : Nat := i.val.toNat

theorem Idx.toNat_lt {space : IndexSpace} (i : Idx space) : i.toNat < UInt32.size :=
  i.val.toNat_lt

/-! ## Value types and signatures -/

/-- What a reference refers to: a function, or something that only the host knows. -/
inductive RefType where
  | funcRef
  | externRef
  deriving DecidableEq, Repr, Inhabited

/-- The type of a value. -/
inductive ValType where
  | i32
  | i64
  | f32
  | f64
  | v128
  | ref (type : RefType)
  deriving DecidableEq, Repr, Inhabited

/-- The name of a value type in the text format. -/
def ValType.name : ValType → String
  | .i32 => "i32"
  | .i64 => "i64"
  | .f32 => "f32"
  | .f64 => "f64"
  | .v128 => "v128"
  | .ref .funcRef => "funcref"
  | .ref .externRef => "externref"

instance : ToString ValType := ⟨ValType.name⟩

/-- Every value type. -/
def ValType.all : List ValType :=
  [.i32, .i64, .f32, .f64, .v128, .ref .funcRef, .ref .externRef]

/-- The value type with a given name. -/
def ValType.ofName? (name : String) : Option ValType :=
  ValType.all.find? fun t => t.name == name

/-- A function signature. Two signatures are compatible only if they are equal. -/
structure FuncType where
  params : List ValType
  results : List ValType
  deriving DecidableEq, Repr, Inhabited

/-- The text of a signature: both lists in parentheses, with an arrow between them. -/
def FuncType.name (t : FuncType) : String :=
  let tuple (ts : List ValType) := "(" ++ ", ".intercalate (ts.map ValType.name) ++ ")"
  tuple t.params ++ " -> " ++ tuple t.results

instance : ToString FuncType := ⟨FuncType.name⟩

/-! ## Limits and the types of tables, memories and globals -/

/-- The size limits of a table or memory: a least size and perhaps a greatest one. -/
inductive Limits where
  | atLeast (min : UInt32)
  | between (min max : UInt32)
  deriving DecidableEq, Repr, Inhabited

/-- The least size. -/
def Limits.min : Limits → UInt32
  | .atLeast min => min
  | .between min _ => min

/-- The greatest size, if one is declared. -/
def Limits.max? : Limits → Option UInt32
  | .atLeast _ => none
  | .between _ max => some max

/-- The type of a memory: its limits, in pages. -/
structure MemType where
  limits : Limits
  deriving DecidableEq, Repr, Inhabited

/-- The type of a table: what its slots hold, and its limits, in slots. -/
structure TableType where
  elem : RefType
  limits : Limits
  deriving DecidableEq, Repr, Inhabited

/-- Whether a global may be assigned. -/
inductive Mutability where
  | const
  | var
  deriving DecidableEq, Repr, Inhabited

/-- The type of a global. -/
structure GlobalType where
  value : ValType
  mutability : Mutability
  deriving DecidableEq, Repr, Inhabited

/-- The type of a structured construct: nothing, one result, or a declared signature. -/
inductive BlockType where
  | empty
  | val (type : ValType)
  | typeIndex (idx : TypeIdx)
  deriving DecidableEq, Repr, Inhabited

end WasmMachine
