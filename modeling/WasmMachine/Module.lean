import WasmMachine.Dump

/-!
# Modules

What a module declares, section by section (`Sections`), and the module that `Sections.build`
makes of it (`Module`), in which each index space lists the imports first and then the module's
own definitions in declaration order.
-/

namespace WasmMachine

/-! ## Declarations -/

/-- What an import asks for. -/
inductive ImportDesc where
  | func (type : TypeIdx)
  | table (type : TableType)
  | mem (type : MemType)
  | global (type : GlobalType)
  deriving DecidableEq, Repr, Inhabited

/-- An import, by the names of the module that provides it and of the thing provided. -/
structure Import where
  module : String
  name : String
  desc : ImportDesc
  deriving DecidableEq, Repr, Inhabited

/-- What an export hands out. -/
inductive ExportDesc where
  | func (idx : FuncIdx)
  | table (idx : TableIdx)
  | mem (idx : MemIdx)
  | global (idx : GlobalIdx)
  deriving DecidableEq, Repr, Inhabited

/-- An export. -/
structure Export where
  name : String
  desc : ExportDesc
  deriving DecidableEq, Repr, Inhabited

/-- A global and the constant expression of its first value. -/
structure Global where
  type : GlobalType
  init : Code
  deriving DecidableEq, Repr, Inhabited

/-- What becomes of an element segment when its module is instantiated. -/
inductive ElemMode where
  | passive
  | active (table : TableIdx) (offset : Code)
  | declarative
  deriving DecidableEq, Repr, Inhabited

/-- The items of an element segment: functions, or constant expressions for references. -/
inductive ElemItems where
  | funcs (idxs : List FuncIdx)
  | exprs (exprs : List Code)
  deriving DecidableEq, Repr, Inhabited

/-- The number of items. -/
def ElemItems.length : ElemItems → Nat
  | .funcs is => is.length
  | .exprs es => es.length

/-- An element segment, with the tag that it is encoded by. -/
structure ElemSegment where
  mode : ElemMode
  type : RefType
  items : ElemItems
  tag : UInt8
  deriving DecidableEq, Repr, Inhabited

/-- What becomes of a data segment when its module is instantiated. -/
inductive DataMode where
  | passive
  | active (mem : MemIdx) (offset : Code)
  deriving DecidableEq, Repr, Inhabited

/-- A data segment. -/
structure DataSegment where
  mode : DataMode
  bytes : List UInt8
  deriving DecidableEq, Repr, Inhabited

/-- A run of locals of one type. -/
structure LocalGroup where
  count : UInt32
  type : ValType
  deriving DecidableEq, Repr, Inhabited

/-- A function body as it is declared, its locals still in runs. -/
structure Body where
  locals : List LocalGroup
  code : Code
  deriving DecidableEq, Repr, Inhabited

/-- A section that the module format gives no meaning to. -/
structure CustomSection where
  name : String
  bytes : List UInt8
  deriving DecidableEq, Repr, Inhabited

/-- The contents of a module's sections. -/
structure Sections where
  types : List FuncType := []
  imports : List Import := []
  funcs : List TypeIdx := []
  tables : List TableType := []
  memories : List MemType := []
  globals : List Global := []
  exports : List Export := []
  start : Option FuncIdx := none
  elems : List ElemSegment := []
  bodies : List Body := []
  datas : List DataSegment := []
  dataCount : Option UInt32 := none
  custom : List CustomSection := []
  deriving DecidableEq, Repr, Inhabited

/-! ## Modules -/

/-- The body of a defined function: its locals, one entry for each, without the parameters. -/
structure FuncBody where
  locals : List ValType
  code : Code
  deriving DecidableEq, Repr, Inhabited

/-- An entry of the function index space; an imported function has no body. -/
structure FuncDecl where
  typeIdx : TypeIdx
  type : FuncType
  body : Option FuncBody
  deriving DecidableEq, Repr, Inhabited

/-- An entry of the global index space; an imported global has no initialiser. -/
structure GlobalDecl where
  type : GlobalType
  init : Option Code
  deriving DecidableEq, Repr, Inhabited

/-- A module. Each index space lists the imports first, then the definitions. -/
structure Module where
  types : Array FuncType
  imports : List Import
  funcs : List FuncDecl
  tables : List TableType
  memories : List MemType
  globals : List GlobalDecl
  elems : List ElemSegment
  datas : List DataSegment
  exports : List Export
  start : Option FuncIdx
  dataCount : Option UInt32
  custom : List CustomSection
  deriving DecidableEq, Repr, Inhabited

/-- The first export of a name. -/
def Module.export? (m : Module) (name : String) : Option ExportDesc :=
  (m.exports.find? fun e => e.name == name).map (·.desc)

/-! ## Imports by kind -/

/-- The type of a function that is asked for. -/
def ImportDesc.func? : ImportDesc → Option TypeIdx
  | .func i => some i
  | _ => none

/-- The type of a table that is asked for. -/
def ImportDesc.table? : ImportDesc → Option TableType
  | .table t => some t
  | _ => none

/-- The type of a memory that is asked for. -/
def ImportDesc.mem? : ImportDesc → Option MemType
  | .mem t => some t
  | _ => none

/-- The type of a global that is asked for. -/
def ImportDesc.global? : ImportDesc → Option GlobalType
  | .global t => some t
  | _ => none

/-- The types of the imported functions, in import order. -/
def Module.importedFuncs (m : Module) : List TypeIdx := m.imports.filterMap (·.desc.func?)

/-- The imported tables, in import order. -/
def Module.importedTables (m : Module) : List TableType := m.imports.filterMap (·.desc.table?)

/-- The imported memories, in import order. -/
def Module.importedMemories (m : Module) : List MemType := m.imports.filterMap (·.desc.mem?)

/-- The imported globals, in import order. -/
def Module.importedGlobals (m : Module) : List GlobalType := m.imports.filterMap (·.desc.global?)

/-- The text of an import: its kind and its two names. -/
def Import.text (i : Import) : String :=
  let kind := match i.desc with
    | .func _ => "func"
    | .table _ => "table"
    | .mem _ => "memory"
    | .global _ => "global"
  kind ++ " " ++ i.module ++ "." ++ i.name

instance : ToString Import := ⟨Import.text⟩

/-! ## Building a module -/

/-- Why sections do not make a module. -/
inductive ModuleError where
  | bodyCount (funcs bodies : Nat)
  | typeIndex (idx : UInt32)
  | tooManyLocals (func : Nat)
  deriving DecidableEq, Repr, Inhabited

/-- The most locals that a body may declare, parameters aside. -/
def maxLocals : Nat := 50000

/-- The wording of the error. -/
def ModuleError.message : ModuleError → String
  | .bodyCount funcs bodies =>
    s!"function section declares {funcs} functions but the code section has {bodies}"
  | .typeIndex idx => s!"type index {idx.toNat} out of range"
  | .tooManyLocals func => s!"function {func} declares more than {maxLocals} locals"

/-- The locals of a body, one entry for each. -/
def Body.expandLocals (b : Body) : List ValType :=
  b.locals.flatMap fun g => List.replicate g.count.toNat g.type

/-- A sum of two numbers of 32 bits; none if it needs more. -/
def checkedAdd (a b : UInt32) : Option UInt32 :=
  if a.toNat + b.toNat < UInt32.size then some (a + b) else none

/-- The number of locals that a body declares; none as soon as that is more than it may. -/
def Body.declared? (b : Body) : Option UInt32 :=
  b.locals.foldlM (fun sum group =>
    (checkedAdd sum group.count).filter fun total => total.toNat ≤ maxLocals) 0

/-- The type that an index of the type section denotes. -/
def lookupType (types : Array FuncType) (idx : TypeIdx) : Except ModuleError FuncType :=
  match types[idx.toNat]? with
  | some t => .ok t
  | none => .error (.typeIndex idx.val)

/-- The entry of an imported function. -/
def FuncDecl.imported (types : Array FuncType) (idx : TypeIdx) : Except ModuleError FuncDecl := do
  return ⟨idx, ← lookupType types idx, none⟩

/-- The entry of a defined function, which is number `pos` of the index space. -/
def FuncDecl.defined (types : Array FuncType) (pos : Nat) (idx : TypeIdx) (body : Body) :
    Except ModuleError FuncDecl := do
  if body.declared?.isNone then
    throw (.tooManyLocals pos)
  return ⟨idx, ← lookupType types idx, some ⟨body.expandLocals, body.code⟩⟩

/-- The index spaces of a module, as far as they have been filled. -/
structure Spaces where
  funcs : Array FuncDecl := #[]
  tables : Array TableType := #[]
  memories : Array MemType := #[]
  globals : Array GlobalDecl := #[]
  deriving Inhabited

/-- Append what an import asks for to its index space. -/
def Spaces.addImport (types : Array FuncType) (s : Spaces) (i : Import) :
    Except ModuleError Spaces := do
  match i.desc with
  | .func idx => return { s with funcs := s.funcs.push (← FuncDecl.imported types idx) }
  | .table t => return { s with tables := s.tables.push t }
  | .mem t => return { s with memories := s.memories.push t }
  | .global t => return { s with globals := s.globals.push ⟨t, none⟩ }

/-- Append a function that the module defines. -/
def Spaces.addFunc (types : Array FuncType) (s : Spaces) (entry : TypeIdx × Body) :
    Except ModuleError Spaces := do
  return { s with
    funcs := s.funcs.push (← FuncDecl.defined types s.funcs.size entry.1 entry.2) }

/-- Join the imports, the function section and the code section, and likewise the other index
spaces. The first defect is reported: the two counts, then the imported functions in order, then
the defined ones in order, each by its locals before its type. -/
def Sections.build (s : Sections) : Except ModuleError Module := do
  if s.funcs.length ≠ s.bodies.length then
    throw (.bodyCount s.funcs.length s.bodies.length)
  let types := s.types.toArray
  let imported ← s.imports.foldlM (Spaces.addImport types) {}
  let spaces ← (s.funcs.zip s.bodies).foldlM (Spaces.addFunc types) imported
  return {
    types
    imports := s.imports
    funcs := spaces.funcs.toList
    tables := spaces.tables.toList ++ s.tables
    memories := spaces.memories.toList ++ s.memories
    globals := spaces.globals.toList ++ s.globals.map fun g => ⟨g.type, some g.init⟩
    elems := s.elems
    datas := s.datas
    exports := s.exports
    start := s.start
    dataCount := s.dataCount
    custom := s.custom }

/-! ## Dumps -/

instance : Dump ImportDesc :=
  ⟨fun
    | .func i => Dump.app "Func" [dump i]
    | .table t => Dump.app "Table" [dump t]
    | .mem t => Dump.app "Mem" [dump t]
    | .global t => Dump.app "Global" [dump t]⟩

instance : Dump ExportDesc :=
  ⟨fun
    | .func i => Dump.app "Func" [dump i]
    | .table i => Dump.app "Table" [dump i]
    | .mem i => Dump.app "Mem" [dump i]
    | .global i => Dump.app "Global" [dump i]⟩

end WasmMachine
