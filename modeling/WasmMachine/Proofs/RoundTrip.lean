import Mathlib.Algebra.GroupWithZero.Nat
import WasmMachine.Proofs.Building
import WasmMachine.Proofs.ModuleForms

/-!
# Decoding undoes encoding

A module that is written in its canonical form is decoded, and to what it says
(`ModuleSource.decode_encode`).  `ModuleSource.module` spells out the result: each index space
lists the imports first, the locals of a body are expanded one entry per slot, and its code is
flat.

What a form has to satisfy is in `ModuleSource.Valid`: as many functions as bodies, types that
exist, no more locals than are allowed, and payloads whose size can be written.
-/

namespace WasmMachine

/-! ## The module that is meant -/

/-- The types of the locals of a body, one entry for each slot. -/
def BodySource.slots (b : BodySource) : List ValType :=
  b.locals.flatMap fun group => List.replicate group.count.toNat group.type

namespace ModuleSource

/-- The signature of an index. -/
def signature (m : ModuleSource) (idx : TypeIdx) : FuncType := m.types.getD idx.toNat default

/-- The imported functions, in import order. -/
def importedFuncs (m : ModuleSource) : List FuncDecl :=
  (m.imports.filterMap (·.desc.func?)).map fun idx => ⟨idx, m.signature idx, none⟩

/-- The functions with a body, in the order of the bodies. -/
def definedFuncs (m : ModuleSource) : List FuncDecl :=
  (m.funcs.zip m.bodies).map fun (idx, b) => ⟨idx, m.signature idx, some ⟨b.slots, b.expr.code⟩⟩

/-- The imported globals, in import order. -/
def importedGlobals (m : ModuleSource) : List GlobalDecl :=
  (m.imports.filterMap (·.desc.global?)).map fun type => ⟨type, none⟩

/-- The module that a source means. -/
def module (m : ModuleSource) : Module where
  types := m.types.toArray
  imports := m.imports
  funcs := m.importedFuncs ++ m.definedFuncs
  tables := m.imports.filterMap (·.desc.table?) ++ m.tables
  memories := m.imports.filterMap (·.desc.mem?) ++ m.memories
  globals := m.importedGlobals ++ m.globals.map fun g => ⟨g.type, some g.init.code⟩
  elems := m.elems.map ElemSource.segment
  datas := m.datas.map DataSource.segment
  exports := m.exports
  start := m.start
  dataCount := m.dataCount
  custom := m.customSections

/-- What a source has to satisfy for its form to be accepted. -/
structure Valid (m : ModuleSource) : Prop where
  counts : m.funcs.length = m.bodies.length
  imported : ∀ idx ∈ m.imports.filterMap (·.desc.func?), idx.toNat < m.types.length
  defined : ∀ idx ∈ m.funcs, idx.toNat < m.types.length
  locals : ∀ b ∈ m.bodies, (b.locals.map (·.count.toNat)).sum ≤ 50000
  sizes : ∀ s ∈ m.sections, s.payload.length < 2 ^ 32

end ModuleSource

/-! ## Building -/

namespace ModuleSource

variable {m : ModuleSource}

theorem typeAt_eq (m : ModuleSource) (idx : TypeIdx) :
    typeAt m.types.toArray idx = m.signature idx := by
  rw [typeAt, signature, List.getElem?_toArray, List.getD_eq_getElem?_getD]

/-- What is joined is the module that is meant. -/
theorem joined_declared (m : ModuleSource) : m.declared.joined = m.module := by
  have imported : m.declared.importedFuncs.map (importedDecl m.types.toArray) = m.importedFuncs :=
    List.map_congr_left fun idx _ => by rw [importedDecl, typeAt_eq]
  have defined : (m.declared.funcs.zip m.declared.bodies).map (definedDecl m.types.toArray)
      = m.definedFuncs := by
    change (m.funcs.zip (m.bodies.map BodySource.body)).map _ = _
    rw [List.zip_map_right, List.map_map]
    refine List.map_congr_left fun (idx, b) _ => ?_
    rw [Function.comp_apply, definedDecl, typeAt_eq]
    rfl
  have globals : m.declared.globals.map (fun g => (⟨g.type, some g.init⟩ : GlobalDecl))
      = m.globals.map fun g => ⟨g.type, some g.init.code⟩ := List.map_map
  simp only [Sections.joined, globals]
  rw [show m.declared.types = m.types from rfl, imported, defined]
  rfl

theorem Valid.build (valid : m.Valid) : m.declared.build = .ok m.module := by
  refine Sections.build_eq_ok.mpr ⟨Sections.defects_eq_nil.mpr
    ⟨?_, valid.imported, valid.defined, fun b mem => ?_⟩, m.joined_declared⟩
  · exact valid.counts.trans (List.length_map _).symm
  · obtain ⟨source, own, rfl⟩ := List.mem_map.mp mem
    exact valid.locals source own

end ModuleSource

/-! ## Decoding -/

/-- The header is read and leaves the sections. -/
theorem Decoder.header_run (rest : List UInt8) :
    header.run ⟨0, [0x00, 0x61, 0x73, 0x6d, 0x01, 0x00, 0x00, 0x00] ++ rest⟩
      = .ok ((), ⟨8, rest⟩) := rfl

/-- A module that is written in its canonical form is decoded to what it says. -/
theorem ModuleSource.decode_encode {m : ModuleSource} (valid : m.Valid) :
    Module.decode m.encode = .ok m.module := by
  have sections := Decoder.sectionsFrom_encode valid.sizes {} 8
  rw [foldl_sections] at sections
  rw [Module.decode, encode, Decoder.header_run]
  change (Decoder.sectionsFrom {} ⟨8, _⟩ >>= _) = _
  rw [sections]
  dsimp only [bind, Except.bind]
  rw [valid.build]
  rfl

/-! ## A module with one of everything -/

/-- The expression of one instruction. -/
def Expr.single (i : Instr) (plain : i.isStructural = false) (encodable : i.Encodable) : Expr :=
  ⟨[.instr i, .instr .endOf], [.instr i], rfl,
    List.forall_mem_cons.mpr ⟨.instr plain encodable, List.forall_mem_nil _⟩⟩

/-- A loop within a block, which an `ifThen` with two arms leaves or repeats, and a vector. -/
def Expr.nested : Expr where
  nodes :=
    [.block .empty
      ([.loop (.typeIndex ⟨0⟩)
        ([.instr (.localGet ⟨0⟩),
          .ifThen (.val .i32)
            ([.instr (.brTable [⟨0⟩, ⟨1⟩] ⟨2⟩)] ++ [.instr (.elseArm 0)])
            ([.instr (.i32Const (-7))] ++ [.instr .endOf])] ++ [.instr .endOf])]
        ++ [.instr .endOf]),
      .instr (.vector 84 (.memArgLane ⟨0, 300⟩ 15)), .instr .endOf]
  body := by
    refine ⟨[_, _], rfl, List.forall_mem_cons.mpr ⟨.block ?_, List.forall_mem_cons.mpr
      ⟨.instr rfl ⟨by decide, by decide⟩, List.forall_mem_nil _⟩⟩⟩
    refine List.forall_mem_cons.mpr ⟨.loop ?_, List.forall_mem_nil _⟩
    refine List.forall_mem_cons.mpr ⟨.instr rfl trivial, List.forall_mem_cons.mpr
      ⟨.ifElse ?_ ?_, List.forall_mem_nil _⟩⟩
    · exact List.forall_mem_cons.mpr ⟨.instr rfl trivial, List.forall_mem_nil _⟩
    · exact List.forall_mem_cons.mpr ⟨.instr rfl trivial, List.forall_mem_nil _⟩

/-- A module that has every kind of section, import and segment. -/
def ModuleSource.sample : ModuleSource :=
  let offset := Expr.single (.i32Const 1024) rfl trivial
  let item := Expr.single (.refFunc ⟨1⟩) rfl trivial
  { types := [⟨[], []⟩, ⟨[.i32, .ref .externRef], [.v128]⟩]
    imports := [⟨"env", "f", .func ⟨0⟩⟩, ⟨"env", "t", .table ⟨.funcRef, .between 1 200⟩⟩,
      ⟨"env", "m", .mem ⟨.atLeast 1⟩⟩, ⟨"env", "g", .global ⟨.i64, .var⟩⟩]
    funcs := [⟨1⟩]
    tables := [⟨.externRef, .atLeast 0⟩]
    memories := [⟨.between 1 2⟩]
    globals := [⟨⟨.i32, .const⟩, offset⟩]
    exports := [⟨"main", .func ⟨1⟩⟩]
    start := some ⟨0⟩
    elems := [.activeFuncs offset [⟨0⟩], .passiveFuncs [⟨1⟩], .activeFuncsAt ⟨1⟩ offset [],
      .declaredFuncs [⟨0⟩, ⟨1⟩], .activeExprs offset [item], .passiveExprs .externRef [],
      .activeExprsAt ⟨0⟩ offset .funcRef [item, item], .declaredExprs .funcRef [item]]
    dataCount := some 3
    bodies := [⟨[⟨2, .f64⟩, ⟨1, .ref .funcRef⟩], .nested⟩]
    datas := [.active offset [1, 2, 3], .passive [], .activeAt ⟨1⟩ offset [255]]
    custom := fun
      | 0 => [⟨"first", [0xde, 0xad]⟩]
      | 12 => [⟨"name", []⟩, ⟨"last", [0]⟩]
      | _ => [] }

theorem ModuleSource.decode_encode_sample :
    ModuleSource.sample.Valid
      ∧ Module.decode ModuleSource.sample.encode = .ok ModuleSource.sample.module := by
  have valid : ModuleSource.sample.Valid :=
    ⟨rfl, by decide, by decide, by decide, by decide +kernel⟩
  exact ⟨valid, ModuleSource.decode_encode valid⟩

end WasmMachine
