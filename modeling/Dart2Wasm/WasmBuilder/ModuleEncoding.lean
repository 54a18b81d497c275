import Dart2Wasm.WasmBuilder.Module

/-!
# WasmBuilder.ModuleEncoding — the binary form of a module

`Module.encode` and the sections of `wasm_builder/lib/src/module.dart`. A section serializes its
contents first, and then writes its id, their length and the contents; a section without contents is
left out. Serialization fails where the source throws or asserts: an array type without element
type, a declared supertype that is not a structural supertype, a body or an initializer whose final
`end` is missing, an active data segment without offset.
-/

namespace Dart2Wasm.WasmBuilder

open Lib

/-- `writeList` over objects that can fail to serialize. -/
def writeObjects {α : Type} (write : α → Option (List Byte)) (objects : List α) :
    Option (List Byte) :=
  (objects.mapM write).map fun parts => writeUnsigned objects.length ++ parts.flatten

/-! ## Imports and exports -/

inductive ImportDesc
  | function (type : DefTypeId)
  | global (type : GlobalType)
  deriving DecidableEq

structure ImportEntry where
  module : DartString
  name : DartString
  desc : ImportDesc
  deriving DecidableEq

def BaseFunction.import? (f : BaseFunction) : Option ImportEntry :=
  match f.origin with
  | .imported module name => some ⟨module, name, .function f.type⟩
  | .defined _ _ => none

def Global.import? (g : Global) : Option ImportEntry :=
  match g.origin with
  | .imported module name => some ⟨module, name, .global g.type⟩
  | .defined _ => none

def ImportEntry.serialize (types : TypeTable) (e : ImportEntry) : List Byte :=
  writeName e.module ++ (writeName e.name ++
    match e.desc with
    | .function type => 0x00 :: writeUnsigned (types.indexOf type)
    | .global type => 0x03 :: type.serialize types)

/-! ## Functions -/

structure DefinedFunction where
  type : DefTypeId
  locals : List ValueType
  body : InstructionBuffer
  deriving DecidableEq

def BaseFunction.defined? (f : BaseFunction) : Option DefinedFunction :=
  match f.origin with
  | .imported _ _ => none
  | .defined locals body => some ⟨f.type, locals, body⟩

/-- The two loops over the locals, of which the first counts the entries that the second writes: an
entry ends where the type of the next local differs. `run` counts the locals of the entry. -/
def localEntries : Nat → List ValueType → List (Nat × ValueType)
  | _, [] => []
  | run, [t] => [(run + 1, t)]
  | run, t :: u :: locals =>
    if t = u then localEntries (run + 1) (u :: locals)
    else (run + 1, t) :: localEntries 0 (u :: locals)

/-- The test of the two loops: the list ends in front of `i`, or the type changes there. -/
def entryEnds (locals : List ValueType) (i : Nat) : Bool :=
  i == locals.length || locals[i - 1]? != locals[i]?

/-- The second loop, over the values of `i`; `start` is where the entry begins. -/
def writtenEntries (locals : List ValueType) : Nat → List Nat → List (Nat × ValueType)
  | _, [] => []
  | start, i :: is =>
    if entryEnds locals i then
      ((locals[i - 1]?).map fun t => (i - start, t)).toList ++ writtenEntries locals i is
    else writtenEntries locals start is

/-- What the two loops write: the first one counts the entries. -/
def writeLocals (types : TypeTable) (paramCount : Nat) (locals : List ValueType) : List Byte :=
  let is := List.range' (paramCount + 1) (locals.length - paramCount)
  writeUnsigned (is.countP (entryEnds locals)) ++
    (writtenEntries locals paramCount is).flatMap fun e => writeUnsigned e.1 ++ e.2.serialize types

def DefinedFunction.inputs (types : TypeTable) (f : DefinedFunction) : List ValueType :=
  match (types[f.type]?).map DefType.kind with
  | some (.function inputs _) => inputs
  | _ => []

def DefinedFunction.ownLocals (types : TypeTable) (f : DefinedFunction) : List ValueType :=
  f.locals.drop (f.inputs types).length

def DefinedFunction.serialize (types : TypeTable) (f : DefinedFunction) : Option (List Byte) :=
  let data := writeList (fun e : Nat × ValueType => writeUnsigned e.1 ++ e.2.serialize types)
    (localEntries 0 (f.ownLocals types))
  let body := f.body.serialize types
  if f.body.isComplete then some (writeUnsigned (data.length + body.length) ++ (data ++ body))
  else none

/-! ## Tables, memories, globals and data segments -/

def writeLimits (minSize : Nat) : Option Nat → List Byte
  | none => 0x00 :: writeUnsigned minSize
  | some maxSize => 0x01 :: (writeUnsigned minSize ++ writeUnsigned maxSize)

def Table.serialize (t : Table) : List Byte :=
  0x70 :: writeLimits t.minSize t.maxSize

def Memory.serialize (m : Memory) : List Byte :=
  writeLimits m.minSize m.maxSize

structure DefinedGlobal where
  type : GlobalType
  initializer : InstructionBuffer
  deriving DecidableEq

def Global.defined? (g : Global) : Option DefinedGlobal :=
  match g.origin with
  | .imported _ _ => none
  | .defined initializer => some ⟨g.type, initializer⟩

def DefinedGlobal.serialize (types : TypeTable) (g : DefinedGlobal) : Option (List Byte) :=
  if g.initializer.isComplete then some (g.type.serialize types ++ g.initializer.serialize types)
  else none

def writeOffset (offset : Int) : List Byte :=
  0x41 :: (writeSigned offset ++ [0x0B])

def DataSegment.serialize (memories : List Memory) (s : DataSegment) : Option (List Byte) :=
  let content := writeUnsigned s.content.length ++ s.content
  match s.memory with
  | some memory =>
    s.offset.map fun offset =>
      let index := indexAt Memory.index memories memory
      if index = 0 then 0x00 :: (writeOffset offset ++ content)
      else 0x02 :: (writeUnsigned index ++ (writeOffset offset ++ content))
  | none => some (0x01 :: content)

/-! ## Elements -/

/-- A contiguous stretch of nonempty entries of a table. -/
structure Element where
  table : Nat
  startIndex : Nat
  entries : List FunctionId
  deriving DecidableEq

/-- The loop over the entries of a table, from position `i` on, with the stretch that is still
growing. -/
def groupElements (table : Nat) : Nat → Option Element → List (Option FunctionId) → List Element
  | _, current, [] => current.toList
  | i, none, none :: es => groupElements table (i + 1) none es
  | i, some e, none :: es => e :: groupElements table (i + 1) none es
  | i, none, some f :: es => groupElements table (i + 1) (some ⟨table, i, [f]⟩) es
  | i, some e, some f :: es =>
    groupElements table (i + 1) (some { e with entries := e.entries ++ [f] }) es

def Table.groupedElements (t : Table) : List Element :=
  groupElements t.index 0 none t.elements

/-- The index of the table stands where the format has the flag that says how the segment
continues. -/
def Element.serialize (functions : List BaseFunction) (e : Element) : List Byte :=
  writeUnsigned e.table ++ (writeOffset e.startIndex ++
    writeList (fun f => writeUnsigned (indexAt BaseFunction.index functions f)) e.entries)

/-! ## Sections -/

/-- The id of a section, whether it has anything to serialize, and its contents. -/
structure ModuleSection where
  id : Byte
  isNotEmpty : Bool
  contents : Option (List Byte)

def writeSection (id : Byte) (data : List Byte) : List Byte :=
  id :: (writeUnsigned data.length ++ data)

def ModuleSection.serialize (s : ModuleSection) : Option (List Byte) :=
  if s.isNotEmpty then s.contents.map (writeSection s.id) else some []

def Export.serialize (functions : List BaseFunction) (globals : List Global) : Export → List Byte
  | .function name f =>
    writeName name ++ 0x00 :: writeUnsigned (indexAt BaseFunction.index functions f)
  | .global name g => writeName name ++ 0x03 :: writeUnsigned (indexAt Global.index globals g)

namespace Module

def imports (m : Module) : List ImportEntry :=
  m.functions.filterMap BaseFunction.import? ++ m.globals.filterMap Global.import?

def definedFunctions (m : Module) : List DefinedFunction :=
  m.functions.filterMap BaseFunction.defined?

def definedGlobals (m : Module) : List DefinedGlobal :=
  m.globals.filterMap Global.defined?

def elements (m : Module) : List Element :=
  m.tables.flatMap Table.groupedElements

/-- The functions that have a name, with their positions. -/
def functionNames (m : Module) : List (Nat × DartString) :=
  m.functions.zipIdx.filterMap fun p => p.1.functionName.map fun name => (p.2, name)

/-- The subtype test of the type section runs on fuel. -/
def typeSection (m : Module) (fuel : Nat) : ModuleSection where
  id := 1
  isNotEmpty := !m.defTypes.isEmpty
  contents := writeObjects (DefType.serializeDefinition m.defTypes fuel) m.defTypes

def importSection (m : Module) : ModuleSection where
  id := 2
  isNotEmpty := !m.imports.isEmpty
  contents := some (writeList (ImportEntry.serialize m.defTypes) m.imports)

def functionSection (m : Module) : ModuleSection where
  id := 3
  isNotEmpty := !m.definedFunctions.isEmpty
  contents := some
    (writeList (fun f => writeUnsigned (m.defTypes.indexOf f.type)) m.definedFunctions)

def tableSection (m : Module) : ModuleSection where
  id := 4
  isNotEmpty := !m.tables.isEmpty
  contents := some (writeList Table.serialize m.tables)

def memorySection (m : Module) : ModuleSection where
  id := 5
  isNotEmpty := !m.memories.isEmpty
  contents := some (writeList Memory.serialize m.memories)

def globalSection (m : Module) : ModuleSection where
  id := 6
  isNotEmpty := !m.definedGlobals.isEmpty
  contents := writeObjects (DefinedGlobal.serialize m.defTypes) m.definedGlobals

def exportSection (m : Module) : ModuleSection where
  id := 7
  isNotEmpty := !m.exports.isEmpty
  contents := some (writeList (Export.serialize m.functions m.globals) m.exports)

def startSection (m : Module) : ModuleSection where
  id := 8
  isNotEmpty := m.startFunction.isSome
  contents := m.startFunction.map fun f =>
    writeUnsigned (indexAt BaseFunction.index m.functions f)

def elementSection (m : Module) : ModuleSection where
  id := 9
  isNotEmpty := m.tables.any fun t => t.elements.any Option.isSome
  contents := some (writeList (Element.serialize m.functions) m.elements)

def dataCountSection (m : Module) : ModuleSection where
  id := 12
  isNotEmpty := !m.dataSegments.isEmpty
  contents := some (writeUnsigned m.dataSegments.length)

def codeSection (m : Module) : ModuleSection where
  id := 10
  isNotEmpty := !m.definedFunctions.isEmpty
  contents := writeObjects (DefinedFunction.serialize m.defTypes) m.definedFunctions

def dataSection (m : Module) : ModuleSection where
  id := 11
  isNotEmpty := !m.dataSegments.isEmpty
  contents := writeObjects (DataSegment.serialize m.memories) m.dataSegments

/-- The count of the names is the one that the module has kept while functions were added. -/
def nameSection (m : Module) : ModuleSection where
  id := 0
  isNotEmpty := decide (0 < m.functionNameCount)
  contents :=
    let subsection := writeUnsigned m.functionNameCount ++
      m.functionNames.flatMap fun p => writeUnsigned p.1 ++ writeName p.2
    some (writeName (.ofString "name") ++ (0x01 :: (writeUnsigned subsection.length ++ subsection)))

/-- The sections in the order in which `encode` writes them. The data count comes before the
globals if one of their initializers refers to a data segment. -/
def sections (m : Module) (fuel : Nat) (emitNameSection : Bool) : List ModuleSection :=
  [m.typeSection fuel, m.importSection, m.functionSection, m.tableSection, m.memorySection] ++
    (if m.dataReferencedFromGlobalInitializer then [m.dataCountSection] else []) ++
    [m.globalSection, m.exportSection, m.startSection, m.elementSection] ++
    (if m.dataReferencedFromGlobalInitializer then [] else [m.dataCountSection]) ++
    [m.codeSection, m.dataSection] ++
    (if emitNameSection then [m.nameSection] else [])

/-- Magic number and version 1. -/
def preamble : List Byte :=
  [0x00, 0x61, 0x73, 0x6D, 0x01, 0x00, 0x00, 0x00]

def encode (m : Module) (fuel : Nat) (emitNameSection : Bool) : Option (List Byte) :=
  ((m.sections fuel emitNameSection).mapM ModuleSection.serialize).map fun parts =>
    preamble ++ parts.flatten

end Module

end Dart2Wasm.WasmBuilder
