import Dart2Wasm.WasmBuilder.ModuleEncoding

/-!
# WasmBuilder.ModuleDecoder — reading a module in the WebAssembly binary format

A decoder that follows the binary format and knows nothing of the builder: it splits the module into
sections, checks their order, reads every section to its last byte and checks the counts that the
format repeats. References are returned as the indices that stand in the binary.
-/

namespace Dart2Wasm.WasmBuilder

open Lib

/-! ## What a module contains -/

structure Limits where
  minSize : Nat
  maxSize : Option Nat
  deriving DecidableEq

structure GlobalEntry where
  type : GlobalType
  initializer : List EmittedInstr
  deriving DecidableEq

inductive ElementMode
  | active (table : Nat) (offset : Int)
  | passive
  | declarative
  deriving DecidableEq

/-- The entries of an element segment, as function indices or as expressions. -/
inductive ElementInit
  | functions (indices : List Nat)
  | expressions (expressions : List (List EmittedInstr))
  deriving DecidableEq

structure ElementEntry where
  mode : ElementMode
  init : ElementInit
  deriving DecidableEq

structure CodeEntry where
  locals : List ValueType
  body : List EmittedInstr
  deriving DecidableEq

structure DataEntry where
  content : List Byte
  memory : Option Nat
  offset : Option Int
  deriving DecidableEq

structure DecodedModule where
  types : List TypeEntry
  imports : List ImportEntry
  functionTypes : List Nat
  tables : List Limits
  memories : List Limits
  dataCount : Option Nat
  globals : List GlobalEntry
  exports : List Export
  start : Option Nat
  elements : List ElementEntry
  code : List CodeEntry
  data : List DataEntry
  functionNames : List (Nat × DartString)
  deriving DecidableEq

/-! ## Entries of the sections -/

def ImportEntry.read : Reader ImportEntry := do
  let module ← readName
  let name ← readName
  let kind ← Parser.token
  if kind = 0x00 then do
    let type ← readUnsigned
    pure ⟨module, name, .function type⟩
  else if kind = 0x03 then do
    let type ← GlobalType.read
    pure ⟨module, name, .global type⟩
  -- The builder has no imports of tables and memories.
  else Parser.fail

def Limits.read : Reader Limits := do
  let flag ← Parser.token
  if flag = 0x00 then do
    let minSize ← readUnsigned
    pure ⟨minSize, none⟩
  else if flag = 0x01 then do
    let minSize ← readUnsigned
    let maxSize ← readUnsigned
    pure ⟨minSize, some maxSize⟩
  else Parser.fail

/-- A table of function references. -/
def readTable : Reader Limits := do
  Parser.expect 0x70
  Limits.read

def GlobalEntry.read : Reader GlobalEntry := do
  let type ← GlobalType.read
  let initializer ← EmittedInstr.readExpression
  pure ⟨type, initializer⟩

def Export.read : Reader Export := do
  let name ← readName
  let kind ← Parser.token
  if kind = 0x00 then do
    let f ← readUnsigned
    pure (.function name f)
  else if kind = 0x03 then do
    let g ← readUnsigned
    pure (.global name g)
  else Parser.fail

/-- An offset expression `i32.const offset; end`. -/
def readOffset : Reader Int := do
  Parser.expect 0x41
  let offset ← readSigned
  Parser.expect 0x0B
  pure offset

/-- The kind of the entries of a segment of function indices. -/
def readElementKind : Reader Unit :=
  Parser.expect 0x00

/-- The eight kinds of element segment, by their leading flag. -/
def ElementEntry.read : Reader ElementEntry := do
  let flag ← readUnsigned
  match flag with
  | 0 => do
    let offset ← readOffset
    let indices ← readList readUnsigned
    pure ⟨.active 0 offset, .functions indices⟩
  | 1 => do
    readElementKind
    let indices ← readList readUnsigned
    pure ⟨.passive, .functions indices⟩
  | 2 => do
    let table ← readUnsigned
    let offset ← readOffset
    readElementKind
    let indices ← readList readUnsigned
    pure ⟨.active table offset, .functions indices⟩
  | 3 => do
    readElementKind
    let indices ← readList readUnsigned
    pure ⟨.declarative, .functions indices⟩
  | 4 => do
    let offset ← readOffset
    let expressions ← readList EmittedInstr.readExpression
    pure ⟨.active 0 offset, .expressions expressions⟩
  | 5 => do
    let _ ← ValueType.read
    let expressions ← readList EmittedInstr.readExpression
    pure ⟨.passive, .expressions expressions⟩
  | 6 => do
    let table ← readUnsigned
    let offset ← readOffset
    let _ ← ValueType.read
    let expressions ← readList EmittedInstr.readExpression
    pure ⟨.active table offset, .expressions expressions⟩
  | 7 => do
    let _ ← ValueType.read
    let expressions ← readList EmittedInstr.readExpression
    pure ⟨.declarative, .expressions expressions⟩
  | _ => Parser.fail

def readLocalEntry : Reader (Nat × ValueType) := do
  let n ← readUnsigned
  let t ← ValueType.read
  pure (n, t)

def expandLocals (entries : List (Nat × ValueType)) : List ValueType :=
  entries.flatMap fun e => List.replicate e.1 e.2

def readFunctionBody : Reader CodeEntry := do
  let entries ← readList readLocalEntry
  let body ← EmittedInstr.readExpression
  pure ⟨expandLocals entries, body⟩

def CodeEntry.read : Reader CodeEntry := do
  let size ← readUnsigned
  Parser.region size readFunctionBody

def readContent : Reader (List Byte) := do
  let n ← readUnsigned
  readBytes n

def DataEntry.read : Reader DataEntry := do
  let flag ← readUnsigned
  match flag with
  | 0 => do
    let offset ← readOffset
    let content ← readContent
    pure ⟨content, some 0, some offset⟩
  | 1 => do
    let content ← readContent
    pure ⟨content, none, none⟩
  | 2 => do
    let memory ← readUnsigned
    let offset ← readOffset
    let content ← readContent
    pure ⟨content, some memory, some offset⟩
  | _ => Parser.fail

def readFunctionName : Reader (Nat × DartString) := do
  let i ← readUnsigned
  let name ← readName
  pure (i, name)

/-- The custom section "name" with the function names as its only subsection. -/
def readNames : Reader (List (Nat × DartString)) := do
  let name ← readName
  if name = .ofString "name" then do
    Parser.expect 0x01
    let size ← readUnsigned
    Parser.region size (readList readFunctionName)
  else Parser.fail

/-! ## Modules -/

def readSection : Reader (Byte × List Byte) := do
  let id ← Parser.token
  let data ← readContent
  pure (id, data)

/-- Read a section to its last byte; `absent` stands for a section that is not there. -/
def parseSection {α : Type} (sections : List (Byte × List Byte)) (id : Byte) (p : Reader α)
    (absent : α) : Option α :=
  match sections.lookup id with
  | none => some absent
  | some data => p.parseAll data

/-- There are as many bodies as declared functions and, if there is a data count, that many data
segments. -/
def DecodedModule.consistent (d : DecodedModule) : Bool :=
  d.functionTypes.length == d.code.length &&
    (d.dataCount == none || d.dataCount == some d.data.length)

def decodeSections (sections : List (Byte × List Byte)) : Option DecodedModule := do
  let types ← parseSection sections 1 (readList TypeEntry.read) []
  let imports ← parseSection sections 2 (readList ImportEntry.read) []
  let functionTypes ← parseSection sections 3 (readList readUnsigned) []
  let tables ← parseSection sections 4 (readList readTable) []
  let memories ← parseSection sections 5 (readList Limits.read) []
  let globals ← parseSection sections 6 (readList GlobalEntry.read) []
  let exports ← parseSection sections 7 (readList Export.read) []
  let start ← parseSection sections 8 (some <$> readUnsigned) none
  let elements ← parseSection sections 9 (readList ElementEntry.read) []
  let dataCount ← parseSection sections 12 (some <$> readUnsigned) none
  let code ← parseSection sections 10 (readList CodeEntry.read) []
  let data ← parseSection sections 11 (readList DataEntry.read) []
  let functionNames ← parseSection sections 0 readNames []
  let d : DecodedModule :=
    { types := types
      imports := imports
      functionTypes := functionTypes
      tables := tables
      memories := memories
      dataCount := dataCount
      globals := globals
      exports := exports
      start := start
      elements := elements
      code := code
      data := data
      functionNames := functionNames }
  if d.consistent then some d else none

/-- The order that the format prescribes for the sections that are not custom sections. -/
def standardOrder : List Byte :=
  [1, 2, 3, 4, 5, 6, 7, 8, 9, 12, 10, 11]

/-- The order that lets the initializers of globals refer to data segments. -/
def earlyDataCountOrder : List Byte :=
  [1, 2, 3, 4, 5, 12, 6, 7, 8, 9, 10, 11]

/-- Decode a module whose sections come in one of the given orders. -/
def decode (orders : List (List Byte)) (bytes : List Byte) : Option DecodedModule :=
  if bytes.take 8 = Module.preamble then
    match readSection.untilEnd bytes.length (bytes.drop 8) with
    | none => none
    | some sections =>
      if orders.any ((sections.map Prod.fst).filter (· != 0)).isSublist then
        decodeSections sections
      else none
  else none

/-! ## The contents of tables -/

def writeEntries (contents : List (Option Nat)) (offset : Nat) : List Nat → List (Option Nat)
  | [] => contents
  | f :: fs => writeEntries (contents.set offset (some f)) (offset + 1) fs

/-- The entries that an active segment puts into the table. -/
def ElementEntry.apply (table : Nat) (contents : List (Option Nat)) (e : ElementEntry) :
    List (Option Nat) :=
  match e.mode, e.init with
  | .active t offset, .functions indices =>
    if t = table then writeEntries contents offset.toNat indices else contents
  | _, _ => contents

/-- A table starts empty; the active segments are applied in their order. -/
def DecodedModule.tableContents (d : DecodedModule) (table : Nat) : Option (List (Option Nat)) :=
  (d.tables[table]?).map fun limits =>
    d.elements.foldl (ElementEntry.apply table) (List.replicate limits.minSize none)

end Dart2Wasm.WasmBuilder
