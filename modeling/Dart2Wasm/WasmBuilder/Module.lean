import Dart2Wasm.Lib.Run
import Dart2Wasm.WasmBuilder.Encoding

/-!
# WasmBuilder.Module — the module builder and its index spaces

The `Module` class of `wasm_builder/lib/src/module.dart`. A module is a record of lists to which
the `add*` and `import*` methods append; the objects returned by these methods are referred to by
their positions. Every object stores an `index`, which is what instructions and sections write when
they refer to it, so a module is encoded correctly only if index and position agree.

A `Call` is one use of the builder: a method of `Module`, or a method of an object that belongs to
the module and is part of what gets serialized (fields of struct types, bodies, table elements,
segment contents). `Module.step` is what the call does, and a program that builds a module is a
list of calls.
-/

namespace Dart2Wasm.WasmBuilder

open Lib

abbrev FunctionId := Nat
abbrev GlobalId := Nat
abbrev TableId := Nat
abbrev MemoryId := Nat
abbrev SegmentId := Nat

/-! ## Objects of a module -/

/-- What distinguishes `ImportedFunction` from `DefinedFunction`. -/
inductive FunctionOrigin
  | imported (module name : DartString)
  | defined (locals : List ValueType) (body : InstructionBuffer)
  deriving DecidableEq

structure BaseFunction where
  index : Nat
  type : DefTypeId
  functionName : Option DartString
  origin : FunctionOrigin
  deriving DecidableEq

def BaseFunction.isImport (f : BaseFunction) : Bool :=
  match f.origin with
  | .imported _ _ => true
  | .defined _ _ => false

inductive GlobalOrigin
  | imported (module name : DartString)
  | defined (initializer : InstructionBuffer)
  deriving DecidableEq

structure Global where
  index : Nat
  type : GlobalType
  origin : GlobalOrigin
  deriving DecidableEq

def Global.isImport (g : Global) : Bool :=
  match g.origin with
  | .imported _ _ => true
  | .defined _ => false

structure Table where
  index : Nat
  minSize : Nat
  maxSize : Option Nat
  elements : List (Option FunctionId)
  deriving DecidableEq

structure Memory where
  index : Nat
  minSize : Nat
  maxSize : Option Nat
  deriving DecidableEq

structure DataSegment where
  index : Nat
  content : List Byte
  memory : Option MemoryId
  offset : Option Int
  deriving DecidableEq

inductive Export
  | function (name : DartString) (function : FunctionId)
  | global (name : DartString) (global : GlobalId)
  deriving DecidableEq

def Export.name : Export → DartString
  | .function name _ => name
  | .global name _ => name

structure Module where
  functionTypeMap : List ((List ValueType × List ValueType) × DefTypeId) := []
  defTypes : TypeTable := []
  functions : List BaseFunction := []
  tables : List Table := []
  memories : List Memory := []
  dataSegments : List DataSegment := []
  globals : List Global := []
  exports : List Export := []
  startFunction : Option FunctionId := none
  anyFunctionsDefined : Bool := false
  anyGlobalsDefined : Bool := false
  dataReferencedFromGlobalInitializer : Bool := false
  functionNameCount : Nat := 0
  deriving DecidableEq

inductive BuildError
  | thrown (message : String)
  | assertion
  | rangeError
  -- The call mentions an object that the module does not have, or one of another kind.
  | noSuchObject
  deriving DecidableEq

namespace Module

abbrev Result := Except BuildError Module

/-! ## Types -/

/-- Function types are canonicalized on their inputs and outputs; the supertype of a type that
exists already is ignored. -/
def addFunctionType (m : Module) (inputs outputs : List ValueType) (superType : Option HeapType) :
    Module :=
  match m.functionTypeMap.lookup (inputs, outputs) with
  | some _ => m
  | none =>
    { m with
      functionTypeMap := m.functionTypeMap ++ [((inputs, outputs), m.defTypes.length)]
      defTypes := m.defTypes ++ [⟨.function inputs outputs, superType, m.defTypes.length⟩] }

def addStructType (m : Module) (name : String) (fields : List FieldType)
    (superType : Option HeapType) : Module :=
  { m with defTypes := m.defTypes ++ [⟨.struct name fields, superType, m.defTypes.length⟩] }

def addArrayType (m : Module) (name : String) (elementType : Option FieldType)
    (superType : Option HeapType) : Module :=
  { m with defTypes := m.defTypes ++ [⟨.array name elementType, superType, m.defTypes.length⟩] }

/-- `fields.add` of a struct type. -/
def addField (m : Module) (d : DefTypeId) (field : FieldType) : Result :=
  match (m.defTypes[d]?).map DefType.kind with
  | some (.struct name fields) =>
    .ok { m with
      defTypes := m.defTypes.modify d fun t => { t with kind := .struct name (fields ++ [field]) } }
  | _ => .error .noSuchObject

/-- The setter of `elementType` of an array type. -/
def setElementType (m : Module) (d : DefTypeId) (elementType : FieldType) : Result :=
  match (m.defTypes[d]?).map DefType.kind with
  | some (.array name _) =>
    .ok { m with
      defTypes := m.defTypes.modify d fun t => { t with kind := .array name (some elementType) } }
  | _ => .error .noSuchObject

/-! ## Functions -/

/-- The parameters are the first locals of a defined function. -/
def addFunction (m : Module) (type : DefTypeId) (name : Option DartString) : Result :=
  match (m.defTypes[type]?).map DefType.kind with
  | some (.function inputs _) =>
    .ok { m with
      anyFunctionsDefined := true
      functionNameCount :=
        if name.isSome then m.functionNameCount + 1 else m.functionNameCount
      functions := m.functions ++
        [⟨m.functions.length, type, name, .defined inputs InstructionBuffer.empty⟩] }
  | _ => .error .noSuchObject

def importFunction (m : Module) (module name : DartString) (type : DefTypeId)
    (functionName : Option DartString) : Result :=
  if m.anyFunctionsDefined then
    .error (.thrown "All function imports must be specified before any definitions.")
  else
    .ok { m with
      functionNameCount :=
        if functionName.isSome then m.functionNameCount + 1 else m.functionNameCount
      functions := m.functions ++
        [⟨m.functions.length, type, functionName, .imported module name⟩] }

def addLocal (m : Module) (f : FunctionId) (type : ValueType) : Result :=
  match (m.functions[f]?).map BaseFunction.origin with
  | some (.defined locals body) =>
    .ok { m with
      functions := m.functions.modify f fun g =>
        { g with origin := .defined (locals ++ [type]) body } }
  | _ => .error .noSuchObject

/-- An instruction method of the body of a function. -/
def emitBody (m : Module) (f : FunctionId) (i : EmittedInstr) : Result :=
  match (m.functions[f]?).map BaseFunction.origin with
  | some (.defined locals body) =>
    match body.emit i with
    | some body' =>
      .ok { m with
        functions := m.functions.modify f fun g => { g with origin := .defined locals body' } }
    | none => .error (.thrown "Label stack underflow")
  | _ => .error .noSuchObject

/-! ## Globals -/

def addGlobal (m : Module) (type : GlobalType) : Module :=
  { m with
    anyGlobalsDefined := true
    globals := m.globals ++ [⟨m.globals.length, type, .defined InstructionBuffer.empty⟩] }

def importGlobal (m : Module) (module name : DartString) (type : GlobalType) : Result :=
  if m.anyGlobalsDefined then
    .error (.thrown "All global imports must be specified before any definitions.")
  else
    -- The source passes the number of functions as the index of the global.
    .ok { m with
      globals := m.globals ++ [⟨m.functions.length, type, .imported module name⟩] }

/-- `array.init_from_data` and `array.init_from_data_static`. -/
def referencesData (i : EmittedInstr) : Bool :=
  i.opcode == .gc 0x1D || i.opcode == .gc 0x1E

/-- An instruction method of the initializer of a global. -/
def emitInitializer (m : Module) (g : GlobalId) (i : EmittedInstr) : Result :=
  match (m.globals[g]?).map Global.origin with
  | some (.defined initializer) =>
    match initializer.emit i with
    | some initializer' =>
      .ok { m with
        globals := m.globals.modify g fun h => { h with origin := .defined initializer' }
        dataReferencedFromGlobalInitializer :=
          m.dataReferencedFromGlobalInitializer || referencesData i }
    | none => .error (.thrown "Label stack underflow")
  | _ => .error .noSuchObject

/-! ## Tables, memories and data segments -/

def addTable (m : Module) (minSize : Nat) (maxSize : Option Nat) : Module :=
  { m with
    tables := m.tables ++ [⟨m.tables.length, minSize, maxSize, List.replicate minSize none⟩] }

def setElement (m : Module) (t : TableId) (index : Nat) (f : FunctionId) : Result :=
  match m.tables[t]? with
  | none => .error .noSuchObject
  | some table =>
    if index < table.elements.length then
      .ok { m with
        tables := m.tables.modify t fun u => { u with elements := table.elements.set index f } }
    else .error .rangeError

def addMemory (m : Module) (minSize : Nat) (maxSize : Option Nat) : Module :=
  { m with memories := m.memories ++ [⟨m.memories.length, minSize, maxSize⟩] }

/-- The assertion on the placement of an active segment. -/
def placed (m : Module) (memory : Option MemoryId) (offset : Option Int) (length : Nat) : Bool :=
  match memory, offset with
  | none, none => true
  | some mem, some o =>
    match m.memories[mem]? with
    | some memory => decide (0 ≤ o ∧ o + length ≤ memory.minSize)
    | none => false
  | _, _ => false

def addDataSegment (m : Module) (initialContent : Option (List Byte)) (memory : Option MemoryId)
    (offset : Option Int) : Result :=
  let content := initialContent.getD []
  if m.placed memory offset content.length then
    .ok { m with
      dataSegments := m.dataSegments ++ [⟨m.dataSegments.length, content, memory, offset⟩] }
  else .error .assertion

def appendData (m : Module) (s : SegmentId) (data : List Byte) : Result :=
  match m.dataSegments[s]? with
  | none => .error .noSuchObject
  | some segment =>
    let content := segment.content ++ data
    if m.placed segment.memory segment.offset content.length then
      .ok { m with
        dataSegments := m.dataSegments.modify s fun u => { u with content := content } }
    else .error .assertion

/-! ## Exports and the start function -/

/-- Only the export of a function checks that the name is new. -/
def exportFunction (m : Module) (name : DartString) (f : FunctionId) : Result :=
  if m.exports.any fun e => e.name == name then .error .assertion
  else .ok { m with exports := m.exports ++ [.function name f] }

def exportGlobal (m : Module) (name : DartString) (g : GlobalId) : Module :=
  { m with exports := m.exports ++ [.global name g] }

def setStartFunction (m : Module) (f : Option FunctionId) : Module :=
  { m with startFunction := f }

end Module

/-! ## Building a module -/

inductive Call
  | addFunctionType (inputs outputs : List ValueType) (superType : Option HeapType)
  | addStructType (name : String) (fields : List FieldType) (superType : Option HeapType)
  | addArrayType (name : String) (elementType : Option FieldType) (superType : Option HeapType)
  | addField (d : DefTypeId) (field : FieldType)
  | setElementType (d : DefTypeId) (elementType : FieldType)
  | addFunction (type : DefTypeId) (name : Option DartString)
  | importFunction (module name : DartString) (type : DefTypeId)
    (functionName : Option DartString)
  | addLocal (f : FunctionId) (type : ValueType)
  | emitBody (f : FunctionId) (i : EmittedInstr)
  | addGlobal (type : GlobalType)
  | importGlobal (module name : DartString) (type : GlobalType)
  | emitInitializer (g : GlobalId) (i : EmittedInstr)
  | addTable (minSize : Nat) (maxSize : Option Nat)
  | setElement (t : TableId) (index : Nat) (f : FunctionId)
  | addMemory (minSize : Nat) (maxSize : Option Nat)
  | addDataSegment (initialContent : Option (List Byte)) (memory : Option MemoryId)
      (offset : Option Int)
  | appendData (s : SegmentId) (data : List Byte)
  | exportFunction (name : DartString) (f : FunctionId)
  | exportGlobal (name : DartString) (g : GlobalId)
  | setStartFunction (f : Option FunctionId)

namespace Module

def step (m : Module) : Call → Result
  | .addFunctionType inputs outputs superType => .ok (m.addFunctionType inputs outputs superType)
  | .addStructType name fields superType => .ok (m.addStructType name fields superType)
  | .addArrayType name elementType superType => .ok (m.addArrayType name elementType superType)
  | .addField d field => m.addField d field
  | .setElementType d elementType => m.setElementType d elementType
  | .addFunction type name => m.addFunction type name
  | .importFunction module name type functionName => m.importFunction module name type functionName
  | .addLocal f type => m.addLocal f type
  | .emitBody f i => m.emitBody f i
  | .addGlobal type => .ok (m.addGlobal type)
  | .importGlobal module name type => m.importGlobal module name type
  | .emitInitializer g i => m.emitInitializer g i
  | .addTable minSize maxSize => .ok (m.addTable minSize maxSize)
  | .setElement t index f => m.setElement t index f
  | .addMemory minSize maxSize => .ok (m.addMemory minSize maxSize)
  | .addDataSegment initialContent memory offset => m.addDataSegment initialContent memory offset
  | .appendData s data => m.appendData s data
  | .exportFunction name f => m.exportFunction name f
  | .exportGlobal name g => .ok (m.exportGlobal name g)
  | .setStartFunction f => .ok (m.setStartFunction f)

/-- The module that a sequence of calls builds, starting from `Module()`. -/
def build (calls : List Call) : Result :=
  run step {} calls

end Module

end Dart2Wasm.WasmBuilder
