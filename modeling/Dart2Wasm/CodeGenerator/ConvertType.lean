import Dart2Wasm.WasmBuilder.Execution
import Dart2Wasm.WasmBuilder.SubtypePreorder

/-!
# CodeGenerator.ConvertType — conversions between representations

`Translator.convertType` of `translator.dart`: the code that brings a value from the representation
`from` to the representation `to` by boxing, unboxing, null checks and casts. The code is checked
by the builder and run on the machine of `WasmBuilder.Execution`, extended by the instructions on
references that only conversions use.

A cast tests the run-time type of an object. Which objects pass (by a global RTT, a canonical RTT
or a static cast, depending on the options) is left open: `instanceOf` says for each object and
each struct or array type whether the object has that type or one below it.
-/

namespace Dart2Wasm
namespace Translator

open WasmBuilder

variable {stack outputs : List ValueType}
variable {types : TypeTable} {inputs : List ValueType} {i : ConvertInstr} {p : PlainInstr}
  {k : NumTypeKind} {heap' : Heap}

/-! ## Instructions -/

inductive ConvertInstr
  | base (instr : InstrCall)
  | refNull (heapType : HeapType)
  | refAsNonNull
  | refAsData
  /-- A cast together with the RTT that `_emitRtt` pushes for it. -/
  | refCast (target : DefTypeId)
  /-- An allocation together with its RTT. -/
  | structNew (struct : DefTypeId)
  deriving DecidableEq

namespace ConvertInstr

/-- `_verifyCast` accepts references below `data` and below `func`. -/
def checkCast (ctx : InstrContext) (value : ValueType) : Except Failure Unit :=
  match value.isSubtypeOf ctx.types ctx.fuel (.ref .data true) with
  | some true => .ok ()
  | some false =>
    match value.isSubtypeOf ctx.types ctx.fuel (.ref .func true) with
    | some true => .ok ()
    | some false => .error (.typeMismatch [.ref .data true] [value])
    | none => .error .unfinished
  | none => .error .unfinished

/-- The checks of the instruction methods. -/
def verify (ctx : InstrContext) (s : ValidatorState) : ConvertInstr → Except Failure ValidatorState
  | .base i => (s.verify ctx i).map Prod.fst
  | .refNull h => s.verifyTypes ctx [] [.ref h true]
  | .refAsNonNull => do
    let top ← s.topOfStack
    s.verifyTypes ctx [.ref .any true] [top.withNullability false]
  | .refAsData => s.verifyTypes ctx [.ref .any true] [.ref .data false]
  | .refCast d =>
    if s.reachable then do
      let value ← s.topOfStack
      checkCast ctx value
      s.verifyTypes ctx [value] [.ref (.defined d) value.nullable]
    else .ok s
  | .structNew d =>
    match ctx.kind? d with
    | some (.struct _ fields) =>
      s.verifyTypes ctx (fields.map fun f => f.type.unpacked) [.ref (.defined d) false]
    | _ => .error .assertion

/-- The object that a reference with its exact type points to. References to functions, host
objects and small integers point to none. -/
def object? (heap : Heap) : Val → Option StructObject
  | .ref (.defined d) a => (heap[a]?).filter fun object => object.type == d
  | _ => none

/-- One instruction on a stack with its top first. -/
def step (ctx : InstrContext) (env : Environment) (instanceOf : StructObject → DefTypeId → Bool)
    (stack locals : List Val) (heap : Heap) : ConvertInstr → PlainResult
  | .base (.plain p) =>
    match ctx.signature p with
    | none => .stuck
    | some (inputs, _) =>
      match p.exec ctx env locals heap (stack.take inputs.length) with
      | .values results locals heap =>
        .values (results ++ stack.drop inputs.length) locals heap
      | r => r
  | .base .drop =>
    match stack with
    | [] => .stuck
    | _ :: stack => .values stack locals heap
  | .base .unreachable => .trap
  | .base _ => .stuck
  | .refNull _ => .values (.null :: stack) locals heap
  | .refAsNonNull =>
    match stack with
    | [] => .stuck
    | v :: stack => if v = .null then .trap else .values (v :: stack) locals heap
  | .refAsData =>
    match stack with
    | [] => .stuck
    | v :: stack => if (object? heap v).isSome then .values (v :: stack) locals heap else .trap
  | .refCast d =>
    match stack with
    | [] => .stuck
    | v :: stack =>
      if v = .null ∨ (object? heap v).any (instanceOf · d) then
        .values (v :: stack) locals heap
      else .trap
  | .structNew d =>
    match ctx.kind? d with
    | some (.struct _ fields) =>
      .values (.ref (.defined d) heap.length :: stack.drop fields.length) locals
        (heap ++ [⟨d, (stack.take fields.length).reverse⟩])
    | _ => .stuck

def run (ctx : InstrContext) (env : Environment) (instanceOf : StructObject → DefTypeId → Bool)
    (stack locals : List Val) (heap : Heap) : List ConvertInstr → PlainResult
  | [] => .values stack locals heap
  | i :: code =>
    match i.step ctx env instanceOf stack locals heap with
    | .values stack locals heap => run ctx env instanceOf stack locals heap code
    | r => r

end ConvertInstr

/-! ## The conversion -/

/-- The class that boxes a number type. -/
structure BoxInfo where
  classId : Nat
  struct : DefTypeId
  deriving DecidableEq

/-- The object `i32_const classId, value, struct_new` creates. -/
def BoxInfo.object (b : BoxInfo) (kind : NumTypeKind) (value : Int) : StructObject :=
  ⟨b.struct, [.num .i32 b.classId, .num kind value]⟩

end Translator

open WasmBuilder Translator in
/-- What `convertType` reads of the translator and of the function it adds code to. Boxes have the
class id and the value as fields; the maps from structs to classes and parameter counts are inverse
to the structs of classes and closures. -/
structure Translator where
  ctx : InstrContext
  voidMarker : ValueType
  boxedClasses : NumTypeKind → Option BoxInfo
  classForHeapType : HeapType → Option DefTypeId
  functionStruct : DefTypeId
  functionTypeParameterCount : HeapType → Option Nat
  closureStructType : Nat → DefTypeId
  classId_lt : ∀ k b, boxedClasses k = some b → b.classId < 2147483648
  box_fields : ∀ k b, boxedClasses k = some b → ∃ name m m',
    ctx.kind? b.struct = some (.struct name [⟨.value .i32, m⟩, ⟨.value (.num k), m'⟩])
  class_struct : ∀ h d, classForHeapType h = some d → h = .defined d
  closure_struct : ∀ h n, functionTypeParameterCount h = some n → h = .defined (closureStructType n)

namespace Translator

open WasmBuilder

variable (t : Translator)

def isSubtypeOf (h h' : HeapType) : Option Bool :=
  h.isSubtypeOf t.ctx.types t.ctx.fuel h'

/-- `boxedClasses[type]!`. -/
def boxInfo : ValueType → Option BoxInfo
  | .num k => t.boxedClasses k
  | _ => none

/-- The index of the local that `addLocal` adds. -/
def temp : Nat := t.ctx.locals.length

/-- What is cast to: a class, the closures with a number of parameters, or a heap type. -/
inductive CastTarget
  | classInfo (struct : DefTypeId)
  | parameterCount (count : Nat)
  | heapType (type : HeapType)
  deriving DecidableEq

/-- The type that `_emitRtt` returns; casting a heap type that is no `DataType` to one throws. -/
def targetType : CastTarget → Option DefTypeId
  | .classInfo struct => some struct
  | .parameterCount n => some (t.closureStructType n)
  | .heapType (.defined d) =>
    match t.ctx.kind? d with
    | some (.struct _ _) => some d
    | some (.array _ _) => some d
    | _ => none
  | .heapType _ => none

def refCast (target : CastTarget) : Option (List ConvertInstr) :=
  (t.targetType target).map fun d => [.refCast d]

/-- Push the class id below the value, and allocate the box. -/
def boxCode (info : BoxInfo) : List ConvertInstr :=
  [.base (.plain (.localSet t.temp)), .base (.plain (.const .i32 info.classId)),
    .base (.plain (.localGet t.temp)), .structNew info.struct]

def box (source : ValueType) (h : HeapType) : Option (List ConvertInstr) := do
  let info ← t.boxInfo source
  -- The assertion that the box is a value of the target type.
  let below ← t.isSubtypeOf (.defined info.struct) h
  if below then
    some (t.boxCode info)
  else none

inductive DartValue
  | null
  | number (kind : NumTypeKind) (value : Int)
  | reference (type : HeapType) (address : Nat)
  deriving DecidableEq

def operands (type : ValueType) : List ValueType :=
  if type = t.voidMarker then [] else [type]

section Values

variable (instanceOf : StructObject → DefTypeId → Bool)

/-- Whether an object is a value of a heap type. -/
def ObjectIn (object : StructObject) : HeapType → Prop
  | .any => True
  | .eq => True
  | .data => True
  | .defined d => instanceOf object d = true
  | _ => False

/-- Whether a reference that is not null is a value of a heap type. -/
def ReferenceIn (heap : Heap) (v : Val) (h : HeapType) : Prop :=
  match ConvertInstr.object? heap v with
  | some object => ObjectIn instanceOf object h
  | none => h = .any ∨ h = .eq ∧ ∃ a, v = .ref .i31 a

/-- Whether a Dart value can be represented in a type: a number unboxed or by its box. -/
def Representable (heap : Heap) : ValueType → DartValue → Prop
  | .num k, .number k' _ => k = k'
  | .ref _ n, .null => n = true
  | .ref h _, .number k x => ∃ b, t.boxedClasses k = some b ∧ ObjectIn instanceOf (b.object k x) h
  | .ref h _, .reference g a => ReferenceIn instanceOf heap (.ref g a) h
  | _, _ => False

/-- The Dart value that a Wasm value stands for. A reference to a box stands for its payload; it
is also a reference. -/
inductive Stands (heap : Heap) : Val → DartValue → Prop
  | null : Stands heap .null .null
  | number (k : NumTypeKind) (x : Int) : Stands heap (.num k x) (.number k x)
  | boxed {g : HeapType} {a : Nat} {k : NumTypeKind} {x : Int} {b : BoxInfo}
      (hb : t.boxedClasses k = some b)
      (hobject : ConvertInstr.object? heap (.ref g a) = some (b.object k x)) :
      Stands heap (.ref g a) (.number k x)
  | reference (g : HeapType) (a : Nat) : Stands heap (.ref g a) (.reference g a)

/-- A Wasm value is a number or a reference, as its type says. -/
def HasShape : Val → ValueType → Prop
  | .num k _, .num k' => k = k'
  | .null, .ref _ _ => True
  | .ref _ _, .ref _ _ => True
  | _, _ => False

/-- The Wasm value `v` of type `type` stands for the Dart value `d`. -/
structure Represents (heap : Heap) (type : ValueType) (v : Val) (d : DartValue) : Prop where
  shape : HasShape v type
  stands : t.Stands heap v d
  representable : t.Representable instanceOf heap type d

end Values

end Translator

namespace WasmBuilder

namespace ValidatorState

def push (s : ValidatorState) (stack : List ValueType) : ValidatorState :=
  { s with stackTypes := stack ++ s.stackTypes }

/-- The code is reachable, and the operands of the state belong to blocks that are open. -/
def Open (s : ValidatorState) : Prop :=
  s.reachable = true ∧ ∃ l labels, s.labelStack = l :: labels ∧
    l.baseStackHeight ≤ s.stackTypes.length

variable {ctx : InstrContext} {s : ValidatorState}

theorem Open.push (hs : s.Open) (stack : List ValueType) : (s.push stack).Open := by
  rcases hs with ⟨hr, l, labels, hl, hbase⟩
  refine ⟨hr, l, labels, hl, ?_⟩
  simp only [ValidatorState.push, List.length_append]
  omega

end ValidatorState

end WasmBuilder

namespace Translator

open WasmBuilder ConvertInstr

section Verify

variable {t : Translator} {ctx : InstrContext} {s : ValidatorState} {h : HeapType} {n : Bool}

end Verify

/-! ## The conversions by their shape -/

section Parts

variable {t : Translator} {h h' : HeapType} {n n' : Bool} {source target : ValueType}
  {code : List ConvertInstr}

end Parts

/-! ## The emitted code passes the checks -/

section Verified

variable {t : Translator} {s : ValidatorState} {h : HeapType} {n : Bool}
  {source target : ValueType} {code asData : List ConvertInstr} {k : NumTypeKind} {b : BoxInfo}

end Verified

/-! ## The emitted code keeps the value -/

section Runs

variable {t : Translator} {instanceOf : StructObject → DefTypeId → Bool} {env : Environment}
  {ctx : InstrContext} {heap : Heap} {stack locals : List Val} {v : Val} {dart : DartValue}
  {h : HeapType} {n : Bool} {source target : ValueType} {code asData : List ConvertInstr}
  {k : NumTypeKind} {b : BoxInfo} {d : DefTypeId} {x : Int}

theorem run_cons {stack' locals' : List Val}
    (hi : i.step ctx env instanceOf stack locals heap = .values stack' locals' heap') :
    run ctx env instanceOf stack locals heap (i :: code) =
      run ctx env instanceOf stack' locals' heap' code := by
  rw [run, hi]

/-- What a conversion leaves in the place of its operand. -/
def Yields (t : Translator) (instanceOf : StructObject → DefTypeId → Bool) (stack : List Val)
    (target : ValueType) (dart : DartValue) (result : PlainResult) : Prop :=
  ∃ w locals heap, result = .values (w :: stack) locals heap ∧
    t.Represents instanceOf heap target w dart

end Runs

/-! ## Representation conversion -/

section Main

variable {t : Translator} {source target : ValueType} {code : List ConvertInstr}

end Main

/-! ## A module with two classes -/

end Translator
end Dart2Wasm
