import Dart2Wasm.Lib.Questions

/-!
# WasmBuilder.Types — the Wasm types of the module builder

The type classes of `wasm_builder/lib/src/types.dart`. A `DefType` is an object with an identity
of its own: two struct types with the same fields are different types. Every `DefType` is created
by one of the `add*Type` methods of a module, so its identity is its position in the module's
`defTypes` list (`DefTypeId`), and the `index` that the builder writes into instructions and
sections is a field of the object.
-/

namespace Dart2Wasm.WasmBuilder

open Lib (checkAll)

/-! ## Number, heap, value and storage types -/

inductive NumTypeKind
  | i32
  | i64
  | f32
  | f64
  | v128
  deriving DecidableEq

/-- Identity of a custom heap type: its position in `Module.defTypes`. -/
abbrev DefTypeId := Nat

inductive HeapType
  | any
  | eq
  | func
  | data
  | i31
  | extern_
  | defined (type : DefTypeId)
  deriving DecidableEq

/-- Whether a reference written with the `-ref` shorthand is nullable; custom heap types have no
default. -/
def HeapType.nullableByDefault : HeapType → Option Bool
  | .any => some true
  | .eq => some true
  | .func => some true
  | .data => some false
  | .i31 => some false
  | .extern_ => some true
  | .defined _ => none

inductive ValueType
  | num (kind : NumTypeKind)
  | rtt (defType : DefTypeId) (depth : Option Nat)
  | ref (heapType : HeapType) (nullable : Bool)
  deriving DecidableEq

namespace ValueType

@[match_pattern] abbrev i32 : ValueType := .num .i32
@[match_pattern] abbrev i64 : ValueType := .num .i64

/-- Primitive types and RTTs are never nullable. -/
def nullable : ValueType → Bool
  | .ref _ n => n
  | _ => false

def withNullability (t : ValueType) (n : Bool) : ValueType :=
  match t with
  | .ref h _ => .ref h n
  | t => t

end ValueType

inductive PackedTypeKind
  | i8
  | i16
  deriving DecidableEq

inductive StorageType
  | value (type : ValueType)
  | packed (kind : PackedTypeKind)
  deriving DecidableEq

/-- The value type used when a storage type is read from or written to memory. -/
def StorageType.unpacked : StorageType → ValueType
  | .value t => t
  | .packed _ => .i32

structure FieldType where
  type : StorageType
  mutable : Bool
  deriving DecidableEq

structure GlobalType where
  type : ValueType
  mutable : Bool
  deriving DecidableEq

/-! ## Custom heap types -/

/-- The three kinds of custom heap type. The element type of an array may be supplied after its
creation. -/
inductive DefKind
  | function (inputs outputs : List ValueType)
  | struct (name : String) (fields : List FieldType)
  | array (name : String) (elementType : Option FieldType)
  deriving DecidableEq

structure DefType where
  kind : DefKind
  superType : Option HeapType
  index : Nat
  deriving DecidableEq

/-- The custom heap types of a module, in the order of their creation. -/
abbrev TypeTable := List DefType

/-! ## Subtyping -/

abbrev HeapTest := HeapType → HeapType → Option Bool

/-- `isSubtypeOf` of the value types, given the subtype test of the heap types. -/
def ValueType.isSubtypeOfWith (heapSub : HeapTest) :
    ValueType → ValueType → Option Bool
  | .num k, .num k' => some (k == k')
  | .rtt d p, .rtt d' p' => some (d == d' && (p' == none || p == p'))
  | .ref h n, .ref h' n' => if n && !n' then some false else heapSub h h'
  | _, _ => some false

def StorageType.isSubtypeOfWith (heapSub : HeapTest) :
    StorageType → StorageType → Option Bool
  | .value t, .value t' => t.isSubtypeOfWith heapSub t'
  | .packed k, .packed k' => some (k == k')
  | _, _ => some false

/-- Mutable fields are invariant, immutable fields are covariant. -/
def FieldType.isSubtypeOfWith (heapSub : HeapTest)
    (f g : FieldType) : Option Bool :=
  if f.mutable != g.mutable then some false
  else if f.mutable then some (f.type == g.type)
  else f.type.isSubtypeOfWith heapSub g.type

/-- `isStructuralSubtypeOf` of a custom heap type, given the subtype test of the heap types. -/
def DefKind.isStructuralSubtypeOfWith (types : TypeTable)
    (heapSub : HeapTest) (this : DefKind) (other : HeapType) :
    Option Bool :=
  match this, other with
  | .function _ _, .any => some true
  | .function _ _, .func => some true
  | .function inputs outputs, .defined o =>
    match (types[o]?).map DefType.kind with
    | some (.function inputs' outputs') =>
      if inputs.length != inputs'.length then some false
      else if outputs.length != outputs'.length then some false
      else
        -- Inputs are contravariant, outputs are covariant.
        match checkAll (fun p : ValueType × ValueType => p.2.isSubtypeOfWith heapSub p.1)
            (inputs.zip inputs') with
        | some true =>
          checkAll (fun p : ValueType × ValueType => p.1.isSubtypeOfWith heapSub p.2)
            (outputs.zip outputs')
        | r => r
    | _ => some false
  | .struct _ _, .any => some true
  | .struct _ _, .eq => some true
  | .struct _ _, .data => some true
  | .struct _ fields, .defined o =>
    match (types[o]?).map DefType.kind with
    | some (.struct _ fields') =>
      if fields.length < fields'.length then some false
      else checkAll (fun p : FieldType × FieldType => p.1.isSubtypeOfWith heapSub p.2)
        (fields.zip fields')
    | _ => some false
  | .array _ _, .any => some true
  | .array _ _, .eq => some true
  | .array _ _, .data => some true
  | .array _ (some element), .defined o =>
    match (types[o]?).map DefType.kind with
    | some (.array _ (some element')) => element.isSubtypeOfWith heapSub element'
    | some (.array _ none) => none
    | _ => some false
  -- Reading the element type before it has been supplied throws.
  | .array _ none, .defined o =>
    match (types[o]?).map DefType.kind with
    | some (.array _ _) => none
    | _ => some false
  | _, _ => some false

/-- `isSubtypeOf` of the heap types. The recursion through fields of recursive types need not end,
so the test runs on fuel; `none` means that it has not returned. -/
def HeapType.isSubtypeOf (types : TypeTable) : Nat → HeapType → HeapType → Option Bool
  | 0, _, _ => none
  | fuel + 1, this, other =>
    match this with
    | .any => some (other == .any)
    | .eq => some (other == .any || other == .eq)
    | .func => some (other == .any || other == .func)
    | .data => some (other == .any || other == .eq || other == .data)
    | .i31 => some (other == .any || other == .eq || other == .i31)
    | .extern_ => some (other == .any || other == .extern_)
    | .defined d =>
      if other = .defined d then some true
      else
        match types[d]? with
        | none => none
        | some t =>
          match t.superType with
          | some s => HeapType.isSubtypeOf types fuel s other
          | none =>
            t.kind.isStructuralSubtypeOfWith types
              (HeapType.isSubtypeOf types fuel) other

def ValueType.isSubtypeOf (types : TypeTable) (fuel : Nat) (this other : ValueType) :
    Option Bool :=
  this.isSubtypeOfWith (HeapType.isSubtypeOf types fuel) other

/-- `isStructuralSubtypeOf`, which `serializeDefinition` asserts of a declared supertype. -/
def DefType.isStructuralSubtypeOf (types : TypeTable) (fuel : Nat) (this : DefType)
    (other : HeapType) : Option Bool :=
  this.kind.isStructuralSubtypeOfWith types (HeapType.isSubtypeOf types fuel) other

end Dart2Wasm.WasmBuilder
