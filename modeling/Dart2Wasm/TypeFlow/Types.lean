import Mathlib.Data.Prod.Lex

/-!
# Types — the types of the type flow analysis

The model of `union` and `intersection` in `types.dart`. A class is its id. Types dispatch to each
other by `order`: a receiver of higher order hands the call over to the argument, and a cone is
replaced by its specialization when nothing simpler is known.

The type hierarchy is what the operations ask for: supertypes, the number of type parameters, the
specialization of a cone and the identity of objects.
-/

namespace Dart2Wasm.TypeFlow

/-! ## Representations -/

/-- An element of a type arguments vector: `UnknownType` or `RuntimeType`. -/
inductive TypeArg (ρ : Type)
  | unknown
  | runtime (type : ρ)
  deriving DecidableEq

structure ConcreteType (ρ κ : Type) where
  cls : Nat
  typeArgs : Option (List (TypeArg ρ))
  constant : Option κ
  deriving DecidableEq

/-- The class `Type`, as far as it describes sets of values. -/
inductive FlowType (ρ κ : Type)
  | empty
  | nullable (baseType : FlowType ρ κ)
  | any
  | wideCone (cls : Nat)
  | set (types : List (ConcreteType ρ κ))
  | cone (cls : Nat)
  | concrete (type : ConcreteType ρ κ)

inductive Error
  | unexpectedType
  | failedCast
  | rangeError
  deriving DecidableEq

variable {ρ κ : Type}

/-- The index in `TypeOrder`. -/
def FlowType.order : FlowType ρ κ → Nat
  | .empty => 2
  | .nullable _ => 3
  | .any => 4
  | .wideCone _ => 5
  | .set _ => 6
  | .cone _ => 7
  | .concrete _ => 8

def FlowType.isNullable : FlowType ρ κ → Bool
  | .nullable _ => true
  | _ => false

/-- What a call can still do: nullable types are unwrapped and cones are specialized. -/
def FlowType.weight : FlowType ρ κ → Nat
  | .nullable baseType => baseType.weight + 1
  | .cone _ => 1
  | _ => 0

/-- `specializeTypeCone` returns an empty, any, wide cone, concrete or set type. -/
def FlowType.isSpecialization : FlowType ρ κ → Bool
  | .nullable _ | .cone _ => false
  | _ => true

/-- What the operations use of `TypeHierarchy`, and the identity of objects. -/
structure TypeHierarchy (ρ κ : Type) where
  supertypes : Nat → List Nat
  supertypes_trans : ∀ a b c, b ∈ supertypes a → c ∈ supertypes b → c ∈ supertypes a
  typeParameters : Nat → Nat
  specializeTypeCone : Nat → FlowType ρ κ
  specializeTypeCone_kind : ∀ c, (specializeTypeCone c).isSpecialization = true
  identical : FlowType ρ κ → FlowType ρ κ → Bool
  identical_eq : ∀ a b, identical a b = true → a = b

namespace TypeHierarchy

variable (h : TypeHierarchy ρ κ)

def isSubtype (sub sup : Nat) : Bool := sub == sup || (h.supertypes sub).contains sup

theorem isSubtype_trans {a b c : Nat} (hab : h.isSubtype a b = true)
    (hbc : h.isSubtype b c = true) :
    h.isSubtype a c = true := by
  simp only [isSubtype, Bool.or_eq_true, beq_iff_eq, List.contains_iff_mem] at *
  rcases hab with rfl | hab
  · exact hbc
  · rcases hbc with rfl | hbc
    · exact Or.inr hab
    · exact Or.inr (h.supertypes_trans a b c hab hbc)

theorem weight_specializeTypeCone (c : Nat) : (h.specializeTypeCone c).weight = 0 := by
  have hkind := h.specializeTypeCone_kind c
  cases hspec : h.specializeTypeCone c <;> simp_all [FlowType.isSpecialization, FlowType.weight]

/-! ## Concrete types -/

def numImmediateTypeArgs (t : ConcreteType ρ κ) : Nat :=
  if t.typeArgs.isSome then h.typeParameters t.cls else 0

variable [DecidableEq ρ] [DecidableEq κ]

/-- `operator ==` of concrete types; only the immediate type arguments are compared. -/
def concreteEq (t u : ConcreteType ρ κ) : Bool :=
  h.identical (.concrete t) (.concrete u) ||
    (t.cls == u.cls && h.numImmediateTypeArgs t == h.numImmediateTypeArgs u &&
      (t.typeArgs.isNone ||
        (t.typeArgs.getD []).take (h.numImmediateTypeArgs t) ==
          (u.typeArgs.getD []).take (h.numImmediateTypeArgs t)) &&
      t.constant == u.constant)

end TypeHierarchy

/-- `raw`: no type arguments and no constant. -/
def ConcreteType.raw (t : ConcreteType ρ κ) : ConcreteType ρ κ := ⟨t.cls, none, none⟩

def ConcreteType.isRaw (t : ConcreteType ρ κ) : Bool := t.typeArgs.isNone && t.constant.isNone

variable [DecidableEq ρ] [DecidableEq κ]

/-- Intersection of type arguments; nothing is the empty type. -/
def TypeArg.intersection : TypeArg ρ → TypeArg ρ → Option (TypeArg ρ)
  | .unknown, other => some other
  | .runtime type, .unknown => some (.runtime type)
  | .runtime type, .runtime other => if type = other then some (.runtime type) else none

/-- The loop that merges two vectors; nothing when an element is empty. -/
def mergeTypeArgs : List (TypeArg ρ) → List (TypeArg ρ) → Except Error (Option (List (TypeArg ρ)))
  | [], _ => .ok (some [])
  | _ :: _, [] => .error .rangeError
  | a :: as, b :: bs =>
    match a.intersection b with
    | none => .ok none
    | some merged => do
      let rest ← mergeTypeArgs as bs
      .ok (rest.map (merged :: ·))

def TypeArg.isRuntimeType : TypeArg ρ → Bool
  | .unknown => false
  | .runtime _ => true

/-- The merged vector of an intersection; the outer option is the empty type. -/
def mergedTypeArgs (a b : Option (List (TypeArg ρ))) :
    Except Error (Option (Option (List (TypeArg ρ)))) :=
  match a, b with
  | none, b => .ok (some b)
  | some as, none => .ok (some (some as))
  | some as, some bs => do
    let merged ← mergeTypeArgs as bs
    .ok (merged.map fun args => if args.any TypeArg.isRuntimeType then some args else none)

/-- The merged constant; the outer option is the empty type. -/
def mergedConstant (a b : Option κ) : Option (Option κ) :=
  match a, b with
  | none, b => some b
  | some a, none => some (some a)
  | some a, some b => if a = b then some (some a) else none

def ConcreteType.intersection (h : TypeHierarchy ρ κ) (t u : ConcreteType ρ κ) :
    Except Error (FlowType ρ κ) :=
  if h.concreteEq t u then .ok (.concrete t)
  else if t.cls ≠ u.cls then .ok .empty
  else if t.isRaw then .ok (.concrete u)
  else if u.isRaw then .ok (.concrete t)
  else do
    match ← mergedTypeArgs t.typeArgs u.typeArgs with
    | none => .ok .empty
    | some typeArgs =>
      match mergedConstant t.constant u.constant with
      | none => .ok .empty
      | some constant => .ok (.concrete ⟨t.cls, typeArgs, constant⟩)

/-! ## Sets -/

abbrev TypeSet (ρ κ : Type) := List (ConcreteType ρ κ)

def unionLists (h : TypeHierarchy ρ κ) : TypeSet ρ κ → TypeSet ρ κ → TypeSet ρ κ
  | [], types2 => types2
  | types1, [] => types1
  | t1 :: types1, t2 :: types2 =>
    if t1.cls < t2.cls then t1 :: unionLists h types1 (t2 :: types2)
    else if t1.cls > t2.cls then t2 :: unionLists h (t1 :: types1) types2
    else (if h.concreteEq t1 t2 then t1 else t1.raw) :: unionLists h types1 types2
  termination_by types1 types2 => types1.length + types2.length

/-- The cast in `_intersectLists`; the empty type is dropped. -/
def castConcrete : FlowType ρ κ → Except Error (Option (ConcreteType ρ κ))
  | .empty => .ok none
  | .concrete t => .ok (some t)
  | _ => .error .failedCast

def intersectLists (h : TypeHierarchy ρ κ) :
    TypeSet ρ κ → TypeSet ρ κ → Except Error (TypeSet ρ κ)
  | [], _ => .ok []
  | _, [] => .ok []
  | t1 :: types1, t2 :: types2 =>
    if t1.cls < t2.cls then intersectLists h types1 (t2 :: types2)
    else if t1.cls > t2.cls then intersectLists h (t1 :: types1) types2
    else if t1.isRaw && t2.isRaw then do
      let types ← intersectLists h types1 types2
      .ok (t1 :: types)
    else do
      let intersect ← t1.intersection h t2
      let type ← castConcrete intersect
      let types ← intersectLists h types1 types2
      .ok (type.toList ++ types)
  termination_by types1 types2 => types1.length + types2.length

/-- `_isSubList`, by identity. -/
def isSubList (h : TypeHierarchy ρ κ) : TypeSet ρ κ → TypeSet ρ κ → Bool
  | [], _ => true
  | _ :: _, [] => false
  | t1 :: sublist, t2 :: list =>
    if h.identical (.concrete t1) (.concrete t2) then isSubList h sublist list
    else if t1.cls > t2.cls then isSubList h (t1 :: sublist) list
    else false

/-- The type of a list of concrete types after an intersection. -/
def ofList : TypeSet ρ κ → FlowType ρ κ
  | [] => .empty
  | [t] => .concrete t
  | types => .set types

/-- The loop of `SetType.intersection` with a concrete type. -/
def intersectConcrete (h : TypeHierarchy ρ κ) (other : ConcreteType ρ κ) :
    TypeSet ρ κ → Except Error (FlowType ρ κ)
  | [] => .ok .empty
  | type :: types =>
    if h.concreteEq type other then .ok (.concrete other)
    else if type.cls = other.cls then type.intersection h other
    else intersectConcrete h other types

/-! ## Union and intersection -/

/-- `union`; the receiver is `a`. -/
def FlowType.union (h : TypeHierarchy ρ κ) (a b : FlowType ρ κ) : Except Error (FlowType ρ κ) :=
  match a with
  | .empty => .ok b
  | .nullable baseType =>
    if b.order < (FlowType.nullable baseType).order then union h b (.nullable baseType)
    else match b with
      | .nullable otherBaseType => do
        let type ← union h baseType otherBaseType
        .ok (.nullable type)
      | other => do
        let type ← union h baseType other
        .ok (.nullable type)
  | .any => if b.order < (FlowType.any : FlowType ρ κ).order then union h b .any else .ok .any
  | .wideCone cls =>
    if h.identical (.wideCone cls) b then .ok (.wideCone cls)
    else if b.order < (FlowType.wideCone cls : FlowType ρ κ).order then union h b (.wideCone cls)
    else match b with
      | .cone other =>
        if h.isSubtype other cls then .ok (.wideCone cls)
        else if h.isSubtype cls other then .ok (.cone other)
        else .ok .any
      | .wideCone other =>
        if h.isSubtype other cls then .ok (.wideCone cls)
        else if h.isSubtype cls other then .ok (.wideCone other)
        else .ok .any
      | .concrete type =>
        if h.isSubtype type.cls cls then .ok (.wideCone cls)
        else if h.isSubtype cls type.cls then .ok (.cone type.cls)
        else .ok .any
      | .set types =>
        if types.all fun t => h.isSubtype t.cls cls then .ok (.wideCone cls) else .ok .any
      | _ => .error .unexpectedType
  | .set types =>
    if h.identical (.set types) b then .ok (.set types)
    else if b.order < (FlowType.set types).order then union h b (.set types)
    else match b with
      | .set otherTypes =>
        if types.length ≥ otherTypes.length then
          if isSubList h otherTypes types then .ok (.set types)
          else .ok (.set (unionLists h types otherTypes))
        else
          if isSubList h types otherTypes then .ok (.set otherTypes)
          else .ok (.set (unionLists h types otherTypes))
      | .concrete type =>
        if types.any fun t => h.concreteEq t type then .ok (.set types)
        else .ok (.set (unionLists h types [type]))
      -- a wide cone has a lower order
      | .cone cls => union h (h.specializeTypeCone cls) (.set types)
      | _ => .error .unexpectedType
  | .cone cls =>
    if h.identical (.cone cls) b then .ok (.cone cls)
    else if b.order < (FlowType.cone cls : FlowType ρ κ).order then union h b (.cone cls)
    else match b with
      | .cone other =>
        if cls = other then .ok (.cone cls)
        else if h.isSubtype other cls then .ok (.cone cls)
        else if h.isSubtype cls other then .ok (.cone other)
        else union h (h.specializeTypeCone cls) (.cone other)
      | .concrete type =>
        if h.isSubtype type.cls cls then .ok (.cone cls)
        else union h (h.specializeTypeCone cls) (.concrete type)
      | other => union h (h.specializeTypeCone cls) other
  | .concrete type =>
    if b.order < (FlowType.concrete type).order then union h b (.concrete type)
    else match b with
      | .concrete other =>
        if h.concreteEq type other then .ok (.concrete type)
        else if type.cls ≠ other.cls then
          .ok (.set (if type.cls < other.cls then [type, other] else [other, type]))
        else .ok (.concrete type.raw)
      | _ => .error .unexpectedType
  termination_by (a.weight + b.weight, a.order)
  decreasing_by
    all_goals simp only [FlowType.weight, TypeHierarchy.weight_specializeTypeCone, Prod.lex_def]
    all_goals omega

/-- `intersection`; the receiver is `a`. -/
def FlowType.intersection (h : TypeHierarchy ρ κ) (a b : FlowType ρ κ) :
    Except Error (FlowType ρ κ) :=
  match a with
  | .empty => .ok .empty
  | .nullable baseType =>
    if b.order < (FlowType.nullable baseType).order then intersection h b (.nullable baseType)
    else match b with
      | .nullable otherBaseType => do
        let type ← intersection h baseType otherBaseType
        .ok (.nullable type)
      | other => intersection h baseType other
  | .any => if b.order < (FlowType.any : FlowType ρ κ).order then intersection h b .any else .ok b
  | .wideCone cls =>
    if h.identical (.wideCone cls) b then .ok (.wideCone cls)
    else if b.order < (FlowType.wideCone cls : FlowType ρ κ).order then
      intersection h b (.wideCone cls)
    else match b with
      | .cone other =>
        if h.isSubtype other cls then .ok (.cone other) else .ok (.wideCone cls)
      | .wideCone other =>
        if h.isSubtype other cls then .ok (.wideCone other) else .ok (.wideCone cls)
      | .concrete type =>
        if h.isSubtype type.cls cls then .ok (.concrete type) else .ok .empty
      | .set types => .ok (.set types)
      | _ => .error .unexpectedType
  | .set types =>
    if h.identical (.set types) b then .ok (.set types)
    else if b.order < (FlowType.set types).order then intersection h b (.set types)
    else match b with
      | .set otherTypes => do
        let list ← intersectLists h types otherTypes
        .ok (ofList list)
      | .concrete type => intersectConcrete h type types
      -- a wide cone has a lower order
      | .cone cls => intersection h (h.specializeTypeCone cls) (.set types)
      | _ => .error .unexpectedType
  | .cone cls =>
    if h.identical (.cone cls) b then .ok (.cone cls)
    else if b.order < (FlowType.cone cls : FlowType ρ κ).order then intersection h b (.cone cls)
    else match b with
      | .cone other =>
        if cls = other then .ok (.cone cls)
        else if h.isSubtype other cls then .ok (.cone other)
        else if h.isSubtype cls other then .ok (.cone cls)
        else intersection h (h.specializeTypeCone cls) (.cone other)
      | .concrete type =>
        if h.isSubtype type.cls cls then .ok (.concrete type) else .ok .empty
      | other => intersection h (h.specializeTypeCone cls) other
  | .concrete type =>
    if b.order < (FlowType.concrete type).order then intersection h b (.concrete type)
    else match b with
      | .concrete other => type.intersection h other
      | _ => .error .unexpectedType
  termination_by (a.weight + b.weight, a.order)
  decreasing_by
    all_goals simp only [FlowType.weight, TypeHierarchy.weight_specializeTypeCone, Prod.lex_def]
    all_goals omega

end Dart2Wasm.TypeFlow
