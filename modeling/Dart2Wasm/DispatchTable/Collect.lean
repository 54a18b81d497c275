import Mathlib.Data.List.Induction
import Dart2Wasm.ParamInfo
import Dart2Wasm.DispatchTable.Selector

/-!
# DispatchTable.Collect — collection of the targets of every selector

The first half of `DispatchTable.build` in `dart2wasm/lib/dispatch_table.dart`. The classes are
visited in the order of their ids. A class inherits the targets of its superclass for every selector
of the superclass; each instance member then sets the targets of the selectors of its references,
where an abstract member does not replace a target that is already there.

The selector of a reference is the one that the table selector metadata gives, except that all
getters of one name that are called dynamically share the selector of the first of them.
-/

namespace Dart2Wasm.DispatchTable

open Lib List

/-! ## Members and references -/

/-- The name of a member; a private name belongs to a library. -/
structure Name where
  text : String
  library : Option Nat
  deriving DecidableEq

/-- The class that stands for a type, and whether the type admits null. -/
structure DartType where
  classId : ClassId
  isPotentiallyNullable : Bool
  deriving DecidableEq

structure ProcedureAttributesMetadata where
  methodOrSetterSelectorId : Nat
  getterSelectorId : Nat
  getterCalledDynamically : Bool

/-- What fields and procedures have in common. Different members have different ids. -/
structure Declaration where
  id : Nat
  name : Name
  isAbstract : Bool
  attributes : ProcedureAttributesMetadata

structure Field extends Declaration where
  type : DartType
  hasSetter : Bool

inductive ProcedureKind
  | method
  | getter
  | setter
  deriving DecidableEq

/-- A procedure; a `returnType` of `none` is `void`. -/
structure Procedure (N κ : Type) extends Declaration where
  kind : ProcedureKind
  function : FunctionNode N κ DartType
  returnType : Option DartType

inductive Member (N κ : Type)
  | field (field : Field)
  | procedure (procedure : Procedure N κ)

/-- A reference to a member or to one of its implicit functions. -/
inductive MemberReference (N κ : Type)
  | implicitGetter (field : Field)
  | implicitSetter (field : Field)
  | procedure (procedure : Procedure N κ)
  | tearOff (procedure : Procedure N κ)

abbrev References (N κ : Type) := List (MemberReference N κ)

/-- The targets of the selectors by their ids. -/
abbrev Targets (N κ : Type) := Nat → ClassId → Option (MemberReference N κ)

variable {N κ : Type} {refs : References N κ}

namespace MemberReference

def asMember : MemberReference N κ → Declaration
  | .implicitGetter f => f.toDeclaration
  | .implicitSetter f => f.toDeclaration
  | .procedure p => p.toDeclaration
  | .tearOff p => p.toDeclaration

/-- `target.isGetter || target.isTearOffReference`. -/
def isGetter : MemberReference N κ → Bool
  | .implicitGetter _ => true
  | .implicitSetter _ => false
  | .procedure p => p.kind == .getter
  | .tearOff _ => true

def isAbstract (r : MemberReference N κ) : Bool := r.asMember.isAbstract

def selectorId (r : MemberReference N κ) : Nat :=
  if r.isGetter then r.asMember.attributes.getterSelectorId
  else r.asMember.attributes.methodOrSetterSelectorId

def target : MemberReference N κ → ReferenceTarget N κ DartType
  | .implicitGetter _ => .implicitGetter
  | .implicitSetter _ => .implicitSetter
  | .procedure p => .function p.function
  | .tearOff _ => .tearOff

/-- `ParameterInfo.fromMember(target)`. -/
def paramInfo (r : MemberReference N κ) : ParameterInfo N κ := ParameterInfo.fromMember r.target

def returnCount : MemberReference N κ → Nat
  | .implicitGetter _ => 1
  | .implicitSetter _ => 0
  | .procedure p => if p.kind == .getter || p.returnType.isSome then 1 else 0
  | .tearOff _ => 1

def calledDynamically (r : MemberReference N κ) : Bool :=
  r.isGetter && r.asMember.attributes.getterCalledDynamically

/-- The reference is the target of dynamic gets of the name. -/
def isDynamicGet (text : String) (r : MemberReference N κ) : Bool :=
  r.calledDynamically && r.asMember.name.text == text

/-- References of one name, both getters or both not, override each other. -/
def Overrides (r r' : MemberReference N κ) : Prop :=
  r.asMember.name = r'.asMember.name ∧ r.isGetter = r'.isGetter

instance (r r' : MemberReference N κ) : Decidable (r.Overrides r') := instDecidableAnd

end MemberReference

/-! ## The collection phase -/

/-- Call count and tear-off flag of a selector in the table selector metadata. -/
structure TableSelectorInfo where
  callCount : Nat
  tornOff : Bool

/-- A selector, but for its targets. Its name is that of its first member. -/
structure SelectorHeader (N κ : Type) where
  name : String
  callCount : Nat
  tornOff : Bool
  paramInfo : ParameterInfo N κ
  returnCount : Nat
  forced : Bool

structure SelectorInfo (N κ : Type) extends SelectorHeader N κ where
  targets : OrderedMap ClassId (MemberReference N κ)

/-- The selectors by their ids, and the selector ids of the names of dynamic gets. -/
structure Selectors (N κ : Type) where
  selectorInfo : OrderedMap Nat (SelectorInfo N κ)
  dynamicGets : OrderedMap String Nat

/-- A class: its superclass and its instance members (those of `Object` for the top class). -/
structure ClassDecl (N κ : Type) where
  superInfo : Option ClassId
  members : List (Member N κ)

section Collect

variable [DecidableEq N] (selectorMetadata : Nat → TableSelectorInfo)

/-- The merging of getters that are called dynamically. -/
def mergeDynamic (dynamicGets : OrderedMap String Nat) (r : MemberReference N κ) :
    OrderedMap String Nat × Nat :=
  if r.calledDynamically then
    match dynamicGets.get r.asMember.name.text with
    | some id => (dynamicGets, id)
    | none => (dynamicGets.set r.asMember.name.text r.selectorId, r.selectorId)
  else (dynamicGets, r.selectorId)

/-- The selector that is created for its first reference. -/
def newSelector (id : Nat) (r : MemberReference N κ) : SelectorInfo N κ where
  name := r.asMember.name.text
  callCount := (selectorMetadata id).callCount
  tornOff := (selectorMetadata id).tornOff
  paramInfo := r.paramInfo
  returnCount := r.returnCount
  forced := r.calledDynamically
  targets := .empty

/-- `selectorForTarget`: the id of the selector, the selector and the new state. -/
def selectorForTarget (s : Selectors N κ) (r : MemberReference N κ) :
    Nat × SelectorInfo N κ × Selectors N κ :=
  let (dynamicGets, id) := mergeDynamic s.dynamicGets r
  let selector := (s.selectorInfo.get id).getD (newSelector selectorMetadata id r)
  let selector := { selector with
    paramInfo := selector.paramInfo.merge r.paramInfo
    returnCount := max selector.returnCount r.returnCount }
  (id, selector, ⟨s.selectorInfo.set id selector, dynamicGets⟩)

/-- The new target of a class: an abstract member does not replace a target. -/
def newTarget (old : Option (MemberReference N κ)) (r : MemberReference N κ) :
    MemberReference N κ :=
  if r.isAbstract then old.getD r else r

/-- `addMember`: the selector, and the state with the selector ids of the class. -/
def addMember (classId : ClassId) (s : Selectors N κ × List Nat) (r : MemberReference N κ) :
    SelectorInfo N κ × Selectors N κ × List Nat :=
  let (id, selector, state) := selectorForTarget selectorMetadata s.1 r
  let selector := { selector with
    targets := selector.targets.set classId (newTarget (selector.targets.get classId) r) }
  (selector, { state with selectorInfo := state.selectorInfo.set id selector }, s.2 ++ [id])

def addMembers (classId : ClassId) (s : Selectors N κ × List Nat) :
    Member N κ → Selectors N κ × List Nat
  | .field f =>
    let s := (addMember selectorMetadata classId s (.implicitGetter f)).2
    if f.hasSetter then (addMember selectorMetadata classId s (.implicitSetter f)).2 else s
  | .procedure p =>
    let (method, s) := addMember selectorMetadata classId s (.procedure p)
    if method.tornOff then (addMember selectorMetadata classId s (.tearOff p)).2 else s

/-- One selector of the superclass: `selector.targets[classId] = selector.targets[superId]!`. -/
def inherit (classId superId : ClassId) (s : Selectors N κ) (id : Nat) :
    Option (Selectors N κ) := do
  let selector ← s.selectorInfo.get id
  let target ← selector.targets.get superId
  return { s with
    selectorInfo := s.selectorInfo.set id
      { selector with targets := selector.targets.set classId target } }

/-- The selectors of the superclass, which the class understands too. -/
def inheritAll (classId : ClassId) (superInfo : Option ClassId) (s : Selectors N κ)
    (selectorsInClass : List (List Nat)) : Option (Selectors N κ × List Nat) :=
  match superInfo with
  | none => some (s, [])
  | some superId => do
    let selectorIds ← selectorsInClass[superId]?
    let s ← selectorIds.foldlM (inherit classId superId) s
    return (s, selectorIds)

def visitClass (s : Selectors N κ × List (List Nat)) (info : ClassDecl N κ) :
    Option (Selectors N κ × List (List Nat)) := do
  let classId := s.2.length
  let inherited ← inheritAll classId info.superInfo s.1 s.2
  let (state, selectorIds) := info.members.foldl (addMembers selectorMetadata classId) inherited
  return (state, s.2 ++ [selectorIds])

/-- The collection phase of `build`; it fails where a null check of the source does. -/
def collect (classes : List (ClassDecl N κ)) : Option (Selectors N κ × List (List Nat)) :=
  classes.foldlM (visitClass selectorMetadata) (⟨.empty, .empty⟩, [])

end Collect

/-! ## What the classes declare -/

section Declared

variable (selectorMetadata : Nat → TableSelectorInfo)

/-- The references of a member that get a target. -/
def Member.references : Member N κ → References N κ
  | .field f => .implicitGetter f :: if f.hasSetter then [.implicitSetter f] else []
  | .procedure p =>
    .procedure p ::
      if p.kind ≠ .getter ∧ (selectorMetadata p.attributes.methodOrSetterSelectorId).tornOff then
        [.tearOff p]
      else []

def ClassDecl.references (info : ClassDecl N κ) : References N κ :=
  info.members.flatMap (Member.references selectorMetadata)

/-- The references of some classes, in the order in which they are visited. -/
def references (classes : List (ClassDecl N κ)) : References N κ :=
  classes.flatMap (ClassDecl.references selectorMetadata)

end Declared

/-- The classes of a program in the order of their ids, and the table selector metadata. -/
structure Program (N κ : Type) where
  selectorMetadata : Nat → TableSelectorInfo
  classes : List (ClassDecl N κ)

namespace Program

variable (P : Program N κ)

def references : References N κ :=
  DispatchTable.references P.selectorMetadata P.classes

/-- The references declared in a class and its `superInfo` ancestors, the farthest ancestor
first. -/
def declaredFrom : Nat → ClassId → References N κ
  | 0, _ => []
  | fuel + 1, c =>
    match P.classes[c]? with
    | none => []
    | some info =>
      (info.superInfo.elim [] fun superId => declaredFrom fuel superId) ++
        info.references P.selectorMetadata

def declared (c : ClassId) : References N κ := P.declaredFrom (c + 1) c

def collect [DecidableEq N] : Option (Selectors N κ × List (List Nat)) :=
  DispatchTable.collect P.selectorMetadata P.classes

end Program

/-- The selector id of the dynamic gets of a name: that of the first getter of that name that is
called dynamically. -/
def dynamicGet (refs : References N κ) (text : String) : Option Nat :=
  (refs.find? (MemberReference.isDynamicGet text)).map MemberReference.selectorId

/-- The id of the selector of a reference. -/
def selectorOf (refs : References N κ) (r : MemberReference N κ) : Nat :=
  if r.calledDynamically then (dynamicGet refs r.asMember.name.text).getD r.selectorId
  else r.selectorId

/-- The references of a selector. -/
def filed (all : References N κ) (id : Nat) (refs : References N κ) :
    References N κ :=
  refs.filter fun r => selectorOf all r = id

@[simp] theorem mem_filed {all : References N κ} {id : Nat}
    {r : MemberReference N κ} : r ∈ filed all id refs ↔ r ∈ refs ∧ selectorOf all r = id := by
  simp [filed]

@[simp] theorem filed_nil (all : References N κ) (id : Nat) : filed all id [] = [] := rfl

@[simp] theorem filed_append (all refs refs' : References N κ) (id : Nat) :
    filed all id (refs ++ refs') = filed all id refs ++ filed all id refs' :=
  filter_append _ _

theorem filed_singleton (all : References N κ) (id : Nat) (r : MemberReference N κ) :
    filed all id [r] = if selectorOf all r = id then [r] else [] := by
  by_cases h : selectorOf all r = id <;> simp [filed, h]

/-- Method lookup: the nearest concrete member that the reference overrides or is overridden by. -/
def lookupMember (refs : References N κ) (r : MemberReference N κ) :
    Option (MemberReference N κ) :=
  refs.reverse.find? fun t => !t.isAbstract && decide (t.Overrides r)

namespace Program

variable (P : Program N κ)

abbrev selectorOf (r : MemberReference N κ) : Nat := DispatchTable.selectorOf P.references r

/-- Superclasses come before their subclasses, and only methods and setters are torn off. -/
structure WellFormed : Prop where
  superInfo_lt : ∀ (c : ClassId) (info : ClassDecl N κ) (superId : ClassId),
    P.classes[c]? = some info → info.superInfo = some superId → superId < c
  getter_not_tornOff : ∀ r ∈ P.references, r.isGetter = true →
    (P.selectorMetadata r.selectorId).tornOff = false

variable {P}

/-- The fuel of `declaredFrom` is enough. -/
theorem declaredFrom_eq (h : P.WellFormed) (c : ClassId) (fuel : Nat) (hfuel : c < fuel) :
    P.declaredFrom fuel c = P.declared c := by
  induction c using Nat.strong_induction_on generalizing fuel with
  | _ c ih =>
    rcases fuel with _ | fuel
    · exact absurd hfuel (Nat.not_lt_zero c)
    rw [declared, declaredFrom, declaredFrom]
    rcases hinfo : P.classes[c]? with _ | info
    · rfl
    · rcases hsuper : info.superInfo with _ | superId
      · simp only [hsuper, Option.elim]
      · have hlt := h.superInfo_lt c info superId hinfo hsuper
        have hfuel' : superId < fuel := Nat.lt_of_lt_of_le hlt (Nat.le_of_lt_succ hfuel)
        simp only [hsuper, Option.elim]
        rw [ih superId hlt fuel hfuel', ih superId hlt c hlt]

theorem declared_eq (h : P.WellFormed) {c : ClassId} {info : ClassDecl N κ}
    (hinfo : P.classes[c]? = some info) :
    P.declared c = (info.superInfo.elim [] P.declared) ++ info.references P.selectorMetadata := by
  rw [declared, declaredFrom, hinfo]
  rcases hsuper : info.superInfo with _ | superId
  · simp only [hsuper, Option.elim]
  · have hlt := h.superInfo_lt c info superId hinfo hsuper
    simp only [hsuper, Option.elim]
    rw [declaredFrom_eq h superId c hlt]

end Program

/-! ## The state after some references -/

section Fold

variable [DecidableEq N] (selectorMetadata : Nat → TableSelectorInfo)

/-- The selector with its references in the order in which they are visited. -/
def header (id : Nat) : References N κ → Option (SelectorHeader N κ)
  | [] => none
  | r :: refs => some
      { name := r.asMember.name.text
        callCount := (selectorMetadata id).callCount
        tornOff := (selectorMetadata id).tornOff
        paramInfo := ParameterInfo.mergeAll r.paramInfo ((r :: refs).map MemberReference.paramInfo)
        returnCount := ((r :: refs).map MemberReference.returnCount).foldl max r.returnCount
        forced := r.calledDynamically }

theorem header_append (id : Nat) (refs : References N κ) (r : MemberReference N κ) :
    header selectorMetadata id (refs ++ [r]) =
      let old := (header selectorMetadata id refs).getD
        (newSelector selectorMetadata id r).toSelectorHeader
      some { old with
        paramInfo := old.paramInfo.merge r.paramInfo
        returnCount := max old.returnCount r.returnCount } := by
  cases refs with
  | nil => rfl
  | cons first refs =>
    simp [header, ParameterInfo.mergeAll, foldl_append]

/-- The target of a class for a selector whose references in the class and its ancestors are
`refs`. -/
def targetOf (refs : References N κ) : Option (MemberReference N κ) :=
  refs.foldl (fun old r => some (newTarget old r)) none

omit [DecidableEq N] in
theorem targetOf_append (refs : References N κ) (r : MemberReference N κ) :
    targetOf (refs ++ [r]) = some (newTarget (targetOf refs) r) := by
  simp [targetOf, foldl_append]

omit [DecidableEq N] in
/-- The nearest concrete reference is the target. -/
theorem targetOf_eq_some {t : MemberReference N κ}
    (h : (refs.reverse.find? fun r => !r.isAbstract) = some t) : targetOf refs = some t := by
  induction refs using reverseRecOn with
  | nil => cases h
  | append_singleton refs r ih =>
    rw [reverse_append, reverse_singleton, singleton_append] at h
    rw [targetOf_append]
    rcases hr : r.isAbstract with _ | _
    · rw [find?_cons_of_pos (by simp [hr])] at h
      simpa [newTarget, hr] using h
    · rw [find?_cons_of_neg (by simp [hr])] at h
      simp [newTarget, hr, ih h]

omit [DecidableEq N] in
theorem mem_of_targetOf {t : MemberReference N κ} (h : targetOf refs = some t) : t ∈ refs := by
  induction refs using reverseRecOn generalizing t with
  | nil => cases h
  | append_singleton refs r ih =>
    rw [targetOf_append] at h
    obtain rfl := Option.some.inj h
    unfold newTarget
    split
    · cases hold : targetOf refs with
      | none => simp
      | some old => exact mem_append_left _ (ih hold)
    · simp

omit [DecidableEq N] in
theorem targetOf_isSome (h : refs ≠ []) : ∃ t, targetOf refs = some t := by
  induction refs using reverseRecOn with
  | nil => exact absurd rfl h
  | append_singleton init r => exact ⟨_, targetOf_append init r⟩

end Fold

end Dart2Wasm.DispatchTable
