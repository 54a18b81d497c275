import Mathlib.Data.Finset.Basic

/-!
# TypeFlow.WorkList — invalidation and re-processing of invocations

The analysis computes one result type for every invocation. Processing an
invocation asks the work list for the results of other invocations, reads and
writes field values and sets of allocated classes, and records itself with
everything it read, so that it is processed again when something it read
changes. This module has the bookkeeping of `_DependencyTracker`,
`_Invocation` and `_WorkList`; what the invocations themselves do is the
parameter of the model, a `Program` of requests to the work list.
-/

namespace Dart2Wasm.TypeFlow.WorkList

/-! ## What an invocation asks for -/

/-- The processing of one invocation, as the requests it makes in order. The type variables are the
invocations, the tracked cells (field values, allocated subtypes of a class, targets of a dynamic
selector), what a cell holds, and the result types. -/
inductive Program (ι γ ν τ : Type) where
  /-- The result of `process`. -/
  | done (type : τ)
  /-- A call whose result is used. `applyCall` records the dependency before it processes the
  callee; `_DispatchableInvocation.process` and `_processNoSuchMethod` do so afterwards. -/
  | call (registerFirst : Bool) (invocation : ι) (next : τ → Program ι γ ν τ)
  /-- A call with `isResultUsed: false`, and the initializer of a field. -/
  | perform (invocation : ι) (next : Program ι γ ν τ)
  /-- A call with `processImmediately: false`. -/
  | enqueue (invocation : ι) (next : Program ι γ ν τ)
  | read (cell : γ) (next : ν → Program ι γ ν τ)
  | write (cell : γ) (update : ν → ν) (next : Program ι γ ν τ)
  /-- `_monomorphicDirectInvocation = direct`, unless already polymorphic. -/
  | setMonomorphic (direct : ι) (next : Program ι γ ν τ)
  | setPolymorphic (next : Program ι γ ν τ)

/-- What a recursive invocation was answered with. -/
inductive Answer where
  /-- The result of its `_monomorphicDirectInvocation`. -/
  | monomorphic
  /-- Its static return type. -/
  | static
  deriving DecidableEq

/-- The invocations of a program under analysis. -/
structure Analysis (ι γ ν τ : Type) where
  program : ι → Program ι γ ν τ
  /-- `summary.result`, where it is a type and not a statement of the summary. -/
  summaryResult : ι → Option τ
  staticReturnType : ι → τ
  union : τ → τ → τ

/-- The fields of the invocations and of the work list. -/
structure State (ι γ ν τ : Type) where
  result : ι → Option τ
  invalidatedResult : ι → Option τ
  invalidationCounter : ι → Nat
  dependentInvocations : ι → List ι
  isPolymorphic : ι → Bool
  monomorphicDirectInvocation : ι → Option ι
  value : γ → ν
  dependentsOfCell : γ → List ι
  pending : List ι
  processing : Finset ι
  callStack : List ι
  /-- Every recursive invocation so far with what it was answered with; the
  program keeps only a counter. -/
  recursive : List (ι × Answer)

/-- `_Invocation.invalidationLimit`. -/
def invalidationLimit : Nat := 1000

def kMaxCallsInCallStack : Nat := 500

variable {ι γ ν τ : Type} [DecidableEq ι] [DecidableEq γ] [DecidableEq ν] [DecidableEq τ]

namespace State

/-- The work list before `process`: some invocations are pending, no invocation
has a result. -/
def initial (pending : List ι) (value : γ → ν) : State ι γ ν τ where
  result _ := none
  invalidatedResult _ := none
  invalidationCounter _ := 0
  dependentInvocations _ := []
  isPolymorphic _ := false
  monomorphicDirectInvocation _ := none
  value := value
  dependentsOfCell _ := []
  pending := pending
  processing := ∅
  callStack := []
  recursive := []

/-! ## Dependencies -/

/-- `Set.add`. -/
def addTo (invocations : List ι) (invocation : ι) : List ι :=
  if invocation ∈ invocations then invocations else invocations ++ [invocation]

def addDependentInvocation (s : State ι γ ν τ) (tracker invocation : ι) : State ι γ ν τ :=
  if invocation = tracker then s
  else
    { s with
      dependentInvocations := Function.update s.dependentInvocations tracker
        (addTo (s.dependentInvocations tracker) invocation) }

/-- `addDependentInvocation` of a cell. -/
def addDependentOfCell (s : State ι γ ν τ) (cell : γ) (invocation : ι) : State ι γ ν τ :=
  { s with
    dependentsOfCell := Function.update s.dependentsOfCell cell
      (addTo (s.dependentsOfCell cell) invocation) }

/-- `enqueueInvocation`: to the tail of the queue, also if already pending. -/
def enqueueInvocation (s : State ι γ ν τ) (invocation : ι) : State ι γ ν τ :=
  { s with pending := s.pending.filter (· ≠ invocation) ++ [invocation] }

def invalidateInvocation (s : State ι γ ν τ) (invocation : ι) : State ι γ ν τ :=
  match s.result invocation with
  | some result =>
    enqueueInvocation
      { s with
        invalidatedResult := Function.update s.invalidatedResult invocation (some result)
        result := Function.update s.result invocation none }
      invocation
  | none => enqueueInvocation s invocation

/-- `invalidateDependentInvocations`. -/
def invalidateAll (s : State ι γ ν τ) (dependents : List ι) : State ι γ ν τ :=
  dependents.foldl invalidateInvocation s

/-- `setValue` of a cell: the dependents are invalidated if the value changes. -/
def setValue (s : State ι γ ν τ) (cell : γ) (newValue : ν) : State ι γ ν τ :=
  if newValue ≠ s.value cell then
    { invalidateAll s (s.dependentsOfCell cell) with
      value := Function.update s.value cell newValue }
  else s

end State

/-! ## Processing -/

namespace Analysis

def setResult (A : Analysis ι γ ν τ) (s : State ι γ ν τ) (invocation : ι) (type : τ) :
    State ι γ ν τ :=
  let s := { s with result := Function.update s.result invocation (some type) }
  match s.invalidatedResult invocation with
  | none => s
  | some invalidated =>
    let s :=
      if invalidated ≠ type then
        let s := s.invalidateAll (s.dependentInvocations invocation)
        let counter := s.invalidationCounter invocation + 1
        let s := { s with
          invalidationCounter := Function.update s.invalidationCounter invocation counter }
        if counter > invalidationLimit then
          { s with
            result := Function.update s.result invocation
              (some (A.union type invalidated)) }
        else s
      else s
    { s with invalidatedResult := Function.update s.invalidatedResult invocation none }

/-- `process` of the invocation `self`, where `processInvocation` answers the
calls it makes. -/
def perform (processInvocation : State ι γ ν τ → ι → Option (State ι γ ν τ × τ)) (self : ι) :
    Program ι γ ν τ → State ι γ ν τ → Option (State ι γ ν τ × τ)
  | .done type, s => some (s, type)
  | .call registerFirst invocation next, s =>
    if registerFirst then do
      let (s, type) ← processInvocation (s.addDependentInvocation invocation self) invocation
      perform processInvocation self (next type) s
    else do
      let (s, type) ← processInvocation s invocation
      perform processInvocation self (next type) (s.addDependentInvocation invocation self)
  | .perform invocation next, s => do
    let (s, _) ← processInvocation s invocation
    perform processInvocation self next s
  | .enqueue invocation next, s =>
    perform processInvocation self next
      (if s.result invocation = none then s.enqueueInvocation invocation else s)
  | .read cell next, s =>
    perform processInvocation self (next (s.value cell)) (s.addDependentOfCell cell self)
  | .write cell update next, s =>
    perform processInvocation self next (s.setValue cell (update (s.value cell)))
  | .setMonomorphic direct next, s =>
    perform processInvocation self next
      (if s.isPolymorphic self then s
      else
        { s with
          monomorphicDirectInvocation :=
            Function.update s.monomorphicDirectInvocation self (some direct) })
  | .setPolymorphic next, s =>
    perform processInvocation self next
      { s with isPolymorphic := Function.update s.isPolymorphic self true }

/-- The answer to a recursive invocation without a result:
`resultForRecursiveInvocation`, or the static type. -/
def answerRecursive (A : Analysis ι γ ν τ) (s : State ι γ ν τ) (invocation : ι) :
    State ι γ ν τ × τ :=
  match (s.monomorphicDirectInvocation invocation).bind s.result with
  | some result =>
    ({ s with recursive := (invocation, .monomorphic) :: s.recursive }, result)
  | none =>
    ({ s with recursive := (invocation, .static) :: s.recursive },
      A.staticReturnType invocation)

/-- An invocation met at a deep call stack keeps its invalidated result, or the
empty type, and is left for later. -/
def defer [Bot τ] (s : State ι γ ν τ) (invocation : ι) : Option (State ι γ ν τ × τ) :=
  let s :=
    if s.invalidatedResult invocation = none then
      { s with result := Function.update s.result invocation (some ⊥) }
    else s
  let s := s.invalidateInvocation invocation
  (s.invalidatedResult invocation).map fun result => (s, result)

/-- The invocation goes on the call stack and off the pending list. A result
known upfront is set before the summary is applied. -/
def begin (A : Analysis ι γ ν τ) (s : State ι γ ν τ) (invocation : ι) : State ι γ ν τ :=
  let s := { s with
    processing := insert invocation s.processing
    callStack := s.callStack ++ [invocation]
    pending := s.pending.filter (· ≠ invocation) }
  match A.summaryResult invocation with
  | some summaryResult =>
    if invocation ∈ s.pending then s else A.setResult s invocation summaryResult
  | none => s

/-- The result is stored. If the invocation was invalidated while it was
processed, the result counts as an invalidated one. -/
def complete (A : Analysis ι γ ν τ) (s : State ι γ ν τ) (invocation : ι) (type : τ) :
    Option (State ι γ ν τ × τ) :=
  let s := A.setResult s invocation type
  (s.result invocation).map fun result =>
    let s :=
      if invocation ∈ s.pending then
        { s with
          invalidatedResult := Function.update s.invalidatedResult invocation (some result)
          result := Function.update s.result invocation none }
      else s
    ({ s with
      callStack := s.callStack.dropLast
      processing := s.processing.erase invocation }, result)

/-- `processInvocation`; the first argument bounds the depth of the recursion. -/
def processInvocation [Bot τ] (A : Analysis ι γ ν τ) :
    Nat → State ι γ ν τ → ι → Option (State ι γ ν τ × τ)
  | 0, _, _ => none
  | fuel + 1, s, invocation =>
    match s.result invocation with
    | some result => some (s, result)
    | none =>
      if invocation ∈ s.processing then
        some (A.answerRecursive s invocation)
      else if s.callStack.length > kMaxCallsInCallStack then
        defer s invocation
      else do
        let (s, type) ← perform (processInvocation A fuel) invocation
          (A.program invocation) (A.begin s invocation)
        A.complete s invocation type

/-- `process` without a protobuf handler: until nothing is pending. -/
def process [Bot τ] (A : Analysis ι γ ν τ) (depth : Nat) :
    Nat → State ι γ ν τ → Option (State ι γ ν τ)
  | 0, _ => none
  | fuel + 1, s =>
    match s.pending with
    | [] => some s
    | invocation :: _ => do
      let (s, _) ← A.processInvocation depth s invocation
      A.process depth fuel s

end Analysis

end Dart2Wasm.TypeFlow.WorkList
