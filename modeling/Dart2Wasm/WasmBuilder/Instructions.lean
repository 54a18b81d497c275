import Dart2Wasm.Lib.Run
import Dart2Wasm.WasmBuilder.Types

/-!
# WasmBuilder.Instructions — the on-the-fly validation of an instruction sequence

The class `Instructions` of `wasm_builder/lib/src/instructions.dart`. Every instruction method
checks the types on a model of the operand stack before it emits the instruction; the control
instructions maintain a stack of labels with the height at which each block was entered, and a
flag that turns the checks off where the code cannot be reached.

Both stacks are lists with the top first. The parameter and result lists of instructions and
blocks are in the order of the source, with the top of the stack last. A label is an object in the
source; a caller only holds labels that `block`, `loop` or `if_` returned, and these are told apart
by their ordinal.
-/

namespace Dart2Wasm.WasmBuilder

open Lib (checkAll)

/-! ## Instructions -/

/-- One of the numeric instructions, each of which takes and returns number types only. -/
structure NumericOp where
  opcode : Nat
  inputs : List NumTypeKind
  output : NumTypeKind
  deriving DecidableEq

/-- The instructions whose stack effect does not depend on the stack or on the labels. -/
inductive PlainInstr
  | nop
  | call (function : Nat)
  | select (type : ValueType)
  | localGet (index : Nat)
  | localSet (index : Nat)
  | localTee (index : Nat)
  | const (kind : NumTypeKind) (value : Int)
  | numeric (op : NumericOp)
  | structGet (structType : DefTypeId) (fieldIndex : Nat)
  | structSet (structType : DefTypeId) (fieldIndex : Nat)
  deriving DecidableEq

/-- An instruction whose branch targets are given by `L`: the ordinals of labels in a call of an
instruction method, relative label indices in the emitted code. -/
inductive Instr (L : Type)
  | plain (instr : PlainInstr)
  | unreachable
  | drop
  | callRef
  | return_
  | block (inputs outputs : List ValueType)
  | loop (inputs outputs : List ValueType)
  | if_ (inputs outputs : List ValueType)
  | else_
  | end_
  | br (label : L)
  | brIf (label : L)
  | brTable (labels : List L) (defaultLabel : L)
  | brOnNull (label : L)
  | brOnNonNull (label : L)
  deriving DecidableEq

abbrev InstrCall := Instr Nat

/-! ## The state of the validator -/

inductive LabelKind
  | expression
  | block
  | loop
  | if_ (hasElse : Bool)
  deriving DecidableEq

structure Label where
  kind : LabelKind
  inputs : List ValueType
  outputs : List ValueType
  ordinal : Option Nat
  depth : Nat
  baseStackHeight : Int
  reachable : Bool
  deriving DecidableEq

/-- The types a branch to the label takes. -/
def Label.targetTypes (l : Label) : List ValueType :=
  match l.kind with
  | .loop => l.inputs
  | _ => l.outputs

def Label.expression (outputs : List ValueType) : Label where
  kind := .expression
  inputs := []
  outputs := outputs
  ordinal := none
  depth := 0
  baseStackHeight := 0
  reachable := true

structure ValidatorState where
  labelCount : Nat
  labelStack : List Label
  stackTypes : List ValueType
  reachable : Bool
  deriving DecidableEq

/-- What the instruction sequence belongs to: the types and the functions of the module, the locals
in scope and the outputs. The subtype test runs on `fuel`. -/
structure InstrContext where
  types : TypeTable
  functions : List DefTypeId
  locals : List ValueType
  outputs : List ValueType
  fuel : Nat

def ValidatorState.initial (outputs : List ValueType) : ValidatorState where
  labelCount := 0
  labelStack := [Label.expression outputs]
  stackTypes := []
  reachable := true

inductive Failure
  | stackUnderflow
  | labelStackUnderflow
  | baseUnderflow
  | targetUnderflow
  | typeMismatch (expected stack : List ValueType)
  | incorrectHeight (expected : Int) (actual : Nat)
  | unexpectedElse
  | duplicateElse
  | expectedFunctionType (type : ValueType)
  /-- A plain assertion fails, or a list is indexed out of range. -/
  | assertion
  /-- The subtype test does not return. -/
  | unfinished
  deriving DecidableEq

namespace InstrContext

def kind? (ctx : InstrContext) (d : DefTypeId) : Option DefKind :=
  (ctx.types[d]?).map DefType.kind

def functionType? (ctx : InstrContext) (d : DefTypeId) : Option (List ValueType × List ValueType) :=
  match ctx.kind? d with
  | some (.function inputs outputs) => some (inputs, outputs)
  | _ => none

def fieldType? (ctx : InstrContext) (d : DefTypeId) (i : Nat) : Option FieldType :=
  match ctx.kind? d with
  | some (.struct _ fields) => fields[i]?
  | _ => none

/-- The inputs and outputs that the method of the instruction hands to `_verifyTypes`; `none` where
its assertion fails or its operand does not exist. -/
def signature (ctx : InstrContext) : PlainInstr → Option (List ValueType × List ValueType)
  | .nop => some ([], [])
  | .call f => (ctx.functions[f]?).bind ctx.functionType?
  | .select t => some ([t, t, .i32], [t])
  | .localGet x => (ctx.locals[x]?).map fun t => ([], [t])
  | .localSet x => (ctx.locals[x]?).map fun t => ([t], [])
  | .localTee x => (ctx.locals[x]?).map fun t => ([t], [t])
  | .const .i32 value =>
    if -2147483648 ≤ value ∧ value < 2147483648 then some ([], [.i32]) else none
  | .const .v128 _ => none
  | .const kind _ => some ([], [.num kind])
  | .numeric op => some (op.inputs.map .num, [.num op.output])
  | .structGet d i =>
    match ctx.fieldType? d i with
    | some ⟨.value t, _⟩ => some ([.ref (.defined d) true], [t])
    | _ => none
  | .structSet d i =>
    (ctx.fieldType? d i).map fun f => ([.ref (.defined d) true, f.type.unpacked], [])

end InstrContext

/-! ## The checks -/

namespace ValidatorState

def topOfStack (s : ValidatorState) : Except Failure ValueType :=
  if s.reachable then
    match s.stackTypes with
    | [] => .error .stackUnderflow
    | t :: _ => .ok t
  else .ok (.ref .any true)

def topOfLabelStack (s : ValidatorState) : Except Failure Label :=
  match s.labelStack with
  | [] => .error .labelStackUnderflow
  | l :: _ => .ok l

/-- Both lists have the top of the stack first. -/
def checkStackTypes (ctx : InstrContext) (inputs stack : List ValueType) : Except Failure Unit :=
  if stack.length < inputs.length then .error .stackUnderflow
  else
    match checkAll (fun p : ValueType × ValueType => p.1.isSubtypeOf ctx.types ctx.fuel p.2)
        (stack.zip inputs) with
    | some true => .ok ()
    | some false => .error (.typeMismatch inputs stack)
    | none => .error .unfinished

def verifyTypes (ctx : InstrContext) (s : ValidatorState) (inputs outputs : List ValueType) :
    Except Failure ValidatorState :=
  if s.reachable then do
    let label ← s.topOfLabelStack
    if (s.stackTypes.length : Int) - inputs.length < label.baseStackHeight then
      .error .baseUnderflow
    else do
      checkStackTypes ctx inputs.reverse (s.stackTypes.take inputs.length)
      .ok { s with stackTypes := outputs.reverse ++ s.stackTypes.drop inputs.length }
  else .ok s

/-- The stack that a branch would take its operands from: `popped` operands less than the current
one, and then `pushed`. Only the base height of the target is compared. -/
def verifyBranchTypes (ctx : InstrContext) (s : ValidatorState) (label : Label) (popped : Nat)
    (pushed : List ValueType) : Except Failure Unit :=
  if s.reachable then
    let inputs := label.targetTypes
    if (s.stackTypes.length : Int) - popped + pushed.length - inputs.length
        < label.baseStackHeight then
      .error .targetUnderflow
    else
      checkStackTypes ctx inputs.reverse
        ((pushed.reverse ++ s.stackTypes.drop popped).take inputs.length)
  else .ok ()

/-- The first half of `_verifyEndOfBlock`: the operands of the innermost block are its results. -/
def checkResults (ctx : InstrContext) (s : ValidatorState) (label : Label) : Except Failure Unit :=
  if s.reachable then
    if (s.stackTypes.length : Int) ≠ label.baseStackHeight + label.outputs.length then
      .error (.incorrectHeight (label.baseStackHeight + label.outputs.length) s.stackTypes.length)
    else checkStackTypes ctx label.outputs.reverse (s.stackTypes.take label.outputs.length)
  else .ok ()

/-- The second half: the code that follows finds `outputs` on top of the stack with which the block
was entered. -/
def rewindTo (s : ValidatorState) (label : Label) (outputs : List ValueType) :
    Except Failure ValidatorState :=
  if label.reachable then
    if (s.stackTypes.length : Int) < label.baseStackHeight then .error .assertion
    else
      .ok { s with
        stackTypes := outputs.reverse ++
          s.stackTypes.drop (s.stackTypes.length - label.baseStackHeight.toNat) }
  else .ok s

def verifyEndOfBlock (ctx : InstrContext) (s : ValidatorState) (label : Label)
    (outputs : List ValueType) : Except Failure ValidatorState := do
  s.checkResults ctx label
  s.rewindTo label outputs

def beginBlock (ctx : InstrContext) (s : ValidatorState) (kind : LabelKind)
    (inputs outputs : List ValueType) : Except Failure ValidatorState := do
  let s ← s.verifyTypes ctx inputs inputs
  let label : Label :=
    { kind := kind
      inputs := inputs
      outputs := outputs
      ordinal := some (s.labelCount + 1)
      depth := s.labelStack.length
      baseStackHeight := (s.stackTypes.length : Int) - inputs.length
      reachable := s.reachable }
  .ok { s with labelCount := s.labelCount + 1, labelStack := label :: s.labelStack }

/-- The label with the given ordinal. A label that is not on the stack fails the assertion of
`_labelIndex`. -/
def findLabel (s : ValidatorState) (ordinal : Nat) : Except Failure Label :=
  match s.labelStack.find? fun l => l.ordinal == some ordinal with
  | some l => .ok l
  | none => .error .assertion

def labelIndex (s : ValidatorState) (label : Label) : Nat :=
  s.labelStack.length - label.depth - 1

def verifyCallRef (ctx : InstrContext) (s : ValidatorState) : Except Failure ValidatorState :=
  if s.reachable then do
    let fn ← s.topOfStack
    match fn with
    | .ref (.defined d) _ =>
      match ctx.functionType? d with
      | some (inputs, outputs) => s.verifyTypes ctx (inputs ++ [fn]) outputs
      | none => .error (.expectedFunctionType fn)
    | _ => .error (.expectedFunctionType fn)
  else .ok s

/-! ## The instruction methods -/

/-- The state after an instruction method has been called, and the instruction it emits. -/
def verify (ctx : InstrContext) (s : ValidatorState) :
    InstrCall → Except Failure (ValidatorState × Instr Nat)
  | .plain p =>
    match ctx.signature p with
    | none => .error .assertion
    | some (inputs, outputs) => do
      let s ← s.verifyTypes ctx inputs outputs
      .ok (s, .plain p)
  | .unreachable => do
    let s ← s.verifyTypes ctx [] []
    .ok ({ s with reachable := false }, .unreachable)
  | .drop => do
    let top ← s.topOfStack
    let s ← s.verifyTypes ctx [top] []
    .ok (s, .drop)
  | .callRef => do
    let s ← s.verifyCallRef ctx
    .ok (s, .callRef)
  | .return_ =>
    match s.labelStack.getLast? with
    | none => .error .assertion
    | some expression => do
      let s ← s.verifyTypes ctx expression.outputs []
      .ok ({ s with reachable := false }, .return_)
  | .block inputs outputs => do
    let s ← s.beginBlock ctx .block inputs outputs
    .ok (s, .block inputs outputs)
  | .loop inputs outputs => do
    let s ← s.beginBlock ctx .loop inputs outputs
    .ok (s, .loop inputs outputs)
  | .if_ inputs outputs => do
    let s ← s.verifyTypes ctx [.i32] []
    let s ← s.beginBlock ctx (.if_ false) inputs outputs
    .ok (s, .if_ inputs outputs)
  | .else_ => do
    let label ← s.topOfLabelStack
    match label.kind with
    | .if_ false => do
      let s ← s.verifyEndOfBlock ctx label label.inputs
      .ok ({ s with
        labelStack := { label with kind := .if_ true } :: s.labelStack.tail
        reachable := label.reachable }, .else_)
    | .if_ true => .error .duplicateElse
    | _ => .error .unexpectedElse
  | .end_ => do
    let label ← s.topOfLabelStack
    let s ← s.verifyEndOfBlock ctx label label.outputs
    .ok ({ s with labelStack := s.labelStack.tail, reachable := label.reachable }, .end_)
  | .br l => do
    let label ← s.findLabel l
    let s ← s.verifyTypes ctx [] []
    s.verifyBranchTypes ctx label 0 []
    .ok ({ s with reachable := false }, .br (s.labelIndex label))
  | .brIf l => do
    let label ← s.findLabel l
    let s ← s.verifyTypes ctx [.i32] []
    s.verifyBranchTypes ctx label 0 []
    .ok (s, .brIf (s.labelIndex label))
  | .brTable ls l => do
    let labels ← ls.mapM s.findLabel
    let label ← s.findLabel l
    let s ← s.verifyTypes ctx [.i32] []
    (labels ++ [label]).forM fun label => s.verifyBranchTypes ctx label 0 []
    .ok ({ s with reachable := false },
      .brTable (labels.map s.labelIndex) (s.labelIndex label))
  | .brOnNull l => do
    let label ← s.findLabel l
    let top ← s.topOfStack
    let s ← s.verifyTypes ctx [.ref .any true] [top.withNullability false]
    s.verifyBranchTypes ctx label 1 []
    .ok (s, .brOnNull (s.labelIndex label))
  | .brOnNonNull l => do
    let label ← s.findLabel l
    let top ← s.topOfStack
    s.verifyBranchTypes ctx label 1 [top.withNullability false]
    let s ← s.verifyTypes ctx [.ref .any true] []
    .ok (s, .brOnNonNull (s.labelIndex label))

end ValidatorState

/-- An instruction sequence under construction. -/
structure Instructions where
  state : ValidatorState
  code : List (Instr Nat)
  deriving DecidableEq

namespace Instructions

def initial (ctx : InstrContext) : Instructions :=
  ⟨.initial ctx.outputs, []⟩

def isComplete (b : Instructions) : Bool :=
  b.state.labelStack.isEmpty

def step (ctx : InstrContext) (b : Instructions) (c : InstrCall) : Except Failure Instructions := do
  let (state, instr) ← b.state.verify ctx c
  .ok ⟨state, b.code ++ [instr]⟩

end Instructions

end Dart2Wasm.WasmBuilder
