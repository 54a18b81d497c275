import Dart2Wasm.WasmBuilder.Instructions
import Dart2Wasm.WasmBuilder.Subtyping

/-!
# WasmBuilder.Execution — what an emitted instruction sequence does

A machine for the flat code that the instruction methods emit. Entering a block pushes a frame
which keeps the operands of the enclosing block out of reach; a branch takes its operands from the
current block only and unwinds the frames up to its target. The machine is `stuck` where the
WebAssembly semantics has no rule: an operand is missing in the current block or has the wrong
shape. Null references and `unreachable` trap, which is a defined outcome.
-/

namespace Dart2Wasm.WasmBuilder

/-! ## Values and configurations -/

/-- A reference that is not null carries its exact heap type: struct objects are found at their
address in the heap, functions are told apart by theirs. -/
inductive Val
  | num (kind : NumTypeKind) (value : Int)
  | rtt (defType : DefTypeId) (depth : Option Nat)
  | null
  | ref (type : HeapType) (address : Nat)
  deriving DecidableEq

structure StructObject where
  type : DefTypeId
  fields : List Val
  deriving DecidableEq

abbrev Heap := List StructObject

/-- A block that has been entered: the types a branch to it takes, its result types, its body if it
is a loop, the code after its `end`, and the operands of the enclosing block. -/
structure Frame where
  targetTypes : List ValueType
  results : List ValueType
  loopBody : Option (List (Instr Nat))
  continuation : List (Instr Nat)
  below : List Val
  deriving DecidableEq

/-- The operands of the current block have the top of the stack first, the frames the innermost. -/
structure Config where
  code : List (Instr Nat)
  stack : List Val
  frames : List Frame
  locals : List Val
  heap : Heap
  deriving DecidableEq

inductive StepResult
  | running (config : Config)
  | finished (values : List Val) (heap : Heap)
  | trap
  | stuck
  deriving DecidableEq

/-- What the rest of the program does: the functions that can be called, by type and address, and
the numeric operations. Arguments and results have the top first; a call that traps or does not
return has no result. -/
structure Environment where
  invoke : DefTypeId → Nat → List Val → Heap → Option (List Val × Heap)
  numeric : NumericOp → List Val → Int

/-! ## Block structure of flat code -/

/-- How an instruction affects the nesting of blocks. -/
inductive Nesting
  | straight
  | opens
  | separates
  | closes
  deriving DecidableEq

def Instr.nesting : Instr Nat → Nesting
  | .block _ _ => .opens
  | .loop _ _ => .opens
  | .if_ _ _ => .opens
  | .else_ => .separates
  | .end_ => .closes
  | _ => .straight

/-- The code after the `end` that closes the block which is open `depth` levels further out. -/
def afterEnd (depth : Nat) : List (Instr Nat) → List (Instr Nat)
  | [] => []
  | i :: code =>
    match i.nesting with
    | .straight => afterEnd depth code
    | .opens => afterEnd (depth + 1) code
    | .separates => afterEnd depth code
    | .closes =>
      match depth with
      | 0 => code
      | depth + 1 => afterEnd depth code

/-- The code after the `else` of that block, if it has one. -/
def afterElse (depth : Nat) : List (Instr Nat) → Option (List (Instr Nat))
  | [] => none
  | i :: code =>
    match i.nesting with
    | .straight => afterElse depth code
    | .opens => afterElse (depth + 1) code
    | .separates => if depth = 0 then some code else afterElse depth code
    | .closes =>
      match depth with
      | 0 => none
      | depth + 1 => afterElse depth code

/-! ## The machine -/

inductive PlainResult
  | values (results locals : List Val) (heap : Heap)
  | trap
  | stuck
  deriving DecidableEq

/-- The effect of a plain instruction on operands that have been taken from the stack. -/
def PlainInstr.exec (ctx : InstrContext) (env : Environment) (locals : List Val) (heap : Heap) :
    PlainInstr → List Val → PlainResult
  | .nop, _ => .values [] locals heap
  | .call f, args =>
    match ctx.functions[f]? with
    | none => .stuck
    | some d =>
      match env.invoke d f args heap with
      | none => .trap
      | some (results, heap') => .values results locals heap'
  | .select _, [.num .i32 c, second, first] =>
    .values [if c = 0 then second else first] locals heap
  | .localGet x, _ =>
    match locals[x]? with
    | none => .stuck
    | some v => .values [v] locals heap
  | .localSet x, [v] => .values [] (locals.set x v) heap
  | .localTee x, [v] => .values [v] (locals.set x v) heap
  | .const kind value, _ => .values [.num kind value] locals heap
  | .numeric op, args => .values [.num op.output (env.numeric op args)] locals heap
  | .structGet _ _, [.null] => .trap
  | .structGet _ i, [.ref _ a] =>
    match (heap[a]?).bind fun object => object.fields[i]? with
    | none => .stuck
    | some v => .values [v] locals heap
  | .structSet _ _, [_, .null] => .trap
  | .structSet _ i, [v, .ref _ a] =>
    match heap[a]? with
    | none => .stuck
    | some object =>
      .values [] locals (heap.set a { object with fields := object.fields.set i v })
  | _, _ => .stuck

/-- The frame of a block or an `if`, whose label is at its `end`; `code` follows its start. -/
def blockFrame (outputs : List ValueType) (code : List (Instr Nat)) (below : List Val) : Frame :=
  ⟨outputs, outputs, none, afterEnd 0 code, below⟩

/-- The frame of a loop, whose label is at its start. -/
def loopFrame (inputs outputs : List ValueType) (code : List (Instr Nat)) (below : List Val) :
    Frame :=
  ⟨inputs, outputs, some code, afterEnd 0 code, below⟩

namespace Config

/-- Enter a block with the topmost operands as its parameters. -/
def enter (c : Config) (body : List (Instr Nat)) (inputs : List ValueType) (operands : List Val)
    (frame : List Val → Frame) : StepResult :=
  if operands.length < inputs.length then .stuck
  else
    .running { c with
      code := body
      stack := operands.take inputs.length
      frames := frame (operands.drop inputs.length) :: c.frames }

/-- Leave the innermost block with all its operands as results. -/
def leave (c : Config) (f : Frame) (frames : List Frame) (next : List (Instr Nat)) : StepResult :=
  if c.stack.length = f.results.length then
    .running { c with code := next, stack := c.stack ++ f.below, frames := frames }
  else .stuck

/-- Branch to the block that is `k` levels further out. -/
def branch (c : Config) (k : Nat) (operands : List Val) : StepResult :=
  match c.frames[k]? with
  | none => .stuck
  | some f =>
    if operands.length < f.targetTypes.length then .stuck
    else
      match f.loopBody with
      | none =>
        .running { c with
          code := f.continuation
          stack := operands.take f.targetTypes.length ++ f.below
          frames := c.frames.drop (k + 1) }
      | some body =>
        .running { c with
          code := body
          stack := operands.take f.targetTypes.length
          frames := c.frames.drop k }

def step (ctx : InstrContext) (env : Environment) (c : Config) : StepResult :=
  match c.code with
  | [] => .stuck
  | .plain p :: code =>
    match ctx.signature p with
    | none => .stuck
    | some (inputs, _) =>
      if c.stack.length < inputs.length then .stuck
      else
        match p.exec ctx env c.locals c.heap (c.stack.take inputs.length) with
        | .values results locals heap =>
          .running ⟨code, results ++ c.stack.drop inputs.length, c.frames, locals, heap⟩
        | .trap => .trap
        | .stuck => .stuck
  | .unreachable :: _ => .trap
  | .drop :: code =>
    match c.stack with
    | [] => .stuck
    | _ :: stack => .running { c with code := code, stack := stack }
  | .callRef :: code =>
    match c.stack with
    | .null :: _ => .trap
    | .ref (.defined d) a :: stack =>
      match ctx.functionType? d with
      | none => .stuck
      | some (inputs, _) =>
        if stack.length < inputs.length then .stuck
        else
          match env.invoke d a (stack.take inputs.length) c.heap with
          | none => .trap
          | some (results, heap) =>
            .running ⟨code, results ++ stack.drop inputs.length, c.frames, c.locals, heap⟩
    | _ => .stuck
  | .return_ :: _ =>
    if c.stack.length < ctx.outputs.length then .stuck
    else .finished (c.stack.take ctx.outputs.length) c.heap
  | .block inputs outputs :: code => c.enter code inputs c.stack (blockFrame outputs code)
  | .loop inputs outputs :: code => c.enter code inputs c.stack (loopFrame inputs outputs code)
  | .if_ inputs outputs :: code =>
    match c.stack with
    | .num .i32 condition :: stack =>
      if condition ≠ 0 then c.enter code inputs stack (blockFrame outputs code)
      else
        match afterElse 0 code with
        | some code' => c.enter code' inputs stack (blockFrame outputs code)
        -- Without an `else` the parameters are the results.
        | none => .running { c with code := afterEnd 0 code, stack := stack }
    | _ => .stuck
  | .else_ :: _ =>
    match c.frames with
    | [] => .stuck
    | f :: frames => c.leave f frames f.continuation
  | .end_ :: code =>
    match c.frames with
    | [] => .finished c.stack c.heap
    | f :: frames => c.leave f frames code
  | .br k :: _ => c.branch k c.stack
  | .brIf k :: code =>
    match c.stack with
    | .num .i32 condition :: stack =>
      if condition ≠ 0 then c.branch k stack
      else .running { c with code := code, stack := stack }
    | _ => .stuck
  | .brTable ks k :: _ =>
    match c.stack with
    -- The operand is read as an unsigned number.
    | .num .i32 index :: stack => c.branch (ks.getD (index % 4294967296).toNat k) stack
    | _ => .stuck
  | .brOnNull k :: code =>
    match c.stack with
    | .null :: stack => c.branch k stack
    | .ref _ _ :: _ => .running { c with code := code }
    | _ => .stuck
  | .brOnNonNull k :: code =>
    match c.stack with
    | .null :: stack => .running { c with code := code, stack := stack }
    | .ref _ _ :: _ => c.branch k c.stack
    | _ => .stuck

def run (ctx : InstrContext) (env : Environment) : Nat → Config → StepResult
  | 0, c => .running c
  | n + 1, c =>
    match c.step ctx env with
    | .running c' => c'.run ctx env n
    | r => r

/-- The body of a function starts with an empty operand stack. -/
def initial (code : List (Instr Nat)) (locals : List Val) (heap : Heap) : Config :=
  ⟨code, [], [], locals, heap⟩

end Config

/-! ## Types of values -/

section Typing

variable (types : TypeTable) (heap : Heap)

/-- There is an object behind a reference to a struct. -/
def Allocated (h : HeapType) (address : Nat) : Prop :=
  ∀ d name fields, h = .defined d → (types[d]?).map DefType.kind = some (.struct name fields) →
    ∃ object, heap[address]? = some object ∧ object.type = d

inductive HasType : Val → ValueType → Prop
  | num (k : NumTypeKind) (value : Int) : HasType (.num k value) (.num k)
  | rtt {d : DefTypeId} {p : Option Nat} {t : ValueType} (h : ValueSub types (.rtt d p) t) :
      HasType (.rtt d p) t
  | null (h : HeapType) : HasType .null (.ref h true)
  | ref {h h' : HeapType} {address : Nat} {n : Bool} (hsub : HeapSub types h h')
      (halloc : Allocated types heap h address) : HasType (.ref h address) (.ref h' n)

abbrev HasTypes : List Val → List ValueType → Prop :=
  List.Forall₂ (HasType types heap)

/-- The topmost values have the types; both lists have the top of the stack first. -/
def Operands (stack : List Val) (required : List ValueType) : Prop :=
  ∃ vs rest, stack = vs ++ rest ∧ HasTypes types heap vs required

/-- Every object has the fields of its type, with values of their types. -/
def HeapTyped : Prop :=
  ∀ (a : Nat) object, heap[a]? = some object →
    ∃ name fields, (types[object.type]?).map DefType.kind = some (.struct name fields) ∧
      List.Forall₂ (fun v (f : FieldType) => HasType types heap v f.type.unpacked)
        object.fields fields

def HeapExtends (heap' : Heap) : Prop :=
  ∀ (a : Nat) object, heap[a]? = some object →
    ∃ object', heap'[a]? = some object' ∧ object'.type = object.type

end Typing

/-- Functions that are called with arguments of their input types return values of their output
types and leave a heap in which all objects still have their types. -/
def Environment.RespectsTypes (env : Environment) (ctx : InstrContext) : Prop :=
  ∀ d a inputs outputs args heap results heap', ctx.functionType? d = some (inputs, outputs) →
    HeapTyped ctx.types heap → HasTypes ctx.types heap args inputs.reverse →
    env.invoke d a args heap = some (results, heap') →
    HasTypes ctx.types heap' results outputs.reverse ∧ HeapTyped ctx.types heap' ∧
      HeapExtends heap heap'

/-- The next instruction finds its operands in the current block, with the types it requires: for a
branch the types of its target, for the end of a block exactly the results of the block. -/
def Config.OperandsPresent (ctx : InstrContext) (c : Config) : Prop :=
  match c.code with
  | [] => False
  | .plain p :: _ =>
    ∃ inputs outputs, ctx.signature p = some (inputs, outputs) ∧
      Operands ctx.types c.heap c.stack inputs.reverse
  | .unreachable :: _ => True
  | .drop :: _ => c.stack ≠ []
  | .callRef :: _ =>
    ∃ fn stack, c.stack = fn :: stack ∧
      (fn = .null ∨ ∃ d a inputs outputs, fn = .ref (.defined d) a ∧
        ctx.functionType? d = some (inputs, outputs) ∧
        Operands ctx.types c.heap stack inputs.reverse)
  | .return_ :: _ => Operands ctx.types c.heap c.stack ctx.outputs.reverse
  | .block inputs _ :: _ => Operands ctx.types c.heap c.stack inputs.reverse
  | .loop inputs _ :: _ => Operands ctx.types c.heap c.stack inputs.reverse
  | .if_ inputs _ :: _ => Operands ctx.types c.heap c.stack (.i32 :: inputs.reverse)
  | .else_ :: _ => ∃ f frames, c.frames = f :: frames ∧
      HasTypes ctx.types c.heap c.stack f.results.reverse
  | .end_ :: _ =>
    HasTypes ctx.types c.heap c.stack
      (match c.frames with
      | [] => ctx.outputs.reverse
      | f :: _ => f.results.reverse)
  | .br k :: _ => ∃ f, c.frames[k]? = some f ∧
      Operands ctx.types c.heap c.stack f.targetTypes.reverse
  | .brIf k :: _ => ∃ f, c.frames[k]? = some f ∧
      Operands ctx.types c.heap c.stack (.i32 :: f.targetTypes.reverse)
  | .brTable ks k :: _ => ∀ k' ∈ ks ++ [k], ∃ f, c.frames[k']? = some f ∧
      Operands ctx.types c.heap c.stack (.i32 :: f.targetTypes.reverse)
  | .brOnNull k :: _ => ∃ f, c.frames[k]? = some f ∧
      Operands ctx.types c.heap c.stack (.ref .any true :: f.targetTypes.reverse)
  | .brOnNonNull k :: _ => ∃ f, c.frames[k]? = some f ∧
      Operands ctx.types c.heap c.stack [.ref .any true] ∧
      (c.stack.head? ≠ some .null → Operands ctx.types c.heap c.stack f.targetTypes.reverse)

end Dart2Wasm.WasmBuilder
