import Dart2Wasm.CodeGenerator.Generate

/-!
# CodeGenerator.Switch — the translation of `switch`

`visitSwitchStatement` and `visitContinueSwitchStatement` of `dart2wasm/lib/code_generator.dart`.
The kind of comparison, and with it the representation of the value, is chosen by the constants of
the cases alone. The blocks of the cases are opened in reverse order, the last one inside of all is
left by a branch to the case that is selected, and each body is placed after the end of the block of
its case.

A body is any code that completes, continues with a later case, leaves the switch or returns.
-/

namespace Dart2Wasm.CodeGenerator.Switch

open Lib Code List

variable {O W B D : Type} [DecidableEq O]

/-! ## Switch statements -/

/-- The values that case constants and scrutinees can have. -/
inductive Value (O : Type)
  | null
  | bool (b : Bool)
  | int (i : Int)
  | string (s : String)
  | object (o : O)
  deriving DecidableEq

inductive Kind
  | bool
  | int
  | string
  | object
  deriving DecidableEq

def Value.kind? : Value O → Option Kind
  | .null => none
  | .bool _ => some .bool
  | .int _ => some .int
  | .string _ => some .string
  | .object _ => some .object

/-- The representation of the static type of the scrutinee: an unboxed bool or int, or a
reference. -/
inductive Scrutinee
  | bool
  | int
  | reference (nullable : Bool)
  deriving DecidableEq

def Scrutinee.isNullable : Scrutinee → Bool
  | .reference n => n
  | _ => false

structure Case (O : Type) where
  expressions : List (Value O)
  isDefault : Bool

/-- `check<L, C>()`: every constant has the kind or is null. -/
def check (cases : List (Case O)) (k : Kind) : Bool :=
  cases.all fun c => c.expressions.all fun e => e.kind? == some k || e.kind? == none

/-- The kind of the switch. In the last branch the check is an assertion. -/
def switchKind (cases : List (Case O)) : Option Kind :=
  if check cases .bool then some .bool
  else if check cases .int then some .int
  else if check cases .string then some .string
  else if check cases .object then some .object
  else none

/-- Whether `wrap(node.expression, type)` can be compiled for the types of the kind: there is no
conversion between number types, and a boxed number is no string. -/
def wrapFits : Scrutinee → Kind → Bool
  | .bool, k => k == .bool || k == .object
  | .int, k => k == .int || k == .object
  | .reference _, _ => true

/-- Whether a value passes the conversion to the types of the kind: references are below `eq`,
others are cast to a box or string. -/
def passes (k : Kind) (v : Value O) : Bool :=
  k == .object || v.kind? == some k || v.kind? == none

/-! ## Code -/

inductive SwitchInstr (O B : Type)
  /-- Evaluate the scrutinee and convert it for the kind. -/
  | value (k : Kind)
  /-- The test of `br_on_null`, which leaves the value. -/
  | isNull
  /-- Store a value that is not null. -/
  | setLocal
  /-- Compare the stored value with a constant. -/
  | compare (e : Value O)
  | body (b : B)

inductive Operand (O W : Type)
  | value (v : Value O)
  | flag (b : Bool)
  | other (w : W)

/-- The scrutinee and the instructions of the bodies. -/
structure Program (O W B D : Type) where
  eval : D → Option (Value O × D)
  act : B → List (Operand O W) → D → Option (List (Operand O W) × D)

/-- The store of the machine has the local of the switch beside the Dart state. -/
def Program.machine (P : Program O W B D) :
    Machine (SwitchInstr O B) (Operand O W) (D × Value O) where
  act
    | .value k, stack, s =>
      (P.eval s.1).bind fun r =>
        if passes k r.1 then some (.value r.1 :: stack, (r.2, s.2)) else none
    | .isNull, .value v :: stack, s => some (.flag (v = .null) :: .value v :: stack, s)
    | .setLocal, .value v :: stack, s => if v = .null then none else some (stack, (s.1, v))
    | .compare e, stack, s => some (.flag (e = s.2) :: stack, s)
    | .body b, stack, s => (P.act b stack s.1).map fun r => (r.1, (r.2, s.2))
    | _, _, _ => none
  test
    | .flag b => some b
    | _ => none

inductive Exit (V : Type)
  | completes
  | continueTo (c : Nat) (stack : List V)
  | leaves (label : Nat) (stack : List V)
  | returns (stack : List V)

/-- The end of a body as seen from inside of the switch, which is entered at height `base`. -/
def Exit.outcome {V : Type} (labels : Nat → Option Nat) (depth base : Nat) : Exit V → Outcome V
  | .completes => .normal []
  | .continueTo c stack => .branch (relative depth ((labels c).getD 0)) stack
  | .leaves label stack => .branch (depth - base + label) stack
  | .returns stack => .returned stack

/-- The end of a switch as seen from outside. -/
def Exit.outside {V : Type} (base : List V) : Exit V → Outcome V
  | .completes => .normal base
  | .continueTo _ stack => .branch 0 stack
  | .leaves label stack => .branch label stack
  | .returns stack => .returned stack

/-- The body of a case: the cases it continues with, its code for given labels of the cases, and its
meaning. -/
structure Body (P : Program O W B D) (fuel base : Nat) where
  targets : List Nat
  generate : (Nat → Option Nat) → Nat → Option (Code (SwitchInstr O B))
  run : D → Option (Exit (Operand O W) × D)
  continues : ∀ d c stack d', run d = some (.continueTo c stack, d') → c ∈ targets
  generates : ∀ labels depth, base ≤ depth →
    (∀ c ∈ targets, ∃ h, labels c = some h ∧ h < depth) →
    ∃ code, generate labels depth = some code ∧ ∀ d x, code.exec P.machine fuel [] (d, x) =
      (run d).map fun r => (r.1.outcome labels depth base, (r.2, x))

/-- The height of the label of a case; that of `doneLabel` for the number of cases. -/
def labelOf (base n c : Nat) : Nat :=
  base + (n - c)

/-- `switchLabels` while a body is emitted: the labels of the cases before it are removed. -/
def switchLabels (base n i : Nat) (c : Nat) : Option Nat :=
  if i < c ∧ c < n then some (labelOf base n c) else none

def compareCase (depth label : Nat) :
    List (Value O) → Code (SwitchInstr O B) → Code (SwitchInstr O B)
  | [], rest => rest
  | e :: es, rest =>
    if e = .null then compareCase depth label es rest
    else .seq (.act (.compare e)) (.seq (.brIf (relative depth label))
      (compareCase depth label es rest))

def compareCases (base n : Nat) :
    Nat → List (Case O) → Code (SwitchInstr O B) → Code (SwitchInstr O B)
  | _, [], rest => rest
  | i, c :: cs, rest =>
    compareCase (base + n + 1) (labelOf base n i) c.expressions
      (compareCases base n (i + 1) cs rest)

/-- The first case that is a default, or the number of cases. -/
def defaultCase (cases : List (Case O)) : Nat :=
  cases.findIdx fun c => c.isDefault

/-- The first case with the constant, or the number of cases. -/
def caseOf (cases : List (Case O)) (v : Value O) : Nat :=
  cases.findIdx fun c => decide (v ∈ c.expressions)

def nullTarget (cases : List (Case O)) : Nat :=
  if caseOf cases .null < cases.length then caseOf cases .null else defaultCase cases

/-- The code inside of all blocks. -/
def dispatch (scrutinee : Scrutinee) (cases : List (Case O)) (k : Kind) (base : Nat) :
    Code (SwitchInstr O B) :=
  let n := cases.length
  let depth := base + n + 1
  .seq (.act (.value k))
    (.seq (if scrutinee.isNullable then
        .seq (.act .isNull) (.brIf (relative depth (labelOf base n (nullTarget cases))))
      else .skip)
    (.seq (.act .setLocal)
      (compareCases base n 0 cases (.br (relative depth (labelOf base n (defaultCase cases)))))))

/-- Close the blocks of the cases, each followed by its body, and the block of the switch. -/
def nest (base : Nat) : Code (SwitchInstr O B) → List (Code (SwitchInstr O B)) →
    Code (SwitchInstr O B)
  | inner, [] => .block 0 0 inner
  | inner, code :: codes =>
    nest base (.seq (.block 0 0 inner) (.seq code (.br (relative (base + codes.length + 1) base))))
      codes

variable {P : Program O W B D} {fuel base : Nat} {scrutinee : Scrutinee}

def emitBodies (n : Nat) : Nat → List (Body P fuel base) → Option (List (Code (SwitchInstr O B)))
  | _, [] => some []
  | i, b :: bodies => do
    let code ← b.generate (switchLabels base n i) (labelOf base n i)
    let codes ← emitBodies n (i + 1) bodies
    some (code :: codes)

/-- `visitSwitchStatement`; `none` where the compiler throws or an assertion fails. -/
def generate (scrutinee : Scrutinee) (cases : List (Case O)) (bodies : List (Body P fuel base)) :
    Option (Code (SwitchInstr O B)) := do
  let k ← switchKind cases
  if wrapFits scrutinee k && (scrutinee.isNullable || caseOf cases .null == cases.length) then
    let codes ← emitBodies cases.length 0 bodies
    some (nest base (dispatch scrutinee cases k base) codes)
  else none

/-! ## The meaning of a switch -/

/-- The case that a value selects: the first one with an equal constant, or the default. -/
def select (cases : List (Case O)) (v : Value O) : Nat :=
  if caseOf cases v < cases.length then caseOf cases v else defaultCase cases

/-- Run case `c`, where the bodies are those from case `i` on. -/
def enter : Nat → List (Body P fuel base) → Nat → D → Option (Exit (Operand O W) × D)
  | _, [], _, d => some (.completes, d)
  | i, b :: bodies, c, d =>
    if c = i then
      match b.run d with
      | some (.continueTo c' _, d') => enter (i + 1) bodies c' d'
      | r => r
    else enter (i + 1) bodies c d

def run (cases : List (Case O)) (bodies : List (Body P fuel base)) (d : D) :
    Option (Exit (Operand O W) × D) :=
  (P.eval d).bind fun r => enter 0 bodies (select cases r.1) r.2

/-- The constants are of one kind, that of the static type, and null is among them only if the
static type is nullable. -/
def WellTyped (scrutinee : Scrutinee) (cases : List (Case O)) : Prop :=
  (∃ k, check cases k = true ∧ (scrutinee = .bool → k = .bool) ∧ (scrutinee = .int → k = .int)) ∧
    (scrutinee.isNullable = false → caseOf cases .null = cases.length)

def HasType (v : Value O) : Scrutinee → Prop
  | .bool => v.kind? = some .bool
  | .int => v.kind? = some .int
  | .reference n => v = .null → n = true

section Dispatch

variable {cases : List (Case O)} {stack : List (Operand O W)} {d : D} {v x : Value O}
  {rest : Code (SwitchInstr O B)}

end Dispatch

/-! ## Running the bodies -/

section Bodies

variable {inner : Code (SwitchInstr O B)} {codes : List (Code (SwitchInstr O B))}
  {stack stack' : List (Operand O W)} {s s' : D × Value O}

end Bodies

/-! ## The kind of a switch -/

section Kinds

variable {cases : List (Case O)} {scrutinee : Scrutinee}

end Kinds

/-! ## Switch translation -/

/-- The scrutinee has the value 3. -/
def sampleProgram : Program Empty Empty Empty Unit where
  eval d := some (.int 3, d)
  act b := nomatch b

end Dart2Wasm.CodeGenerator.Switch
