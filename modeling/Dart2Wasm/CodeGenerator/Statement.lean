/-!
# CodeGenerator.Statement — statements and their meaning in Dart

The statements of a function body as the code generator visits them, without exceptions: what the
expressions do is left to an interpretation over an arbitrary store. Leaving the body of a
`try`/`finally`, in whatever way, runs the finalizer; if the finalizer itself breaks or returns,
that replaces the way in which the body was left.

Loops are given a bound on their number of iterations. A run that exceeds the bound has no
completion, but it has a state, which also tells whether a `break` has left the body of a
`try`/`finally` on the way.
-/

namespace Dart2Wasm.CodeGenerator

variable {scope : List LabelId}

/-! ## Syntax -/

/-- A boolean expression, with the operators that the code generator looks into. -/
inductive Condition (E : Type)
  | atom (e : E)
  | not (operand : Condition E)
  -- `&&` if `isAnd`, and otherwise `||`.
  | logical (isAnd : Bool) (left right : Condition E)

/-- The identity of a labeled statement. -/
abbrev LabelId := Nat

/-- Statements over expressions that are run for their effect (`A`), tested (`E`) or
returned (`R`). -/
inductive Stmt (A E R : Type)
  | expression (a : A)
  | empty
  | seq (first second : Stmt A E R)
  | labeled (label : LabelId) (body : Stmt A E R)
  | break_ (label : LabelId)
  | ifThen (condition : Condition E) (then_ : Stmt A E R)
  | ifElse (condition : Condition E) (then_ otherwise : Stmt A E R)
  | do_ (body : Stmt A E R) (condition : Condition E)
  | while_ (condition : Condition E) (body : Stmt A E R)
  | for_ (declarations : List A) (condition : Option (Condition E)) (body : Stmt A E R)
      (updates : List A)
  | return_ (expression : Option R)
  | tryFinally (body finalizer : Stmt A E R)

namespace Stmt

variable {A E R : Type}

def hasReturn : Stmt A E R → Bool
  | .expression _ => false
  | .empty => false
  | .seq first second => first.hasReturn || second.hasReturn
  | .labeled _ body => body.hasReturn
  | .break_ _ => false
  | .ifThen _ then_ => then_.hasReturn
  | .ifElse _ then_ otherwise => then_.hasReturn || otherwise.hasReturn
  | .do_ body _ => body.hasReturn
  | .while_ _ body => body.hasReturn
  | .for_ _ _ body _ => body.hasReturn
  | .return_ _ => true
  | .tryFinally body finalizer => body.hasReturn || finalizer.hasReturn

/-- Every `break` targets an enclosing labeled statement, and the labeled statements around a
statement are different. -/
def Scoped : List LabelId → Stmt A E R → Prop
  | _, .expression _ => True
  | _, .empty => True
  | scope, .seq first second => first.Scoped scope ∧ second.Scoped scope
  | scope, .labeled label body => label ∉ scope ∧ body.Scoped (label :: scope)
  | scope, .break_ label => label ∈ scope
  | scope, .ifThen _ then_ => then_.Scoped scope
  | scope, .ifElse _ then_ otherwise => then_.Scoped scope ∧ otherwise.Scoped scope
  | scope, .do_ body _ => body.Scoped scope
  | scope, .while_ _ body => body.Scoped scope
  | scope, .for_ _ _ body _ => body.Scoped scope
  | _, .return_ _ => True
  | scope, .tryFinally body finalizer => body.Scoped scope ∧ finalizer.Scoped scope

/-- No `try`/`finally` has a `return` both in its body and in its finalizer. -/
def ReturnsOnce : Stmt A E R → Prop
  | .expression _ => True
  | .empty => True
  | .seq first second => first.ReturnsOnce ∧ second.ReturnsOnce
  | .labeled _ body => body.ReturnsOnce
  | .break_ _ => True
  | .ifThen _ then_ => then_.ReturnsOnce
  | .ifElse _ then_ otherwise => then_.ReturnsOnce ∧ otherwise.ReturnsOnce
  | .do_ body _ => body.ReturnsOnce
  | .while_ _ body => body.ReturnsOnce
  | .for_ _ _ body _ => body.ReturnsOnce
  | .return_ _ => True
  | .tryFinally body finalizer =>
    body.ReturnsOnce ∧ finalizer.ReturnsOnce ∧
      ¬ (body.hasReturn = true ∧ finalizer.hasReturn = true)

end Stmt

/-- A function body: its breaks stay inside. -/
structure FunctionBody (A E R : Type) where
  stmt : Stmt A E R
  inScope : stmt.Scoped []

/-! ## Meaning -/

/-- What the expressions do to a store `S`; values are `V`. -/
structure Interpretation (A E R V S : Type) where
  act : A → S → S
  test : E → S → Bool × S
  value : R → S → V × S
  null : V

inductive Completion (V : Type)
  | normal
  | breaks (label : LabelId)
  | returns (value : V)
  deriving DecidableEq

/-- The store, and whether a `break` has left the body of a `try`/`finally`. -/
structure DartState (S : Type) where
  store : S
  brokeOut : Bool := false

/-- How a run ends, unless some loop goes on, and the state it reaches. -/
abbrev Run (V S : Type) := Option (Completion V) × DartState S

variable {A E R V S : Type} {t : DartState S}

namespace Run

def andThen (r : Run V S) (next : DartState S → Run V S) : Run V S :=
  match r with
  | (some .normal, s) => next s
  | r => r

def catchBreak (label : LabelId) (r : Run V S) : Run V S :=
  match r with
  | (some (.breaks label'), s) =>
    if label' = label then (some .normal, s) else (some (.breaks label'), s)
  | r => r

def leaveTry (r : Run V S) (finalizer : DartState S → Run V S) : Run V S :=
  match r with
  | (none, s) => (none, s)
  | (some .normal, s) => finalizer s
  | (some (.breaks label), s) =>
    (finalizer { s with brokeOut := true }).andThen fun s => (some (.breaks label), s)
  | (some (.returns v), s) => (finalizer s).andThen fun s => (some (.returns v), s)

def whileLoop (test : DartState S → Bool × DartState S) (body : DartState S → Run V S) :
    Nat → DartState S → Run V S
  | 0, s => (none, s)
  | n + 1, s =>
    if (test s).1 then (body (test s).2).andThen (whileLoop test body n)
    else (some .normal, (test s).2)

def doLoop (test : DartState S → Bool × DartState S) (body : DartState S → Run V S) :
    Nat → DartState S → Run V S
  | 0, s => (none, s)
  | n + 1, s =>
    (body s).andThen fun s =>
      if (test s).1 then doLoop test body n (test s).2 else (some .normal, (test s).2)

end Run

namespace Interpretation

variable (I : Interpretation A E R V S)

/-- A logical operator evaluates its right operand only if the left one does not decide. -/
def evalCondition : Condition E → S → Bool × S
  | .atom e, s => I.test e s
  | .not operand, s => (!(evalCondition operand s).1, (evalCondition operand s).2)
  | .logical isAnd left right, s =>
    if (evalCondition left s).1 = isAnd then evalCondition right (evalCondition left s).2
    else evalCondition left s

def testCondition (c : Condition E) (s : DartState S) : Bool × DartState S :=
  ((I.evalCondition c s.store).1, { s with store := (I.evalCondition c s.store).2 })

/-- A missing condition holds. -/
def testOptional : Option (Condition E) → DartState S → Bool × DartState S
  | none, s => (true, s)
  | some c, s => I.testCondition c s

def actAll (actions : List A) (s : S) : S :=
  actions.foldl (fun s a => I.act a s) s

def returnValue : Option R → S → V × S
  | none, s => (I.null, s)
  | some r, s => I.value r s

/-- Run a statement, with at most `n` iterations of each loop. -/
def run (n : Nat) : Stmt A E R → DartState S → Run V S
  | .expression a, s => (some .normal, { s with store := I.act a s.store })
  | .empty, s => (some .normal, s)
  | .seq first second, s => (run n first s).andThen (run n second)
  | .labeled label body, s => (run n body s).catchBreak label
  | .break_ label, s => (some (.breaks label), s)
  | .ifThen c then_, s =>
    if (I.testCondition c s).1 then run n then_ (I.testCondition c s).2
    else (some .normal, (I.testCondition c s).2)
  | .ifElse c then_ otherwise, s =>
    if (I.testCondition c s).1 then run n then_ (I.testCondition c s).2
    else run n otherwise (I.testCondition c s).2
  | .do_ body c, s => Run.doLoop (I.testCondition c) (run n body) n s
  | .while_ c body, s => Run.whileLoop (I.testCondition c) (run n body) n s
  | .for_ declarations c body updates, s =>
    Run.whileLoop (I.testOptional c)
      (fun s => (run n body s).andThen fun s =>
        (some .normal, { s with store := I.actAll updates s.store }))
      n { s with store := I.actAll declarations s.store }
  | .return_ expression, s =>
    (some (.returns (I.returnValue expression s.store).1),
      { s with store := (I.returnValue expression s.store).2 })
  | .tryFinally body finalizer, s => (run n body s).leaveTry (run n finalizer)

end Interpretation

/-! ## How a statement can complete -/

/-- What holds of a run from a state: its completion satisfies `P`, and a `break` out of a
`try`/`finally` is not forgotten. -/
structure Run.Meets (P : Completion V → Prop) (s : DartState S) (r : Run V S) : Prop where
  completion : ∀ o, r.1 = some o → P o
  brokeOut : s.brokeOut = true → r.2.brokeOut = true

namespace Run.Meets

variable {P Q : Completion V → Prop} {s : DartState S} {r : Run V S}

theorem of_eq {o : Completion V} (hP : P o)
    (ht : s.brokeOut = true → t.brokeOut = true) : Meets P s (some o, t) :=
  ⟨fun _ h => Option.some.inj h ▸ hP, ht⟩

theorem unfinished (ht : s.brokeOut = true → t.brokeOut = true) : Meets P s (none, t) :=
  ⟨fun _ h => (nomatch h), ht⟩

theorem from_ (h : Meets P t r) (ht : s.brokeOut = true → t.brokeOut = true) : Meets P s r :=
  ⟨h.completion, fun hs => h.brokeOut (ht hs)⟩

theorem mono (h : Meets P s r) (hPQ : ∀ o, P o → Q o) : Meets Q s r :=
  ⟨fun o ho => hPQ o (h.completion o ho), h.brokeOut⟩

theorem andThen (h : Meets P s r) {next : DartState S → Run V S}
    (hPQ : ∀ o, o ≠ .normal → P o → Q o)
    (hnext : ∀ t, Meets Q t (next t)) : Meets Q s (r.andThen next) := by
  rcases r with ⟨_ | o, t⟩
  · exact unfinished h.brokeOut
  · cases o with
    | normal => exact (hnext t).from_ h.brokeOut
    | breaks | returns => exact of_eq (hPQ _ (by simp) (h.completion _ rfl)) h.brokeOut

theorem leaveTry (h : Meets P s r) {finalizer : DartState S → Run V S}
    (hfinalizer : ∀ t, Meets P t (finalizer t)) : Meets P s (r.leaveTry finalizer) := by
  rcases r with ⟨_ | o, t⟩
  · exact unfinished h.brokeOut
  cases o with
  | normal => exact (hfinalizer t).from_ h.brokeOut
  | breaks label =>
    have hbreaks : P (.breaks label) := h.completion _ rfl
    refine Meets.from_ (t := { t with brokeOut := true }) ?_ (fun _ => rfl)
    exact (hfinalizer _).andThen (fun o _ ho => ho) fun u => of_eq hbreaks id
  | returns v =>
    have hreturns : P (.returns v) := h.completion _ rfl
    refine Meets.from_ (t := t) ?_ h.brokeOut
    exact (hfinalizer _).andThen (fun o _ ho => ho) fun u => of_eq hreturns id

theorem whileLoop {test : DartState S → Bool × DartState S} {body : DartState S → Run V S}
    (htest : ∀ t, t.brokeOut = true → (test t).2.brokeOut = true) (hnormal : P .normal)
    (hbody : ∀ t, Meets P t (body t)) (n : Nat) (s : DartState S) :
    Meets P s (Run.whileLoop test body n s) := by
  induction n generalizing s with
  | zero => exact unfinished id
  | succ n ih =>
    unfold Run.whileLoop
    split
    · exact ((hbody _).andThen (fun o _ ho => ho) ih).from_ (htest s)
    · exact of_eq hnormal (htest s)

theorem doLoop {test : DartState S → Bool × DartState S} {body : DartState S → Run V S}
    (htest : ∀ t, t.brokeOut = true → (test t).2.brokeOut = true) (hnormal : P .normal)
    (hbody : ∀ t, Meets P t (body t)) (n : Nat) (s : DartState S) :
    Meets P s (Run.doLoop test body n s) := by
  induction n generalizing s with
  | zero => exact unfinished id
  | succ n ih =>
    refine (hbody s).andThen (fun o _ ho => ho) ?_
    intro t
    split
    · exact (ih _).from_ (htest t)
    · exact of_eq hnormal (htest t)

end Run.Meets

/-- The completions that a statement can have in a scope. -/
def Completion.Allowed (scope : List LabelId) (hasReturn : Bool) : Completion V → Prop
  | .normal => True
  | .breaks label => label ∈ scope
  | .returns _ => hasReturn = true

theorem Completion.Allowed.mono {b b' : Bool} (hb : b = true → b' = true)
    (o : Completion V) (h : o.Allowed scope b) : o.Allowed scope b' := by
  cases o with
  | normal => exact trivial
  | breaks label => exact h
  | returns v => exact hb h

theorem Run.Meets.catchBreak {b : Bool} {label : LabelId} {s : DartState S}
    {r : Run V S} (h : r.Meets (Completion.Allowed (label :: scope) b) s) :
    (r.catchBreak label).Meets (Completion.Allowed scope b) s := by
  rcases r with ⟨_ | o, t⟩
  · exact .unfinished h.brokeOut
  cases o with
  | normal => exact .of_eq trivial h.brokeOut
  | breaks label' =>
    have hmem : label' ∈ label :: scope := h.completion _ rfl
    by_cases heq : label' = label
    · simp only [Run.catchBreak, if_pos heq]
      exact .of_eq trivial h.brokeOut
    · simp only [Run.catchBreak, if_neg heq]
      exact .of_eq ((List.mem_cons.1 hmem).resolve_left heq) h.brokeOut
  | returns v => exact .of_eq (h.completion _ rfl) h.brokeOut

/-- A statement breaks only to labels in scope and returns only if it contains a `return`. -/
theorem Interpretation.run_meets (I : Interpretation A E R V S) (n : Nat)
    {stmt : Stmt A E R} (h : stmt.Scoped scope) (s : DartState S) :
    (I.run n stmt s).Meets (Completion.Allowed scope stmt.hasReturn) s := by
  induction stmt generalizing scope s with
  | expression | empty => exact .of_eq trivial id
  | seq first second ihf ihs =>
    refine (ihf h.1 s).andThen (fun o _ => Completion.Allowed.mono ?_ o) ?_
    · simp +contextual [Stmt.hasReturn]
    · intro t
      exact (ihs h.2 t).mono (Completion.Allowed.mono (by simp +contextual [Stmt.hasReturn]))
  | labeled label body ih =>
    exact (ih h.2 s).catchBreak
  | break_ label => exact .of_eq h id
  | ifThen c then_ ih =>
    unfold Interpretation.run
    split
    · exact (ih h _).from_ id
    · exact .of_eq trivial id
  | ifElse c then_ otherwise iht iho =>
    unfold Interpretation.run
    split
    · exact ((iht h.1 _).mono (Completion.Allowed.mono
        (by simp +contextual [Stmt.hasReturn]))).from_ id
    · exact ((iho h.2 _).mono (Completion.Allowed.mono
        (by simp +contextual [Stmt.hasReturn]))).from_ id
  | do_ body c ih =>
    exact Run.Meets.doLoop (fun _ => id) trivial (fun t => ih h t) n s
  | while_ c body ih =>
    exact Run.Meets.whileLoop (fun _ => id) trivial (fun t => ih h t) n s
  | for_ declarations c body updates ih =>
    refine (Run.Meets.whileLoop ?_ trivial ?_ n _).from_ id
    · intro t ht
      cases c <;> exact ht
    · intro t
      exact (ih h t).andThen (fun o _ ho => ho) fun u => .of_eq trivial id
  | return_ expression => exact .of_eq rfl id
  | tryFinally body finalizer ihb ihf =>
    refine ((ihb h.1 s).mono (Completion.Allowed.mono ?_)).leaveTry ?_
    · simp +contextual [Stmt.hasReturn]
    · intro t
      exact (ihf h.2 t).mono (Completion.Allowed.mono (by simp +contextual [Stmt.hasReturn]))

end Dart2Wasm.CodeGenerator
