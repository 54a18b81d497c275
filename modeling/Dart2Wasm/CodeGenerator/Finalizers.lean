import Dart2Wasm.CodeGenerator.Generate

/-!
# CodeGenerator.Finalizers — the emitted code runs the finalizers

The code that `Generate` emits for a statement is compared with the meaning of the statement in
Dart. At a `return` the emitted code has run all enclosing finalizers, while the statement itself
completes with the value and leaves the finalizers to the `try`/`finally` around it; `finish` is
what the statement and the finalizers around it do together. A `break` that leaves the body of a
`try`/`finally` runs the finalizer in Dart and not in the emitted code, so the comparison is for
runs in which there is none.
-/

namespace Dart2Wasm.CodeGenerator

open Lib Interpretation Condition Code Run Nat

variable {A E R V S : Type}

/-! ## Conditions -/

inductive StackValue (V : Type)
  | bool (b : Bool)
  | value (v : V)

def Interpretation.boolMachine (I : Interpretation A E R V S) :
    BoolMachine (StmtInstr A E R) (StackValue V) S where
  act
    | .act a, stack, s => some (stack, I.act a s)
    | .test e, stack, s => some (.bool (I.test e s).1 :: stack, (I.test e s).2)
    | .i32Eqz, .bool b :: stack, s => some (.bool (!b) :: stack, s)
    | .i32Const b, stack, s => some (.bool b :: stack, s)
    | .value r, stack, s => some (.value (I.value r s).1 :: stack, (I.value r s).2)
    | .refNull, stack, s => some (.value I.null :: stack, s)
    | .drop, _ :: stack, s => some (stack, s)
    | _, _, _ => none
  test
    | .bool b => some b
    | .value _ => none
  bool := .bool
  i32Eqz := .i32Eqz
  i32Const := .i32Const
  test_bool _ := rfl
  act_i32Eqz _ _ _ := rfl
  act_i32Const _ _ _ := rfl

def Interpretation.machine (I : Interpretation A E R V S) :
    Machine (StmtInstr A E R) (StackValue V) S :=
  I.boolMachine.toMachine

def Interpretation.atom (I : Interpretation A E R V S) (n : Nat) (e : E) :
    Atom I.boolMachine n where
  code _ := .act (.test e)
  eval s := some (I.test e s)
  exec_code _ _ _ := rfl

variable {stack : List (StackValue V)} {s s' : S} {x : Option (Outcome (StackValue V) × S)}
  {c d : StmtCode A E R} {stmt finalizer : Stmt A E R} {label : LabelId}
  {k : DartState S → Run V S} {target depth : Nat}

section Conditions

variable (I : Interpretation A E R V S) (n : Nat)

theorem relative_self (depth : Nat) : relative (depth + 1) depth = 0 := by
  unfold relative
  omega

theorem relative_succ {label : Nat} (h : label < depth) :
    relative (depth + 1) label = relative depth label + 1 := by
  unfold relative
  omega

theorem eval_atom (c : Condition E) (s : S) : c.eval (I.atom n) s = some (I.evalCondition c s) := by
  induction c generalizing s with
  | atom e => rfl
  | not operand ih => rw [Condition.eval, ih, evalCondition, Option.map_some]
  | logical isAnd left right ihl ihr =>
    rw [Condition.eval, ihl, evalCondition, Option.bind_some, ihr]
    split <;> rfl

theorem wrap_exec (c : Condition E) (depth : Nat) (stack : List (StackValue V)) (s : S) :
    (c.wrap stmtEmitter depth : StmtCode A E R).exec I.machine n stack s =
      some (.normal (.bool (I.evalCondition c s).1 :: stack), (I.evalCondition c s).2) := by
  refine (Condition.wrap_exec (I.atom n) c depth).trans ?_
  rw [eval_atom]
  rfl

theorem branchIf_exec (c : Condition E) (h : target < depth) (negated : Bool)
    (stack : List (StackValue V)) (s : S) :
    JumpsIf ((I.evalCondition c s).1 != negated) (relative depth target) stack
      (I.evalCondition c s).2
      ((c.branchIf stmtEmitter depth target negated : StmtCode A E R).exec I.machine n stack
        s) := by
  have hbranch := Condition.branchIf_exec (I.atom n) c h negated stack s
  rwa [eval_atom] at hbranch

theorem branchIfOptional_exec (c : Option (Condition E)) (h : target < depth)
    (stack : List (StackValue V)) (s : DartState S) :
    JumpsIf (!(I.testOptional c s).1) (relative depth target) stack
      (I.testOptional c s).2.store
      ((branchIfOptional c depth target true : StmtCode A E R).exec I.machine n stack
        s.store) := by
  cases c with
  | none => simp [JumpsIf, testOptional, branchIfOptional, exec]
  | some c =>
    have hbranch := branchIf_exec I n c h true stack s.store
    rw [Bool.bne_true] at hbranch
    exact hbranch

end Conditions

/-! ## Statements and the finalizers around them -/

section Finish

variable (I : Interpretation A E R V S) (n : Nat)

/-- Run the finalizers around a `return`. -/
def Interpretation.unwind : List (Stmt A E R) → V → DartState S → Run V S
  | [], v, s => (some (.returns v), s)
  | f :: fs, v, s => (I.run n f s).andThen (unwind fs v)

/-- Complete a run: a `return` runs the finalizers around it. -/
def Interpretation.finish (fs : List (Stmt A E R)) (r : Run V S) : Run V S :=
  match r with
  | (some (.returns v), s) => I.unwind n fs v s
  | r => r

theorem Run.andThen_assoc (r : Run V S) (f g : DartState S → Run V S) :
    (r.andThen f).andThen g = r.andThen fun s => (f s).andThen g := by
  rcases r with ⟨_ | _ | _ | _, s⟩ <;> rfl

/-- Finalizers do not let a `return` complete normally. -/
theorem unwind_andThen (fs : List (Stmt A E R)) (v : V) (s : DartState S)
    (k : DartState S → Run V S) : (I.unwind n fs v s).andThen k = I.unwind n fs v s := by
  induction fs generalizing s with
  | nil => rfl
  | cons f fs ih =>
    unfold unwind
    rw [andThen_assoc]
    exact congrArg (andThen _) (funext ih)

theorem finish_andThen (fs : List (Stmt A E R)) (r : Run V S) (k : DartState S → Run V S) :
    I.finish n fs (r.andThen k) = (I.finish n fs r).andThen fun s => I.finish n fs (k s) := by
  rcases r with ⟨_ | o, s⟩
  · rfl
  · cases o with
    | normal | breaks => rfl
    | returns v => exact (unwind_andThen I n fs v s _).symm

def InScope (scope : List LabelId) (fs : List (Stmt A E R)) : Prop :=
  ∀ f ∈ fs, ∃ scope' ⊆ scope, f.Scoped scope'

variable {scope : List LabelId} {fs : List (Stmt A E R)}

theorem unwind_meets (h : InScope scope fs) (v : V) (s : DartState S) :
    (I.unwind n fs v s).Meets (Completion.Allowed scope true) s := by
  induction fs generalizing s with
  | nil => exact .of_eq rfl id
  | cons f fs ih =>
    rcases h f (by simp) with ⟨scope', hsub, hscoped⟩
    refine (I.run_meets n hscoped s).andThen ?_ (ih fun g hg => h g (by simp [hg]))
    intro o _ ho
    cases o with
    | normal => exact trivial
    | breaks label => exact hsub ho
    | returns v => exact rfl

theorem finish_meets (hscoped : stmt.Scoped scope) (hfs : stmt.hasReturn = true → InScope scope fs)
    (s : DartState S) :
    (I.finish n fs (I.run n stmt s)).Meets (Completion.Allowed scope true) s := by
  have hmeets := I.run_meets n hscoped s
  rcases hr : I.run n stmt s with ⟨_ | o, t⟩
  · rw [hr] at hmeets
    exact .unfinished hmeets.brokeOut
  · rw [hr] at hmeets
    cases o with
    | normal => exact .of_eq trivial hmeets.brokeOut
    | breaks label => exact .of_eq (hmeets.completion _ rfl) hmeets.brokeOut
    | returns v =>
      exact (unwind_meets I n (hfs (hmeets.completion _ rfl)) v t).from_ hmeets.brokeOut

/-- A statement without `return` needs no finalizers. -/
theorem finish_of_noReturn (fs : List (Stmt A E R))
    (hscoped : stmt.Scoped scope) (h : stmt.hasReturn = false) (s : DartState S) :
    I.finish n fs (I.run n stmt s) = I.run n stmt s := by
  have hmeets := I.run_meets n hscoped s
  rcases hr : I.run n stmt s with ⟨_ | o, t⟩
  · rfl
  · cases o with
    | normal | breaks => rfl
    | returns v =>
      have hreturn : stmt.hasReturn = true := hmeets.completion (.returns v) (by rw [hr])
      rw [h] at hreturn
      cases hreturn

section

variable (fs) (test : DartState S → Bool × DartState S) (body : DartState S → Run V S) (m : Nat)

theorem finish_whileLoop (s : DartState S) :
    I.finish n fs (whileLoop test body m s) =
      whileLoop test (fun t => I.finish n fs (body t)) m s := by
  induction m generalizing s with
  | zero => rfl
  | succ m ih =>
    unfold whileLoop
    split
    · rw [finish_andThen]
      exact congrArg (andThen _) (funext ih)
    · rfl

theorem finish_doLoop (s : DartState S) :
    I.finish n fs (doLoop test body m s) =
      doLoop test (fun t => I.finish n fs (body t)) m s := by
  induction m generalizing s with
  | zero => rfl
  | succ m ih =>
    unfold doLoop
    rw [finish_andThen]
    refine congrArg (andThen _) (funext fun t => ?_)
    split
    · exact ih _
    · rfl

end

/-- The finalizers around a labeled statement do not break to it. -/
theorem finish_catchBreak (hlabel : label ∉ scope) (r : Run V S)
    (hfs : ∀ v, r.1 = some (.returns v) → InScope scope fs) :
    I.finish n fs (r.catchBreak label) = (I.finish n fs r).catchBreak label := by
  rcases r with ⟨_ | o, s⟩
  · rfl
  cases o with
  | normal => rfl
  | breaks label' =>
    by_cases heq : label' = label <;> simp [catchBreak, finish, heq]
  | returns v =>
    have hmeets := unwind_meets I n (hfs v rfl) v s
    show I.unwind n fs v s = (I.unwind n fs v s).catchBreak label
    rcases hu : I.unwind n fs v s with ⟨_ | o, t⟩
    · rfl
    · cases o with
      | normal | returns => rfl
      | breaks label' =>
        have hmem : label' ∈ scope := hmeets.completion (.breaks label') (by rw [hu])
        have hne : label' ≠ label := fun heq => hlabel (heq ▸ hmem)
        simp [catchBreak, hne]

/-- At the end of the body of a `try`/`finally`, the finalizer joins those around it. -/
theorem finish_leaveTry
    (hscoped : finalizer.Scoped scope) (h : finalizer.hasReturn = false) (v : V) (t : DartState S) :
    I.finish n fs (leaveTry (some (.returns v), t) (I.run n finalizer)) =
      I.finish n (finalizer :: fs) (some (.returns v), t) := by
  show I.finish n fs ((I.run n finalizer t).andThen fun s => (some (.returns v), s)) =
    (I.run n finalizer t).andThen (I.unwind n fs v)
  rw [finish_andThen, finish_of_noReturn I n fs hscoped h]
  rfl

/-- Leaving the body of a `try`/`finally` by a `break` is remembered. -/
theorem brokeOut_leaveTry (hscoped : finalizer.Scoped scope)
    (hfs : finalizer.hasReturn = true → InScope scope fs) (label : LabelId) (t : DartState S) :
    (I.finish n fs (leaveTry (some (.breaks label), t) (I.run n finalizer))).2.brokeOut =
      true := by
  let t' : DartState S := { t with brokeOut := true }
  let rest : DartState S → Run V S := fun s => (some (.breaks label), s)
  show (I.finish n fs ((I.run n finalizer t').andThen rest)).2.brokeOut = true
  have hmeets : (I.finish n fs (I.run n finalizer t')).Meets (fun _ => True) t' :=
    (finish_meets I n hscoped hfs t').mono fun _ _ => trivial
  have hrest : ∀ u, (I.finish n fs (rest u)).Meets (fun _ => True) u :=
    fun u => ⟨fun _ _ => trivial, id⟩
  rw [finish_andThen]
  exact (hmeets.andThen (fun _ _ h => h) hrest).brokeOut rfl

end Finish

/-! ## Runs and executions -/

def GenEnv.output (env : GenEnv A E R) (v : V) : List (StackValue V) :=
  if env.hasOutput then [.value v] else []

/-- The labels of the surroundings lie below the current height. -/
structure GenEnv.Bounded (env : GenEnv A E R) : Prop where
  labels : ∀ label target, env.labels.lookup label = some target → target < env.depth
  returnLabel : ∀ target, env.returnLabel = some target → target < env.depth

variable {env : GenEnv A E R}

theorem GenEnv.Bounded.enter (h : env.Bounded) : env.enter.Bounded :=
  ⟨fun label target hl => lt_succ_of_lt (h.labels label target hl),
    fun target hr => lt_succ_of_lt (h.returnLabel target hr)⟩

theorem GenEnv.Bounded.protect (h : env.Bounded) (finalizer : Stmt A E R) :
    (env.protect finalizer).Bounded :=
  ⟨h.labels, h.returnLabel⟩

theorem GenEnv.Bounded.thenBranch (h : env.Bounded)
    (condition : Condition E) : (env.thenBranch condition).Bounded := by
  unfold GenEnv.thenBranch
  split
  · exact h.enter.enter
  · exact h.enter

theorem lookup_bindLabel (env : GenEnv A E R) (label label' : LabelId) :
    (env.bindLabel label).labels.lookup label' =
      if label' = label then some env.depth else env.labels.lookup label' := by
  by_cases h : label' = label
  · simp [GenEnv.bindLabel, h]
  · have hbeq : (label' == label) = false := by simpa using h
    simp [GenEnv.bindLabel, List.lookup_cons, hbeq, h]

theorem GenEnv.Bounded.bindLabel (h : env.Bounded) (label : LabelId) :
    (env.bindLabel label).Bounded := by
  refine ⟨?_, fun target hr => lt_succ_of_lt (h.returnLabel target hr)⟩
  intro label' target hl
  rw [lookup_bindLabel] at hl
  split at hl
  · cases hl
    exact lt_succ_self _
  · exact lt_succ_of_lt (h.labels label' target hl)

/-- Code emitted in `env` does what a run says. The operands that a branch to a block without
results leaves behind do not matter. -/
inductive Matches (env : GenEnv A E R) (stack : List (StackValue V)) :
    Run V S → Option (Outcome (StackValue V) × S) → Prop
  | unfinished (s : DartState S) : Matches env stack (none, s) none
  | normal (s : DartState S) :
      Matches env stack (some .normal, s) (some (.normal stack, s.store))
  | breaks {label target : Nat} (s : DartState S) (stack' : List (StackValue V))
      (h : env.labels.lookup label = some target) :
      Matches env stack (some (.breaks label), s)
        (some (.branch (relative env.depth target) stack', s.store))
  | returned (v : V) (s : DartState S) (stack' : List (StackValue V))
      (h : env.returnLabel = none) :
      Matches env stack (some (.returns v), s)
        (some (.returned (env.output v ++ stack'), s.store))
  | branched {target : Nat} (v : V) (s : DartState S) (stack' : List (StackValue V))
      (h : env.returnLabel = some target) :
      Matches env stack (some (.returns v), s)
        (some (.branch (relative env.depth target) (env.output v ++ stack'), s.store))

/-- The execution matches unless a `break` has left the body of a `try`/`finally`. -/
def Simulates (env : GenEnv A E R) (stack : List (StackValue V)) (r : Run V S)
    (x : Option (Outcome (StackValue V) × S)) : Prop :=
  r.2.brokeOut = false → Matches env stack r x

section Simulates

variable {I : Interpretation A E R V S} {n : Nat} {r : Run V S}

theorem GenEnv.relative_enter (h : target < env.depth) :
    relative env.enter.depth target = relative env.depth target + 1 :=
  relative_succ h

theorem Matches.leave (henv : env.Bounded)
    (h : Matches env.enter [] r x) (stack : List (StackValue V)) :
    Matches env stack r (x.map fun y => (y.1.leave 0 stack, y.2)) := by
  cases h with
  | unfinished s => exact .unfinished s
  | normal s => exact .normal s
  | breaks s stack' h =>
    rw [GenEnv.relative_enter (henv.labels _ _ h)]
    exact .breaks s stack' h
  | returned v s stack' h => exact .returned v s stack' h
  | branched v s stack' h =>
    rw [GenEnv.relative_enter (henv.returnLabel _ h)]
    exact .branched v s stack' h

theorem Matches.leaveLabeled (henv : env.Bounded) (h : Matches (env.bindLabel label) [] r x)
    (stack : List (StackValue V)) :
    Matches env stack (r.catchBreak label) (x.map fun y => (y.1.leave 0 stack, y.2)) := by
  cases h with
  | unfinished s => exact .unfinished s
  | normal s => exact .normal s
  | @breaks label' target s stack' h =>
    rw [lookup_bindLabel] at h
    by_cases heq : label' = label
    · rw [if_pos heq] at h
      cases h
      have hrel : relative (env.bindLabel label).depth env.depth = 0 := relative_self _
      simp only [catchBreak, if_pos heq, hrel]
      exact .normal s
    · rw [if_neg heq] at h
      have hrel : relative (env.bindLabel label).depth target = relative env.depth target + 1 :=
        relative_succ (henv.labels _ _ h)
      simp only [catchBreak, if_neg heq, hrel]
      exact .breaks s stack' h
  | returned v s stack' h => exact .returned v s stack' h
  | branched v s stack' h =>
    have hlt := henv.returnLabel _ h
    have hrel : relative (env.bindLabel label).depth _ = relative env.depth _ + 1 :=
      relative_succ hlt
    rw [hrel]
    exact .branched v s stack' h

theorem catchBreak_brokeOut (label : LabelId) (r : Run V S) :
    (r.catchBreak label).2.brokeOut = r.2.brokeOut := by
  rcases r with ⟨_ | _ | label' | _, s⟩
  · rfl
  · rfl
  · unfold catchBreak
    dsimp only
    split <;> rfl
  · rfl

theorem Simulates.labeled (henv : env.Bounded)
    (h : Simulates (env.bindLabel label) [] r (c.exec I.machine n [] s)) :
    Simulates env stack (r.catchBreak label)
      ((block 0 0 c).exec I.machine n stack s) := by
  intro hr
  rw [catchBreak_brokeOut] at hr
  exact (h hr).leaveLabeled henv stack

/-- Code that is left early is left whatever follows. -/
theorem Matches.exits
    (h : Matches env stack r (c.exec I.machine n stack s)) (hr : r.1 ≠ some .normal) :
    (seq c d).exec I.machine n stack s = c.exec I.machine n stack s := by
  generalize hx : c.exec I.machine n stack s = x at h
  cases h with
  | normal t => exact absurd rfl hr
  | unfinished | breaks | returned | branched => simp [exec, hx]

theorem Matches.of_normal {t : DartState S}
    (h : Matches env stack ((some .normal, t) : Run V S) (c.exec I.machine n stack s)) :
    c.exec I.machine n stack s = some (.normal stack, t.store) := by
  generalize c.exec I.machine n stack s = x at h
  cases h with
  | normal t => rfl

theorem Run.brokeOut_of_andThen {P : Completion V → Prop} (hmeets : ∀ t, (k t).Meets P t)
    (h : (r.andThen k).2.brokeOut = false) : r.2.brokeOut = false := by
  cases hr : r.2.brokeOut with
  | false => rfl
  | true =>
    have hself : r.Meets (fun _ => True) r.2 := ⟨fun _ _ => trivial, id⟩
    have htrue := (hself.andThen (fun _ _ h => h) fun t =>
      (hmeets t).mono fun _ _ => trivial).brokeOut hr
    rw [h] at htrue
    cases htrue

/-- A run that does not complete normally ends a sequence. -/
theorem Run.andThen_of_ne {o : Option (Completion V)} (ho : o ≠ some .normal) (t : DartState S)
    (k : DartState S → Run V S) : andThen (o, t) k = (o, t) := by
  rcases o with _ | _ | _ | _
  · rfl
  · exact absurd rfl ho
  · rfl
  · rfl

theorem Simulates.seq {P : Completion V → Prop}
    (h : Simulates env stack r (c.exec I.machine n stack s))
    (hk : ∀ t, Simulates env stack (k t) (d.exec I.machine n stack t.store))
    (hmeets : ∀ t, (k t).Meets P t) :
    Simulates env stack (r.andThen k) ((seq c d).exec I.machine n stack s) := by
  rcases r with ⟨o, t⟩
  by_cases ho : o = some .normal
  · subst ho
    intro hr
    have ht := brokeOut_of_andThen hmeets hr
    rw [exec_seq_normal (h ht).of_normal]
    exact hk t hr
  · rw [andThen_of_ne ho]
    intro hr
    rw [(h hr).exits ho]
    exact h hr

/-! ## Conditionals and loops -/

variable {c d : StmtCode A E R} {k k' : DartState S → Run V S} {scope : List LabelId}

section

variable (henv : env.Bounded)
include henv

theorem ifThen_simulates (condition : Condition E) (s : DartState S)
    (h : ∀ t, Simulates env.enter [] (k t) (c.exec I.machine n [] t.store)) :
    Simulates env stack
      (if (I.testCondition condition s).1 then k (I.testCondition condition s).2
        else (some .normal, (I.testCondition condition s).2))
      ((ifThenCode condition env.depth c).exec I.machine n stack s.store) := by
  have hthen := h (I.testCondition condition s).2
  intro hr
  rw [ifThenCode, conditional]
  cases condition.hasLogicalOperator with
  | false =>
    rw [Bool.not_false, if_pos rfl,
      exec_seq_normal (wrap_exec I n condition env.depth stack s.store), exec_if rfl]
    cases hb : (I.evalCondition condition s.store).1 with
    | true =>
      simp only [testCondition, hb, if_true] at hthen hr ⊢
      exact (hthen hr).leave henv stack
    | false =>
      simp only [testCondition, hb]
      exact .normal (I.testCondition condition s).2
  | true =>
    rw [Bool.not_true, if_neg Bool.false_ne_true, complexConditional, exec_block]
    have hbranch := branchIf_exec I n condition (lt_succ_self env.depth) true [] s.store
    rw [relative_self] at hbranch
    cases hb : (I.evalCondition condition s.store).1 with
    | true =>
      rw [hb] at hbranch
      rw [hbranch.seq_not_taken]
      simp only [testCondition, hb, if_true] at hthen hr ⊢
      exact (hthen hr).leave henv stack
    | false =>
      rw [hb] at hbranch
      rcases hbranch.seq_taken c with ⟨stack', hexec⟩
      rw [hexec]
      simp only [testCondition, hb]
      exact .normal (I.testCondition condition s).2

/-- The `then` part of a complex condition, whose last branch leaves both blocks. -/
theorem thenBlock_matches {o : Option (Completion V)} {t : DartState S} {inner : StmtCode A E R}
    (hthen : Matches env.enter.enter [] (o, t) (c.exec I.machine n [] s'))
    (hinner : inner.exec I.machine n [] s = (seq c (.seq (.br 1) .skip)).exec I.machine n [] s')
    (d : StmtCode A E R) :
    Matches env stack (o, t)
      ((block 0 0 (.seq (.block 0 0 inner) d)).exec I.machine n stack s) := by
  rw [exec_block]
  by_cases ho : o = some .normal
  · subst ho
    rw [exec_seq_normal hthen.of_normal] at hinner
    have hblock : (seq (.block 0 0 inner) d).exec I.machine n [] s =
        some (.branch 0 [], t.store) := by
      simp [exec, hinner, Outcome.leave]
    rw [hblock]
    exact .normal t
  · have hblock : Matches env.enter [] (o, t) ((block 0 0 inner).exec I.machine n [] s) := by
      rw [exec_block, hinner, hthen.exits ho]
      exact hthen.leave henv.enter []
    rw [hblock.exits ho]
    exact hblock.leave henv stack

theorem ifElse_simulates (condition : Condition E) (s : DartState S)
    (hthen : ∀ t, Simulates (env.thenBranch condition) [] (k t) (c.exec I.machine n [] t.store))
    (helse : ∀ t, Simulates env.enter [] (k' t) (d.exec I.machine n [] t.store)) :
    Simulates env stack
      (if (I.testCondition condition s).1 then k (I.testCondition condition s).2
        else k' (I.testCondition condition s).2)
      ((ifElseCode condition env.depth c d).exec I.machine n stack s.store) := by
  have hthen := hthen (I.testCondition condition s).2
  have helse := helse (I.testCondition condition s).2
  intro hr
  rw [ifElseCode, conditional]
  cases hlogical : condition.hasLogicalOperator with
  | false =>
    rw [GenEnv.thenBranch, hlogical] at hthen
    rw [Bool.not_false, if_pos rfl,
      exec_seq_normal (wrap_exec I n condition env.depth stack s.store), exec_if rfl]
    cases hb : (I.evalCondition condition s.store).1 with
    | true =>
      simp only [testCondition, hb, if_true] at hthen hr ⊢
      exact (hthen hr).leave henv stack
    | false =>
      simp only [testCondition, hb] at helse hr ⊢
      exact (helse hr).leave henv stack
  | true =>
    rw [GenEnv.thenBranch, hlogical] at hthen
    rw [Bool.not_true, if_neg Bool.false_ne_true, complexConditional]
    have hbranch := branchIf_exec I n condition (lt_succ_self (env.depth + 1)) true [] s.store
    rw [relative_self] at hbranch
    cases hb : (I.evalCondition condition s.store).1 with
    | true =>
      simp only [testCondition, hb, if_true] at hthen hr ⊢
      rw [hb] at hbranch
      exact thenBlock_matches henv (hthen hr) (hbranch.seq_not_taken _) d
    | false =>
      simp only [testCondition, hb] at helse hr ⊢
      rw [hb] at hbranch
      rcases hbranch.seq_taken (.seq c (.seq (.br 1) .skip)) with ⟨stack', hexec⟩
      rw [exec_block, exec_seq, exec_block, seqs, seqs, seqs, seqs, hexec]
      exact (helse hr).leave henv stack

/-- Code emitted inside a block branches to that block only by a label of its own. -/
theorem Matches.ne_branch_zero (h : Matches env.enter stack r x) (stack' : List (StackValue V))
    (s : S) : x ≠ some (.branch 0 stack', s) := by
  intro hx
  cases h with
  | unfinished | normal | returned => cases hx
  | breaks t stack₁ h =>
    rw [GenEnv.relative_enter (henv.labels _ _ h)] at hx
    cases hx
  | branched v t stack₁ h =>
    rw [GenEnv.relative_enter (henv.returnLabel _ h)] at hx
    cases hx

theorem do_simulates (condition : Condition E)
    (h : ∀ t, Simulates env.enter [] (k t) (c.exec I.machine n [] t.store))
    (hmeets : ∀ t, (k t).Meets (Completion.Allowed scope true) t) (m : Nat) (s : DartState S) :
    Simulates env stack (doLoop (I.testCondition condition) k m s)
      (iterate ((seq c (condition.branchIf stmtEmitter (env.depth + 1) env.depth false)).exec
        I.machine n) 0 0 stack m [] s.store) := by
  induction m generalizing s with
  | zero => exact fun _ => .unfinished s
  | succ m ih =>
    intro hr
    unfold doLoop at hr ⊢
    have hks : (k s).2.brokeOut = false := by
      refine brokeOut_of_andThen (P := Completion.Allowed scope true) (fun t => ?_) hr
      split
      · exact (Run.Meets.doLoop (fun _ => id) trivial hmeets m _).from_ id
      · exact .of_eq trivial id
    have hbody := h s hks
    rcases hk : k s with ⟨o, t⟩
    rw [hk] at hr hbody
    by_cases ho : o = some .normal
    · subst ho
      have hbranch := branchIf_exec I n condition (lt_succ_self env.depth) false [] t.store
      rw [relative_self, Bool.bne_false] at hbranch
      have hseq := exec_seq_normal
          (d := condition.branchIf stmtEmitter (env.depth + 1) env.depth false)
        hbody.of_normal
      cases hb : (I.evalCondition condition t.store).1 with
      | true =>
        rw [hb] at hbranch
        rcases hbranch with ⟨stack', htaken⟩
        rw [iterate_again (hseq.trans htaken)]
        have htest : (I.testCondition condition t).1 = true := hb
        simp only [andThen, htest, if_true] at hr ⊢
        exact ih _ hr
      | false =>
        rw [hb] at hbranch
        have hexit := hseq.trans hbranch
        rw [iterate_exit (by simp [hexit]), hexit]
        have htest : (I.testCondition condition t).1 = false := hb
        simp only [andThen, htest]
        exact .normal (I.testCondition condition t).2
    · rw [andThen_of_ne ho]
      have hseq := hbody.exits
          (d := condition.branchIf stmtEmitter (env.depth + 1) env.depth false) ho
      rw [iterate_exit (by rw [hseq]; exact hbody.ne_branch_zero henv), hseq]
      exact hbody.leave henv stack

/-- The loop of a `while` or `for` statement, inside its block. -/
theorem while_simulates (condition : Option (Condition E))
    (h : ∀ t, Simulates env.enter.enter [] (k t) (c.exec I.machine n [] t.store))
    (hmeets : ∀ t, (k t).Meets (Completion.Allowed scope true) t) (m : Nat) (s : DartState S) :
    Simulates env stack (whileLoop (I.testOptional condition) k m s)
      ((iterate ((seqs [branchIfOptional condition (env.depth + 2) env.depth true, c,
        .br 0]).exec I.machine n) 0 0 [] m [] s.store).map fun y => (y.1.leave 0 stack, y.2)) := by
  have htest : ∀ t : DartState S, t.brokeOut = true →
      (I.testOptional condition t).2.brokeOut = true := by
    intro t ht
    cases condition <;> exact ht
  have hout : relative (env.depth + 2) env.depth = 1 := by
    rw [relative_succ (lt_succ_self _), relative_self]
  simp only [seqs]
  induction m generalizing s with
  | zero => exact fun _ => .unfinished s
  | succ m ih =>
    intro hr
    have hbranch := branchIfOptional_exec I n condition
      (lt_succ_of_lt (lt_succ_self env.depth)) [] s
    rw [hout] at hbranch
    unfold whileLoop at hr ⊢
    cases hb : (I.testOptional condition s).1 with
    | false =>
      rw [hb] at hbranch
      rcases hbranch.seq_taken (.seq c (.seq (.br 0) .skip)) with ⟨stack', hexec⟩
      rw [iterate_exit (by simp [hexec]), hexec]
      exact .normal (I.testOptional condition s).2
    | true =>
      rw [hb] at hbranch
      rw [hb, if_pos rfl] at hr
      have hks : (k (I.testOptional condition s).2).2.brokeOut = false :=
        brokeOut_of_andThen (Run.Meets.whileLoop htest trivial hmeets m) hr
      have hseq := hbranch.seq_not_taken (.seq c (.seq (.br 0) .skip))
      have hbody := h _ hks
      rcases hk : k (I.testOptional condition s).2 with ⟨o, t⟩
      rw [hk] at hr hbody
      by_cases ho : o = some .normal
      · subst ho
        have hagain := hseq.trans (exec_seq_normal hbody.of_normal)
        rw [iterate_again hagain]
        exact ih t hr
      · rw [andThen_of_ne ho]
        have hexit := hseq.trans (hbody.exits ho)
        rw [iterate_exit (by rw [hexit]; exact hbody.ne_branch_zero henv.enter), hexit]
        exact (hbody.leave henv.enter []).leave henv stack

end

/-! ## Statements -/

variable (I n) in
theorem actions_exec (as : List A) (stack : List (StackValue V)) (s : S) :
    (actions as : StmtCode A E R).exec I.machine n stack s =
      some (.normal stack, I.actAll as s) := by
  induction as generalizing s with
  | nil => rfl
  | cons a as ih => exact ih (I.act a s)

theorem returnOperand_exec (env : GenEnv A E R) (expression : Option R)
    (stack : List (StackValue V)) (s : S) :
    (returnOperand env.hasOutput expression : StmtCode A E R).exec I.machine n stack s =
      some (.normal (env.output (I.returnValue expression s).1 ++ stack),
        (I.returnValue expression s).2) := by
  cases expression with
  | none | some => cases h : env.hasOutput <;> simp [returnOperand, GenEnv.output, h] <;> rfl

/-- The stack matters only at a normal end. -/
theorem Matches.restack (h : Matches env stack r x)
    (hr : r.1 ≠ some .normal) (stack' : List (StackValue V)) : Matches env stack' r x := by
  cases h with
  | unfinished s => exact .unfinished s
  | normal s => exact absurd rfl hr
  | breaks s stack₁ h => exact .breaks s stack₁ h
  | returned v s stack₁ h => exact .returned v s stack₁ h
  | branched v s stack₁ h => exact .branched v s stack₁ h

/-- The finalizers do not change what a completion means. -/
theorem Matches.unprotect
    (h : Matches (env.protect finalizer) stack r x) : Matches env stack r x := by
  cases h with
  | unfinished s => exact .unfinished s
  | normal s => exact .normal s
  | breaks s stack' h => exact .breaks s stack' h
  | returned v s stack' h => exact .returned v s stack' h
  | branched v s stack' h => exact .branched v s stack' h

theorem unwind_ne_normal (fs : List (Stmt A E R)) (v : V) (s : DartState S) :
    (I.unwind n fs v s).1 ≠ some .normal := by
  have hcut := unwind_andThen I n fs v s fun t => (none, t)
  generalize I.unwind n fs v s = r at hcut
  rcases r with ⟨o, t⟩
  rintro rfl
  cases hcut

/-- The finalizers that a `return` visits, and the exit. -/
theorem unwind_simulates {fuel : Nat} {fs : List (Stmt A E R)}
    {cs : List (StmtCode A E R)} (hcs : fs.mapM (gen fuel env) = some cs)
    (hfs : InScope scope fs) (h : ∀ f ∈ fs, ∀ c, gen fuel env f = some c → ∀ stack s,
      Simulates env stack (I.run n f s) (c.exec I.machine n stack s.store))
    (v : V) (s : DartState S) :
    Simulates env (env.output v ++ stack) (I.unwind n fs v s)
      ((seq (.seqs cs) (returnExit env)).exec I.machine n (env.output v ++ stack) s.store) := by
  rw [mapM_eq_some_iff] at hcs
  induction hcs generalizing s with
  | nil =>
    intro _
    cases hlabel : env.returnLabel with
    | none =>
      have hexec : (seq (.seqs []) (returnExit env)).exec I.machine n (env.output v ++ stack)
          s.store = some (.returned (env.output v ++ stack), s.store) := by
        simp [seqs, exec, returnExit, hlabel]
      rw [hexec]
      exact .returned v s stack hlabel
    | some target =>
      have hexec : (seq (.seqs []) (returnExit env)).exec I.machine n (env.output v ++ stack)
          s.store =
            some (.branch (relative env.depth target) (env.output v ++ stack), s.store) := by
        simp [seqs, exec, returnExit, hlabel]
      rw [hexec]
      exact .branched v s stack hlabel
  | @cons f c fs _ hc _ ih =>
    have hrest : InScope scope fs := fun g hg => hfs g (by simp [hg])
    simp only [seqs]
    rw [exec_seq_assoc]
    apply Simulates.seq (h f (by simp) c hc _ s)
    · exact ih hrest fun g hg => h g (by simp [hg])
    · exact unwind_meets I n hrest v

theorem for_simulates (henv : env.Bounded) (declarations updates : List A)
    (condition : Option (Condition E)) {body : Stmt A E R}
    (hbody : ∀ t, Simulates env.enter.enter [] (I.finish n env.finalizers (I.run n body t))
      (c.exec I.machine n [] t.store))
    (hmeets : ∀ t, (I.finish n env.finalizers (I.run n body t)).Meets
      (Completion.Allowed scope true) t) (s : DartState S) :
    Simulates env stack
      (I.finish n env.finalizers (I.run n (.for_ declarations condition body updates) s))
      ((seq (actions declarations) (whileCode condition env.depth (.seq c (actions updates)))).exec
        I.machine n stack s.store) := by
  let update : DartState S → Run V S := fun t =>
    (some .normal, { t with store := I.actAll updates t.store })
  have hupdate : ∀ t, (I.finish n env.finalizers (update t)).Meets
      (Completion.Allowed scope true) t := fun t => .of_eq (o := .normal) trivial id
  have hround : ∀ t, Simulates env.enter.enter []
      (I.finish n env.finalizers ((I.run n body t).andThen update))
      ((seq c (actions updates)).exec I.machine n [] t.store) := by
    intro t
    rw [finish_andThen]
    apply Simulates.seq (hbody t)
    · intro t' _
      rw [actions_exec]
      exact .normal { t' with store := I.actAll updates t'.store }
    · exact hupdate
  have hroundMeets : ∀ t, (I.finish n env.finalizers ((I.run n body t).andThen update)).Meets
      (Completion.Allowed scope true) t := by
    intro t
    rw [finish_andThen]
    exact (hmeets t).andThen (fun _ _ ho => ho) hupdate
  simp only [Interpretation.run]
  rw [exec_seq_normal (actions_exec I n declarations stack s.store), finish_whileLoop, whileCode,
    exec_block, exec_loop, relative_self]
  exact while_simulates henv condition hround hroundMeets n
    { s with store := I.actAll declarations s.store }

/-- At the end of a `try`/`finally`, of which the body or the finalizer contains no `return`. -/
theorem tryFinally_simulates {body : Stmt A E R} {s : DartState S} (hbodyScoped : body.Scoped scope)
    (hscoped : finalizer.Scoped scope)
    (hfin : finalizer.hasReturn = true → InScope scope env.finalizers)
    (honce : body.hasReturn = true → finalizer.hasReturn = false)
    (hbody : Simulates (env.protect finalizer) stack
      (I.finish n (finalizer :: env.finalizers) (I.run n body s))
        (c.exec I.machine n stack s.store))
    (hfinalizer : ∀ t, Simulates env stack (I.finish n env.finalizers (I.run n finalizer t))
      (d.exec I.machine n stack t.store)) :
    Simulates env stack
      (I.finish n env.finalizers ((I.run n body s).leaveTry (I.run n finalizer)))
      ((seq c d).exec I.machine n stack s.store) := by
  have hmeets := I.run_meets n hbodyScoped s
  intro hbroke
  rcases hr : I.run n body s with ⟨_ | o, t⟩
  · rw [hr] at hbody hbroke
    have hmatch := hbody hbroke
    rw [hmatch.exits (by rintro ⟨⟩)]
    exact hmatch.unprotect
  · rw [hr] at hbody hmeets hbroke
    cases o with
    | normal =>
      have ht : t.brokeOut = false := by
        by_contra ht
        have htrue := (finish_meets I n hscoped hfin t).brokeOut (by simpa using ht)
        exact absurd hbroke (by simp [leaveTry, htrue])
      rw [exec_seq_normal (hbody ht).of_normal]
      exact hfinalizer t hbroke
    | breaks label =>
      -- The finalizer is not part of the code at the `break`.
      rw [brokeOut_leaveTry I n hscoped hfin] at hbroke
      cases hbroke
    | returns v =>
      rw [finish_leaveTry I n hscoped (honce (hmeets.completion _ rfl))] at hbroke ⊢
      have hmatch := hbody hbroke
      rw [hmatch.exits (unwind_ne_normal _ v t)]
      exact hmatch.unprotect

end Simulates

/-- The code emitted for a statement does what the statement and the finalizers around it do. -/
theorem gen_simulates (I : Interpretation A E R V S) (n : Nat) {fuel : Nat} {scope : List LabelId}
    {code : StmtCode A E R} (h : gen fuel env stmt = some code) (hscoped : stmt.Scoped scope)
    (henv : env.Bounded) (hfs : stmt.hasReturn = true → InScope scope env.finalizers)
    (stack : List (StackValue V)) (s : DartState S) :
    Simulates env stack (I.finish n env.finalizers (I.run n stmt s))
      (code.exec I.machine n stack s.store) := by
  -- By induction on the visits: a `return` visits statements that are not part of it.
  induction fuel generalizing scope env stmt code stack s with
  | zero => cases h
  | succ fuel ih =>
    cases stmt with
    | expression a =>
      cases h
      exact fun _ => .normal { s with store := I.act a s.store }
    | empty =>
      cases h
      exact fun _ => .normal s
    | seq first second =>
      rcases gen_seq.1 h with ⟨c, d, hc, hd, rfl⟩
      have hf : first.hasReturn = true → InScope scope env.finalizers :=
        fun hr => hfs (by simp [Stmt.hasReturn, hr])
      have hs : second.hasReturn = true → InScope scope env.finalizers :=
        fun hr => hfs (by simp [Stmt.hasReturn, hr])
      simp only [Interpretation.run]
      rw [finish_andThen]
      apply Simulates.seq (ih hc hscoped.1 henv hf stack s)
      · exact ih hd hscoped.2 henv hs stack
      · exact finish_meets I n hscoped.2 hs
    | labeled label body =>
      rcases gen_labeled.1 h with ⟨c, hc, rfl⟩
      have hbody : body.hasReturn = true → InScope (label :: scope) env.finalizers := by
        intro hr f hf
        rcases hfs hr f hf with ⟨scope', hsub, hf⟩
        exact ⟨scope', List.Subset.trans hsub (List.subset_cons_self _ _), hf⟩
      simp only [Interpretation.run]
      rw [finish_catchBreak I n hscoped.1]
      · exact Simulates.labeled henv (ih hc hscoped.2 (henv.bindLabel label) hbody [] s)
      · intro v hv
        exact hfs ((I.run_meets n hscoped.2 s).completion _ hv)
    | break_ label =>
      rcases gen_break.1 h with ⟨target, htarget, rfl⟩
      exact fun _ => .breaks s stack htarget
    | ifThen condition then_ =>
      rcases gen_ifThen.1 h with ⟨c, hc, rfl⟩
      simp only [Interpretation.run]
      rw [apply_ite (I.finish n env.finalizers)]
      exact ifThen_simulates henv condition s fun t => ih hc hscoped henv.enter hfs [] t
    | ifElse condition then_ otherwise =>
      rcases gen_ifElse.1 h with ⟨c, d, hc, hd, rfl⟩
      simp only [Interpretation.run]
      rw [apply_ite (I.finish n env.finalizers)]
      have hthen : ∀ t, Simulates (env.thenBranch condition) []
          (I.finish n env.finalizers (I.run n then_ t)) (c.exec I.machine n [] t.store) := by
        intro t
        have hsim := ih hc hscoped.1 (henv.thenBranch condition)
          (fun hr => by simpa using hfs (by simp [Stmt.hasReturn, hr])) [] t
        rwa [finalizers_thenBranch] at hsim
      have helse : ∀ t, Simulates env.enter []
          (I.finish n env.finalizers (I.run n otherwise t)) (d.exec I.machine n [] t.store) :=
        fun t => ih hd hscoped.2 henv.enter (fun hr => hfs (by simp [Stmt.hasReturn, hr])) [] t
      exact ifElse_simulates henv condition s hthen helse
    | do_ body condition =>
      rcases gen_do.1 h with ⟨c, hc, rfl⟩
      simp only [Interpretation.run]
      rw [finish_doLoop, doCode, exec_loop]
      have hbody : ∀ t, Simulates env.enter [] (I.finish n env.finalizers (I.run n body t))
          (c.exec I.machine n [] t.store) := ih hc hscoped henv.enter hfs []
      exact do_simulates henv condition hbody
        (finish_meets I n (show body.Scoped _ from hscoped) hfs) n s
    | while_ condition body =>
      rcases gen_while.1 h with ⟨c, hc, rfl⟩
      simp only [Interpretation.run]
      have hbody : ∀ t, Simulates env.enter.enter []
          (I.finish n env.finalizers (I.run n body t)) (c.exec I.machine n [] t.store) :=
        ih hc hscoped henv.enter.enter hfs []
      rw [finish_whileLoop, whileCode, exec_block, exec_loop, relative_self]
      exact while_simulates henv (some condition) hbody
        (finish_meets I n (show body.Scoped _ from hscoped) hfs) n s
    | for_ declarations condition body updates =>
      rcases gen_for.1 h with ⟨c, hc, rfl⟩
      exact for_simulates henv declarations updates condition
        (ih hc hscoped henv.enter.enter hfs [])
        (finish_meets I n (show body.Scoped _ from hscoped) hfs) s
    | return_ expression =>
      rcases gen_return.1 h with ⟨cs, hcs, rfl⟩
      have hin := hfs rfl
      intro hr
      rw [exec_seq_normal (returnOperand_exec env expression stack s.store)]
      refine Matches.restack (unwind_simulates hcs hin ?_ _ _ hr) (unwind_ne_normal _ _ _) stack
      -- A finalizer that is visited here contains no `return`, so it stands alone.
      intro f hf c hc stack' t
      have hno : f.hasReturn = false := by
        by_contra hfr
        exact hfr ((returnsOnce_of_gen hc).2 _ hf (by simpa using hfr))
      rcases hin f hf with ⟨scope', hsub, hfscoped⟩
      have := ih hc hfscoped henv (fun hr => absurd hr (by simp [hno])) stack' t
      rwa [finish_of_noReturn I n _ hfscoped hno] at this
    | tryFinally body finalizer =>
      rcases gen_tryFinally.1 h with ⟨c, d, hc, hd, rfl⟩
      have hin : body.hasReturn = true → InScope scope (finalizer :: env.finalizers) := by
        intro hr f hf
        rcases List.mem_cons.1 hf with rfl | hf
        · exact ⟨scope, List.Subset.refl _, hscoped.2⟩
        · exact hfs (by simp [Stmt.hasReturn, hr]) f hf
      have hfin : finalizer.hasReturn = true → InScope scope env.finalizers :=
        fun hr => hfs (by simp [Stmt.hasReturn, hr])
      refine tryFinally_simulates hscoped.1 hscoped.2 hfin (fun hreturn => ?_)
        (ih hc hscoped.1 (henv.protect finalizer) hin stack s) (ih hd hscoped.2 henv hfin stack)
      by_contra hfr
      have hnone := (returnsOnce_of_gen hc).2 _ List.mem_cons_self (by simpa using hfr)
      rw [hreturn] at hnone
      cases hnone

/-- Generation of a function body returns exactly if no `try`/`finally` has a `return` both in its
body and in its finalizer. Then, in every run in which no `break` leaves the body of a
`try`/`finally`, the emitted code does what the body does in Dart, where every finalizer that is
left runs once, innermost first. -/
theorem generate_runs_finalizers (body : FunctionBody A E R) (entry : Entry) :
    (Generates entry.env body.stmt ↔ body.stmt.ReturnsOnce) ∧
      ∀ fuel code, gen fuel entry.env body.stmt = some code →
        ∀ (V S : Type) (I : Interpretation A E R V S) (n : Nat) (s : S),
          (I.run n body.stmt ⟨s, false⟩).2.brokeOut = false →
          Matches (entry.env : GenEnv A E R) [] (I.run n body.stmt ⟨s, false⟩)
            (code.exec I.machine n [] s) := by
  refine ⟨generates_iff body entry, ?_⟩
  intro fuel code hcode V S I n s hbroke
  have henv : (entry.env : GenEnv A E R).Bounded := by
    refine ⟨fun _ _ h => (nomatch h), ?_⟩
    intro target htarget
    rcases Option.map_eq_some_iff.1 htarget with ⟨label, -, rfl⟩
    exact label.isLt
  have hsim := gen_simulates I n hcode body.inScope henv (fun _ _ hf => nomatch hf) [] ⟨s, false⟩
  -- There are no finalizers around the body.
  have hfinish : I.finish n [] (I.run n body.stmt ⟨s, false⟩) = I.run n body.stmt ⟨s, false⟩ := by
    rcases I.run n body.stmt ⟨s, false⟩ with ⟨_ | _ | _ | _, t⟩ <;> rfl
  exact hfinish ▸ hsim (hfinish.symm ▸ hbroke)

/-- Actions are numbers, and the store is the list of the actions done so far. -/
def logging : Interpretation Nat Bool Nat Nat (List Nat) where
  act a s := s ++ [a]
  test e s := (e, s)
  value r s := (r, s)
  null := 0

/-- `try { try { return 3; } finally { 7; } } finally { 8; }` -/
def nestedReturn : FunctionBody Nat Bool Nat where
  stmt := .tryFinally (.tryFinally (.return_ (some 3)) (.expression 7)) (.expression 8)
  inScope := by simp [Stmt.Scoped]

theorem generate_runs_finalizers_nested :
    ∃ code, gen 4 (Entry.env ⟨1, none, true⟩) nestedReturn.stmt = some code ∧
      logging.run 0 nestedReturn.stmt ⟨[], false⟩ = (some (.returns 3), ⟨[7, 8], false⟩) ∧
      ∃ stack, code.exec logging.machine 0 [] [] =
        some (.returned (.value 3 :: stack), [7, 8]) := by
  refine ⟨_, rfl, rfl, ?_⟩
  have hmatches := (generate_runs_finalizers nestedReturn ⟨1, none, true⟩).2 4 _ rfl _ _
    logging 0 []
    rfl
  generalize hx : Code.exec _ _ _ _ _ = x at hmatches ⊢
  cases hmatches with
  | returned v s stack' h => exact ⟨stack', rfl⟩
  | branched v s stack' h => cases h

/-- `L: try { break L; } finally { 7; }` -/
def breakOut : FunctionBody Nat Bool Nat where
  stmt := .labeled 0 (.tryFinally (.break_ 0) (.expression 7))
  inScope := by simp [Stmt.Scoped]

/-- `try { return; } finally { return; }` -/
def returnTwice : FunctionBody Nat Bool Nat where
  stmt := .tryFinally (.return_ none) (.return_ none)
  inScope := by simp [Stmt.Scoped]

/-- A `break` skips the finalizer of the `try` that it leaves, and a finalizer that returns is
visited without end. -/
theorem finalizer_skipped_or_endless :
    (∃ code, gen 4 (Entry.env ⟨1, none, false⟩) breakOut.stmt = some code ∧
      (logging.run 0 breakOut.stmt ⟨[], false⟩).1 = some .normal ∧
      (logging.run 0 breakOut.stmt ⟨[], false⟩).2.store = [7] ∧
      (code.exec logging.machine 0 [] []).map Prod.snd = some []) ∧
    ∀ fuel, gen fuel (Entry.env ⟨1, none, false⟩) returnTwice.stmt = none := by
  refine ⟨⟨_, rfl, rfl, rfl, rfl⟩, ?_⟩
  intro fuel
  cases h : gen fuel (Entry.env ⟨1, none, false⟩) returnTwice.stmt with
  | none => rfl
  | some code => exact absurd ⟨rfl, rfl⟩ (returnsOnce_of_gen h).1.2.2

end Dart2Wasm.CodeGenerator
