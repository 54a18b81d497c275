import Dart2Wasm.Lib.Pointwise
import Dart2Wasm.CodeGenerator.Conditional

/-!
# CodeGenerator.Generate — code generation for statements

The statement visitors of `dart2wasm/lib/code_generator.dart`, for bodies without captured
variables. A visitor carries the stack of the finalizers around the current statement: a
`try`/`finally` pushes its finalizer, visits its body, pops the finalizer and visits it, and a
`return` visits all finalizers on the stack, innermost first, without popping them. A `break` does
not look at the stack.

Since a `return` inside a finalizer visits that finalizer again, the visitors need not return. They
are given a bound on the depth of their recursion; generation returns if some bound suffices.
-/

namespace Dart2Wasm.CodeGenerator

open Lib Option

variable {A E R V S : Type}
variable {body then_ f stmt : Stmt A E R} {fs : List (Stmt A E R)}

/-! ## Emitted code -/

/-- The instructions for expressions; an expression that is tested or returned leaves an operand. -/
inductive StmtInstr (A E R : Type)
  | act (a : A)
  | test (e : E)
  | i32Eqz
  | i32Const (b : Bool)
  | value (r : R)
  | refNull
  | drop

abbrev StmtCode (A E R : Type) := Code (StmtInstr A E R)

/-- What a visitor knows about its surroundings. -/
structure GenEnv (A E R : Type) where
  -- The height of the label stack.
  depth : Nat
  -- The height at which the block of each enclosing labeled statement lies.
  labels : List (LabelId × Nat)
  -- The innermost finalizer comes first.
  finalizers : List (Stmt A E R)
  -- Set if the function is inlined.
  returnLabel : Option Nat
  hasOutput : Bool

def GenEnv.enter (env : GenEnv A E R) : GenEnv A E R :=
  { env with depth := env.depth + 1 }

def GenEnv.bindLabel (env : GenEnv A E R) (label : LabelId) : GenEnv A E R :=
  { env with depth := env.depth + 1, labels := (label, env.depth) :: env.labels }

def GenEnv.protect (env : GenEnv A E R) (finalizer : Stmt A E R) : GenEnv A E R :=
  { env with finalizers := finalizer :: env.finalizers }

/-- The index of a label in a branch. -/
def relative (depth label : Nat) : Nat :=
  depth - label - 1

def stmtEmitter : Emitter (StmtInstr A E R) E :=
  ⟨.i32Eqz, .i32Const, fun e _ => .act (.test e)⟩

/-- A missing condition holds. -/
def branchIfOptional : Option (Condition E) → Nat → Nat → Bool → StmtCode A E R
  | none, depth, target, negated => if negated then .skip else .br (relative depth target)
  | some c, depth, target, negated => c.branchIf stmtEmitter depth target negated

def returnOperand (hasOutput : Bool) : Option R → StmtCode A E R
  | some r => if hasOutput then .act (.value r) else .seq (.act (.value r)) (.act .drop)
  | none => if hasOutput then .act .refNull else .skip

def returnExit (env : GenEnv A E R) : StmtCode A E R :=
  match env.returnLabel with
  | some label => .br (relative env.depth label)
  | none => .ret

def actions (as : List A) : StmtCode A E R :=
  .seqs (as.map fun a => .act (.act a))

def ifThenCode (condition : Condition E) (depth : Nat) (then_ : StmtCode A E R) :
    StmtCode A E R :=
  condition.conditional stmtEmitter depth 0 (fun _ => then_) none

def ifElseCode (condition : Condition E) (depth : Nat) (then_ otherwise : StmtCode A E R) :
    StmtCode A E R :=
  condition.conditional stmtEmitter depth 0 (fun _ => then_) (some fun _ => otherwise)

/-- With `otherwise`, a complex condition puts the `then` part into a block of its own. -/
def GenEnv.thenBranch (env : GenEnv A E R) (condition : Condition E) : GenEnv A E R :=
  if condition.hasLogicalOperator then env.enter.enter else env.enter

def doCode (condition : Condition E) (depth : Nat) (body : StmtCode A E R) :
    StmtCode A E R :=
  .loop 0 0 (.seq body (condition.branchIf stmtEmitter (depth + 1) depth false))

def whileCode (condition : Option (Condition E)) (depth : Nat) (body : StmtCode A E R) :
    StmtCode A E R :=
  .block 0 0 (.loop 0 0 (.seqs [branchIfOptional condition (depth + 2) depth true, body,
    .br (relative (depth + 2) (depth + 1))]))

def gen : Nat → GenEnv A E R → Stmt A E R → Option (StmtCode A E R)
  | 0, _, _ => none
  | fuel + 1, env, stmt =>
    match stmt with
    | .expression a => some (.act (.act a))
    | .empty => some .skip
    | .seq first second => do
      let first ← gen fuel env first
      let second ← gen fuel env second
      some (.seq first second)
    | .labeled label body => do
      let body ← gen fuel (env.bindLabel label) body
      some (.block 0 0 body)
    | .break_ label => do
      let target ← env.labels.lookup label
      some (.br (relative env.depth target))
    | .ifThen condition then_ => do
      let then_ ← gen fuel env.enter then_
      some (ifThenCode condition env.depth then_)
    | .ifElse condition then_ otherwise => do
      let then_ ← gen fuel (env.thenBranch condition) then_
      let otherwise ← gen fuel env.enter otherwise
      some (ifElseCode condition env.depth then_ otherwise)
    | .do_ body condition => do
      let body ← gen fuel env.enter body
      some (doCode condition env.depth body)
    | .while_ condition body => do
      let body ← gen fuel env.enter.enter body
      some (whileCode (some condition) env.depth body)
    | .for_ declarations condition body updates => do
      let body ← gen fuel env.enter.enter body
      some (.seq (actions declarations)
        (whileCode condition env.depth (.seq body (actions updates))))
    | .return_ expression => do
      let finalizers ← env.finalizers.mapM (gen fuel env)
      some (.seq (returnOperand env.hasOutput expression)
        (.seq (.seqs finalizers) (returnExit env)))
    | .tryFinally body finalizer => do
      let body ← gen fuel (env.protect finalizer) body
      let finalizer ← gen fuel env finalizer
      some (.seq body finalizer)

/-- Where a function body starts: the height of the label stack and, if the function is inlined, the
label that a `return` branches to. -/
structure Entry where
  depth : Nat
  returnLabel : Option (Fin depth)
  hasOutput : Bool

def Entry.env (entry : Entry) : GenEnv A E R :=
  ⟨entry.depth, [], [], entry.returnLabel.map Fin.val, entry.hasOutput⟩

/-! ## What a visit consists of -/

section Visits

variable {fuel : Nat} {env : GenEnv A E R} {code : StmtCode A E R}

attribute [local simp] gen bind_eq_some_iff

theorem gen_seq {first second : Stmt A E R} :
    gen (fuel + 1) env (.seq first second) = some code ↔
      ∃ c d, gen fuel env first = some c ∧ gen fuel env second = some d ∧ .seq c d = code := by
  simp

theorem gen_labeled {label : LabelId} :
    gen (fuel + 1) env (.labeled label body) = some code ↔
      ∃ c, gen fuel (env.bindLabel label) body = some c ∧ .block 0 0 c = code := by
  simp

theorem gen_break {label : LabelId} :
    gen (fuel + 1) env (.break_ label) = some code ↔
      ∃ target, env.labels.lookup label = some target ∧
        .br (relative env.depth target) = code := by
  simp

variable {condition : Condition E}

theorem gen_ifThen :
    gen (fuel + 1) env (.ifThen condition then_) = some code ↔
      ∃ c, gen fuel env.enter then_ = some c ∧ ifThenCode condition env.depth c = code := by
  simp

theorem gen_ifElse {otherwise : Stmt A E R} :
    gen (fuel + 1) env (.ifElse condition then_ otherwise) = some code ↔
      ∃ c d, gen fuel (env.thenBranch condition) then_ = some c ∧
        gen fuel env.enter otherwise = some d ∧ ifElseCode condition env.depth c d = code := by
  simp

theorem gen_do :
    gen (fuel + 1) env (.do_ body condition) = some code ↔
      ∃ c, gen fuel env.enter body = some c ∧ doCode condition env.depth c = code := by
  simp

theorem gen_while :
    gen (fuel + 1) env (.while_ condition body) = some code ↔
      ∃ c, gen fuel env.enter.enter body = some c ∧
        whileCode (some condition) env.depth c = code := by
  simp

theorem gen_for {declarations updates : List A} {condition : Option (Condition E)} :
    gen (fuel + 1) env (.for_ declarations condition body updates) = some code ↔
      ∃ c, gen fuel env.enter.enter body = some c ∧
        .seq (actions declarations)
          (whileCode condition env.depth (.seq c (actions updates))) = code := by
  simp

theorem gen_return {expression : Option R} :
    gen (fuel + 1) env (.return_ expression) = some code ↔
      ∃ cs, env.finalizers.mapM (gen fuel env) = some cs ∧
        .seq (returnOperand env.hasOutput expression)
          (.seq (.seqs cs) (returnExit env)) = code := by
  simp

theorem gen_tryFinally {finalizer : Stmt A E R} :
    gen (fuel + 1) env (.tryFinally body finalizer) = some code ↔
      ∃ c d, gen fuel (env.protect finalizer) body = some c ∧
        gen fuel env finalizer = some d ∧ .seq c d = code := by
  simp

end Visits

@[simp] theorem finalizers_thenBranch (env : GenEnv A E R) (condition : Condition E) :
    (env.thenBranch condition).finalizers = env.finalizers := by
  unfold GenEnv.thenBranch
  split <;> rfl

/-! ## Where generation does not return -/

variable {env : GenEnv A E R}

variable {code : StmtCode A E R} {fuel : Nat}

/-- Generation only returns if no `try`/`finally` returns twice: a `return` below a finalizer that
returns is visited again and again. -/
theorem returnsOnce_of_gen (h : gen fuel env stmt = some code) :
    stmt.ReturnsOnce ∧ ∀ f ∈ env.finalizers, f.hasReturn = true → stmt.hasReturn = false := by
  induction fuel generalizing env stmt code with
  | zero => cases h
  | succ fuel ih =>
    cases stmt with
    | expression | empty | break_ => exact ⟨trivial, fun _ _ _ => rfl⟩
    | seq first second =>
      rcases gen_seq.1 h with ⟨c, d, hc, hd, -⟩
      refine ⟨⟨(ih hc).1, (ih hd).1⟩, fun f hf hfr => ?_⟩
      exact Bool.or_eq_false_iff.2 ⟨(ih hc).2 f hf hfr, (ih hd).2 f hf hfr⟩
    | labeled label body =>
      rcases gen_labeled.1 h with ⟨c, hc, -⟩
      exact (ih hc :)
    | ifThen condition then_ =>
      rcases gen_ifThen.1 h with ⟨c, hc, -⟩
      exact (ih hc :)
    | ifElse condition then_ otherwise =>
      rcases gen_ifElse.1 h with ⟨c, d, hc, hd, -⟩
      refine ⟨⟨(ih hc).1, (ih hd).1⟩, fun f hf hfr => ?_⟩
      exact Bool.or_eq_false_iff.2 ⟨(ih hc).2 f (by simpa using hf) hfr, (ih hd).2 f hf hfr⟩
    | do_ body condition =>
      rcases gen_do.1 h with ⟨c, hc, -⟩
      exact (ih hc :)
    | while_ condition body =>
      rcases gen_while.1 h with ⟨c, hc, -⟩
      exact (ih hc :)
    | for_ declarations condition body updates =>
      rcases gen_for.1 h with ⟨c, hc, -⟩
      exact (ih hc :)
    | return_ expression =>
      refine ⟨trivial, fun f hf hfr => ?_⟩
      -- The finalizer is visited with itself still on the stack.
      rcases gen_return.1 h with ⟨cs, hcs, -⟩
      rcases Lib.forall₂_exists_mem (Lib.mapM_eq_some_iff.1 hcs) hf with ⟨c, -, hc⟩
      have hnone := (ih hc).2 f hf hfr
      rw [hfr] at hnone
      cases hnone
    | tryFinally body finalizer =>
      rcases gen_tryFinally.1 h with ⟨c, d, hc, hd, -⟩
      refine ⟨⟨(ih hc).1, (ih hd).1, ?_⟩, fun f hf hfr => ?_⟩
      · rintro ⟨hbody, hfinalizer⟩
        have hnone := (ih hc).2 finalizer List.mem_cons_self hfinalizer
        rw [hbody] at hnone
        cases hnone
      · have hbody := (ih hc).2 f (List.mem_cons_of_mem finalizer hf) hfr
        exact Bool.or_eq_false_iff.2 ⟨hbody, (ih hd).2 f hf hfr⟩

/-! ## Where generation returns -/

/-- Every label in scope has a block. -/
def GenEnv.Binds (env : GenEnv A E R) (scope : List LabelId) : Prop :=
  ∀ label ∈ scope, ∃ target, env.labels.lookup label = some target

variable {scope : List LabelId}

section

variable (h : env.Binds scope)
include h

theorem GenEnv.Binds.bindLabel (label : LabelId) :
    (env.bindLabel label).Binds (label :: scope) := by
  intro label' hmem
  by_cases heq : label' = label
  · exact ⟨env.depth, by simp [GenEnv.bindLabel, heq]⟩
  · rcases h label' ((List.mem_cons.1 hmem).resolve_left heq) with ⟨target, htarget⟩
    refine ⟨target, ?_⟩
    have hbeq : (label' == label) = false := by simpa using heq
    simpa [GenEnv.bindLabel, List.lookup_cons, hbeq] using htarget

theorem GenEnv.Binds.mono {scope' : List LabelId} (hsub : scope' ⊆ scope) : env.Binds scope' :=
  fun label hmem => h label (hsub hmem)

theorem GenEnv.Binds.enter : env.enter.Binds scope :=
  h

theorem GenEnv.Binds.protect (finalizer : Stmt A E R) : (env.protect finalizer).Binds scope :=
  h

theorem GenEnv.Binds.thenBranch (condition : Condition E) :
    (env.thenBranch condition).Binds scope := by
  unfold GenEnv.thenBranch
  split <;> exact h

end

theorem mapM_mono {α β : Type} {g g' : α → Option β} {as : List α} {bs : List β}
    (hg : ∀ a b, g a = some b → g' a = some b) (h : as.mapM g = some bs) : as.mapM g' = some bs :=
  Lib.mapM_eq_some_iff.2 ((Lib.mapM_eq_some_iff.1 h).imp hg)

theorem gen_succ (h : gen fuel env stmt = some code) : gen (fuel + 1) env stmt = some code := by
  induction fuel generalizing env stmt code with
  | zero => cases h
  | succ fuel ih =>
    cases stmt with
    | expression | empty => exact h
    | seq first second =>
      rcases gen_seq.1 h with ⟨c, d, hc, hd, heq⟩
      exact gen_seq.2 ⟨c, d, ih hc, ih hd, heq⟩
    | labeled label body =>
      rcases gen_labeled.1 h with ⟨c, hc, heq⟩
      exact gen_labeled.2 ⟨c, ih hc, heq⟩
    | break_ label => exact gen_break.2 (gen_break.1 h)
    | ifThen condition then_ =>
      rcases gen_ifThen.1 h with ⟨c, hc, heq⟩
      exact gen_ifThen.2 ⟨c, ih hc, heq⟩
    | ifElse condition then_ otherwise =>
      rcases gen_ifElse.1 h with ⟨c, d, hc, hd, heq⟩
      exact gen_ifElse.2 ⟨c, d, ih hc, ih hd, heq⟩
    | do_ body condition =>
      rcases gen_do.1 h with ⟨c, hc, heq⟩
      exact gen_do.2 ⟨c, ih hc, heq⟩
    | while_ condition body =>
      rcases gen_while.1 h with ⟨c, hc, heq⟩
      exact gen_while.2 ⟨c, ih hc, heq⟩
    | for_ declarations condition body updates =>
      rcases gen_for.1 h with ⟨c, hc, heq⟩
      exact gen_for.2 ⟨c, ih hc, heq⟩
    | return_ expression =>
      rcases gen_return.1 h with ⟨cs, hcs, heq⟩
      exact gen_return.2 ⟨cs, mapM_mono (fun _ _ => ih) hcs, heq⟩
    | tryFinally body finalizer =>
      rcases gen_tryFinally.1 h with ⟨c, d, hc, hd, heq⟩
      exact gen_tryFinally.2 ⟨c, d, ih hc, ih hd, heq⟩

theorem gen_le {fuel' : Nat} (hle : fuel ≤ fuel') (h : gen fuel env stmt = some code) :
    gen fuel' env stmt = some code := by
  induction hle with
  | refl => exact h
  | step _ ih => exact gen_succ ih

def Generates (env : GenEnv A E R) (stmt : Stmt A E R) : Prop :=
  ∃ fuel code, gen fuel env stmt = some code

theorem Generates.both {env env' : GenEnv A E R} {stmt' : Stmt A E R}
    (h : Generates env stmt) (h' : Generates env' stmt') :
    ∃ fuel c d, gen fuel env stmt = some c ∧ gen fuel env' stmt' = some d := by
  rcases h with ⟨fuel, c, hc⟩
  rcases h' with ⟨fuel', d, hd⟩
  exact ⟨max fuel fuel', c, d, gen_le (Nat.le_max_left _ _) hc, gen_le (Nat.le_max_right _ _) hd⟩

theorem generates_mapM
    (h : ∀ f ∈ fs, Generates env f) : ∃ fuel cs, fs.mapM (gen fuel env) = some cs := by
  induction fs with
  | nil => exact ⟨0, [], rfl⟩
  | cons f fs ih =>
    rcases h f (by simp) with ⟨fuel, c, hc⟩
    rcases ih fun g hg => h g (by simp [hg]) with ⟨fuel', cs, hcs⟩
    refine ⟨max fuel fuel', c :: cs, ?_⟩
    have hc' := gen_le (Nat.le_max_left fuel fuel') hc
    have hcs' := mapM_mono (fun _ _ => gen_le (Nat.le_max_right fuel fuel')) hcs
    simp [List.mapM_cons, hc', hcs']

/-- Generation returns if no `try`/`finally` returns twice, provided that the finalizers that a
`return` visits can be generated. -/
theorem generates_of_returnsOnce (hscoped : stmt.Scoped scope) (hbinds : env.Binds scope)
    (honce : stmt.ReturnsOnce)
    (hfinalizers : stmt.hasReturn = true → ∀ f ∈ env.finalizers, ∃ scope' ⊆ scope,
      ∀ env' : GenEnv A E R, env'.Binds scope' → Generates env' f) : Generates env stmt := by
  induction stmt generalizing scope env with
  | expression | empty => exact ⟨1, _, rfl⟩
  | seq first second ihf ihs =>
    have hf := ihf hscoped.1 hbinds honce.1 fun h => hfinalizers (by simp [Stmt.hasReturn, h])
    have hs := ihs hscoped.2 hbinds honce.2 fun h => hfinalizers (by simp [Stmt.hasReturn, h])
    rcases hf.both hs with ⟨fuel, c, d, hc, hd⟩
    exact ⟨fuel + 1, _, gen_seq.2 ⟨c, d, hc, hd, rfl⟩⟩
  | labeled label body ih =>
    have hbody : Generates (env.bindLabel label) body := by
      apply ih hscoped.2 (hbinds.bindLabel label) honce
      intro h f hf
      rcases hfinalizers h f hf with ⟨scope', hsub, hgen⟩
      exact ⟨scope', List.Subset.trans hsub (List.subset_cons_self _ _), hgen⟩
    rcases hbody with ⟨fuel, c, hc⟩
    exact ⟨fuel + 1, _, gen_labeled.2 ⟨c, hc, rfl⟩⟩
  | break_ label =>
    rcases hbinds label hscoped with ⟨target, htarget⟩
    exact ⟨1, _, gen_break.2 ⟨target, htarget, rfl⟩⟩
  | ifThen condition then_ ih =>
    rcases ih hscoped hbinds.enter honce hfinalizers with ⟨fuel, c, hc⟩
    exact ⟨fuel + 1, _, gen_ifThen.2 ⟨c, hc, rfl⟩⟩
  | ifElse condition then_ otherwise iht iho =>
    have ht : Generates (env.thenBranch condition) then_ := by
      apply iht hscoped.1 (hbinds.thenBranch condition) honce.1
      intro h
      rw [finalizers_thenBranch]
      exact hfinalizers (by simp [Stmt.hasReturn, h])
    have ho := iho hscoped.2 hbinds.enter honce.2 fun h =>
      hfinalizers (by simp [Stmt.hasReturn, h])
    rcases ht.both ho with ⟨fuel, c, d, hc, hd⟩
    exact ⟨fuel + 1, _, gen_ifElse.2 ⟨c, d, hc, hd, rfl⟩⟩
  | do_ body condition ih =>
    rcases ih hscoped hbinds.enter honce hfinalizers with ⟨fuel, c, hc⟩
    exact ⟨fuel + 1, _, gen_do.2 ⟨c, hc, rfl⟩⟩
  | while_ condition body ih =>
    rcases ih hscoped hbinds.enter.enter honce hfinalizers with ⟨fuel, c, hc⟩
    exact ⟨fuel + 1, _, gen_while.2 ⟨c, hc, rfl⟩⟩
  | for_ declarations condition body updates ih =>
    rcases ih hscoped hbinds.enter.enter honce hfinalizers with ⟨fuel, c, hc⟩
    exact ⟨fuel + 1, _, gen_for.2 ⟨c, hc, rfl⟩⟩
  | return_ expression =>
    have hall : ∀ f ∈ env.finalizers, Generates env f := by
      intro f hf
      rcases hfinalizers rfl f hf with ⟨scope', hsub, hgen⟩
      exact hgen env (hbinds.mono hsub)
    rcases generates_mapM hall with ⟨fuel, cs, hcs⟩
    exact ⟨fuel + 1, _, gen_return.2 ⟨cs, hcs, rfl⟩⟩
  | tryFinally body finalizer ihb ihf =>
    have hfin : Generates env finalizer :=
      ihf hscoped.2 hbinds honce.2.1 fun h => hfinalizers (by simp [Stmt.hasReturn, h])
    have hbody : Generates (env.protect finalizer) body := by
      apply ihb hscoped.1 (hbinds.protect finalizer) honce.1
      intro h f hf
      rcases List.mem_cons.1 hf with rfl | hf
      · -- The finalizer of a body that returns does not return.
        refine ⟨scope, List.Subset.refl _, ?_⟩
        intro env' hbinds'
        apply ihf hscoped.2 hbinds' honce.2.1
        intro h'
        exact absurd ⟨h, h'⟩ honce.2.2
      · exact hfinalizers (by simp [Stmt.hasReturn, h]) f hf
    rcases hbody.both hfin with ⟨fuel, c, d, hc, hd⟩
    exact ⟨fuel + 1, _, gen_tryFinally.2 ⟨c, d, hc, hd, rfl⟩⟩

/-- Generation of a function body returns exactly if no `try`/`finally` has a `return` both in its
body and in its finalizer. -/
theorem generates_iff (body : FunctionBody A E R) (entry : Entry) :
    Generates entry.env body.stmt ↔ body.stmt.ReturnsOnce := by
  constructor
  · rintro ⟨fuel, code, h⟩
    exact (returnsOnce_of_gen h).1
  · intro h
    apply generates_of_returnsOnce body.inScope _ h
    · intro _ f hf
      cases hf
    · intro label hmem
      cases hmem

end Dart2Wasm.CodeGenerator
