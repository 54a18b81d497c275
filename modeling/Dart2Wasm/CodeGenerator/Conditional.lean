import Mathlib.Data.List.Forall2
import Dart2Wasm.Lib.StructuredCode
import Dart2Wasm.CodeGenerator.Statement

/-!
# CodeGenerator.Conditional — conditions with logical operators

`_branchIf` and `_conditional` of `dart2wasm/lib/code_generator.dart`, and the visitors of the
logical operators that are built on them. A condition is a tree of `!`, `&&` and `||` over atoms;
what is emitted for an atom is left to an `Emitter`. For the results an atom is any code that either
traps or leaves a bool, and the parts of a conditional are any code that leaves values of the
declared types, branches to a label around the conditional, or returns.
-/

namespace Dart2Wasm.CodeGenerator

open Lib Code

variable {A E V S T : Type}
variable {r : Option (Bool × S)}

/-! ## Emitted code -/

/-- The instructions for bools, and `wrap` of the expressions that are no logical operators, at any
height of the label stack. -/
structure Emitter (A E : Type) where
  i32Eqz : A
  i32Const : Bool → A
  atom : E → Nat → Code A

namespace Condition

def hasLogicalOperator : Condition E → Bool
  | .atom _ => false
  | .not operand => hasLogicalOperator operand
  | .logical _ _ _ => true

variable (emit : Emitter A E)

/-- `_branchIf`. The target is a height of the label stack. -/
def branchIf : Condition E → Nat → Nat → Bool → Code A
  | .atom e, depth, target, negated =>
    .seqs [emit.atom e depth, if negated then .act emit.i32Eqz else .skip,
      .brIf (depth - target - 1)]
  | .not operand, depth, target, negated => branchIf operand depth target (!negated)
  | .logical isAnd left right, depth, target, negated =>
    if isAnd ^^ negated then
      -- Falling out of the block skips the right operand.
      .block 0 0 (.seq (branchIf left (depth + 1) depth (!negated))
        (branchIf right (depth + 1) target negated))
    else .seq (branchIf left depth target negated) (branchIf right depth target negated)

/-- `_conditional` for a condition with a logical operator. -/
def complexConditional (condition : Condition E) (depth results : Nat) (then_ : Nat → Code A) :
    Option (Nat → Code A) → Code A
  | some otherwise =>
    .block 0 results (.seq
      (.block 0 0 (.seqs [condition.branchIf emit (depth + 2) (depth + 1) true, then_ (depth + 2),
        .br 1]))
      (otherwise (depth + 1)))
  | none =>
    .block 0 results (.seq (condition.branchIf emit (depth + 1) depth true) (then_ (depth + 1)))

/-- `wrap` of a condition, with `visitNot` and `visitLogicalExpression`. -/
def wrap : Condition E → Nat → Code A
  | .atom e, depth => emit.atom e depth
  | .not operand, depth => .seq (wrap operand depth) (.act emit.i32Eqz)
  | .logical isAnd left right, depth =>
    complexConditional emit (.logical isAnd left right) depth 1 (fun _ => .act (emit.i32Const true))
      (some fun _ => .act (emit.i32Const false))

def conditional (condition : Condition E) (depth results : Nat) (then_ : Nat → Code A)
    (otherwise : Option (Nat → Code A)) : Code A :=
  if !condition.hasLogicalOperator then
    .seq (condition.wrap emit depth)
      (.if_ 0 results (then_ (depth + 1))
        (match otherwise with
          | some otherwise => otherwise (depth + 1)
          | none => .skip))
  else complexConditional emit condition depth results then_ otherwise

end Condition

/-! ## Machines, atoms and parts -/

structure BoolMachine (A V S : Type) extends Machine A V S where
  bool : Bool → V
  i32Eqz : A
  i32Const : Bool → A
  test_bool : ∀ b, test (bool b) = some b
  act_i32Eqz : ∀ b stack s, act i32Eqz (bool b :: stack) s = some (bool (!b) :: stack, s)
  act_i32Const : ∀ b stack s, act (i32Const b) stack s = some (bool b :: stack, s)

/-- An expression of type `bool` that is no logical operator: the code of `wrap` at any label
height, and what the expression does. -/
structure Atom (M : BoolMachine A V S) (fuel : Nat) where
  code : Nat → Code A
  eval : S → Option (Bool × S)
  exec_code : ∀ depth stack s, (code depth).exec M.toMachine fuel stack s =
    (eval s).map fun r => (.normal (M.bool r.1 :: stack), r.2)

/-- How a part of a conditional ends. Labels are heights of the label stack. -/
inductive Exit (V : Type)
  | normal (values : List V)
  | branch (label : Nat) (stack : List V)
  | returned (stack : List V)

/-- The end as seen at a height of the label stack, above the operands that were there before. -/
def Exit.at_ (depth : Nat) (stack : List V) : Exit V → Outcome V
  | .normal values => .normal (values ++ stack)
  | .branch label stack' => .branch (depth - label - 1) stack'
  | .returned stack' => .returned stack'

/-- A part of a conditional at the given height, which leaves values of the types `result`. -/
structure Part (M : BoolMachine A V S) (fuel : Nat) (hasType : V → T → Prop) (depth : Nat)
    (result : List T) where
  code : Nat → Code A
  run : S → Option (Exit V × S)
  exec_code : ∀ extra s, (code (depth + extra)).exec M.toMachine fuel [] s =
    (run s).map fun r => (r.1.at_ (depth + extra) [], r.2)
  typed : ∀ s values s', run s = some (.normal values, s') → List.Forall₂ hasType values result
  outside : ∀ s label stack s', run s = some (.branch label stack, s') → label < depth

variable {M : BoolMachine A V S} {fuel : Nat}

/-- What is emitted for expressions that are atoms of a machine. -/
def BoolMachine.emitter (M : BoolMachine A V S) (atom : E → Atom M fuel) : Emitter A E :=
  ⟨M.i32Eqz, M.i32Const, fun e => (atom e).code⟩

namespace Condition

/-- A logical operator evaluates its right operand only if the left one does not decide. -/
def eval (atom : E → Atom M fuel) : Condition E → S → Option (Bool × S)
  | .atom e, s => (atom e).eval s
  | .not operand, s => (eval atom operand s).map fun r => (!r.1, r.2)
  | .logical isAnd left right, s =>
    (eval atom left s).bind fun r => if r.1 = isAnd then eval atom right r.2 else some r

variable (atom : E → Atom M fuel)

/-! ## Branches -/

/-- The result of code that branches to `label` if `taken`, and otherwise leaves the stack alone. -/
def JumpsIf (taken : Bool) (label : Nat) (stack : List V) (s : S)
    (x : Option (Outcome V × S)) : Prop :=
  if taken then ∃ stack', x = some (.branch label stack', s) else x = some (.normal stack, s)

/-- What `branchIf` does: nothing if the condition traps, and otherwise it branches to the target
exactly if the value of the condition is not `negated`. -/
def Branches (negated : Bool) (label : Nat) (stack : List V) (x : Option (Outcome V × S)) :
    Option (Bool × S) → Prop
  | none => x = none
  | some r => JumpsIf (r.1 != negated) label stack r.2 x

section Seq

variable {N : Machine A V S} {c : Code A} {label : Nat} {stack : List V} {s s' : S}

theorem JumpsIf.seq_taken (h : JumpsIf true label stack s' (c.exec N fuel stack s)) (d : Code A) :
    ∃ stack', (seq c d).exec N fuel stack s = some (.branch label stack', s') := by
  obtain ⟨stack', hexec⟩ : ∃ stack', c.exec N fuel stack s = some (.branch label stack', s') := h
  exact ⟨stack', by rw [exec_seq, hexec]⟩

theorem JumpsIf.seq_not_taken (h : JumpsIf false label stack s' (c.exec N fuel stack s))
    (d : Code A) : (seq c d).exec N fuel stack s = d.exec N fuel stack s' :=
  exec_seq_normal h

theorem Branches.seq {d : Code A} {negated : Bool}
    (h : Branches negated label stack (c.exec N fuel stack s) r) :
    (r = none → (Code.seq c d).exec N fuel stack s = none) ∧
      (∀ s', r = some (negated, s') →
        (Code.seq c d).exec N fuel stack s = d.exec N fuel stack s') ∧
      ∀ s', r = some (!negated, s') →
        ∃ stack', (Code.seq c d).exec N fuel stack s = some (.branch label stack', s') := by
  refine ⟨?_, ?_, ?_⟩
  · rintro rfl
    rw [exec_seq, show c.exec N fuel stack s = none from h]
  · rintro s' rfl
    rw [Branches, bne_self_eq_false] at h
    exact h.seq_not_taken d
  · rintro s' rfl
    rw [Branches, Bool.not_bne_self] at h
    exact h.seq_taken d

end Seq

/-- Leaving a block around the code turns a branch further out into a branch from the block. -/
theorem Branches.leave {negated : Bool} {label : Nat} {stack : List V}
    {x : Option (Outcome V × S)} (h : Branches negated (label + 1) [] x r) :
    Branches negated label stack (x.map fun o => (o.1.leave 0 stack, o.2)) r := by
  cases r with
  | none =>
    rw [show x = none from h]
    rfl
  | some r =>
    simp only [Branches, JumpsIf] at h ⊢
    by_cases htaken : (r.1 != negated) = true
    · rw [if_pos htaken] at h ⊢
      rcases h with ⟨stack', rfl⟩
      exact ⟨stack', rfl⟩
    · rw [if_neg htaken] at h ⊢
      rw [h]
      rfl

theorem branchIf_atom (e : E) (depth target : Nat) (negated : Bool) (stack : List V) (s : S) :
    Branches negated (depth - target - 1) stack
      ((branchIf (M.emitter atom) (.atom e) depth target negated).exec M.toMachine fuel stack s)
      ((atom e).eval s) := by
  have hcode := (atom e).exec_code depth stack s
  cases he : (atom e).eval s with
  | none => simp [Branches, branchIf, BoolMachine.emitter, seqs, exec, hcode, he]
  | some r =>
    rcases r with ⟨b, s'⟩
    cases negated <;> cases b <;>
      simp [Branches, JumpsIf, branchIf, BoolMachine.emitter, seqs, exec, hcode, he, M.act_i32Eqz,
        M.test_bool]

theorem branchIf_exec (c : Condition E) {depth target : Nat} (h : target < depth)
    (negated : Bool) (stack : List V) (s : S) :
    Branches negated (depth - target - 1) stack
      ((c.branchIf (M.emitter atom) depth target negated).exec M.toMachine fuel stack s)
      (c.eval atom s) := by
  induction c generalizing depth target negated stack s with
  | atom e => exact branchIf_atom atom e depth target negated stack s
  | not operand ih =>
    have hoperand := ih h (!negated) stack s
    rw [branchIf, eval]
    cases hr : operand.eval atom s with
    | none =>
      rw [hr] at hoperand
      exact hoperand
    | some r =>
      rw [hr] at hoperand
      simpa [Branches] using hoperand
  | logical isAnd left right ihl ihr =>
    rw [branchIf, eval]
    by_cases hconj : isAnd = !negated
    · -- a left operand that decides leaves the block, one that does not goes on to the right
      have hl := ihl (Nat.lt_succ_self depth) (!negated) [] s
      rcases hl.seq (d := right.branchIf _ (depth + 1) target negated) with ⟨htrap, hgo, hstop⟩
      rw [if_pos (by cases negated <;> simp [hconj]), exec_block]
      cases hr : left.eval atom s with
      | none =>
        rw [htrap hr]
        rfl
      | some r =>
        rcases r with ⟨b, s'⟩
        by_cases hb : b = isAnd
        · subst hb
          rw [hgo s' (by rw [hr, hconj])]
          have hright := ihr (Nat.lt_succ_of_lt h) negated [] s'
          rw [show depth + 1 - target - 1 = depth - target - 1 + 1 by omega] at hright
          simpa using (hright.leave : Branches negated _ stack _ _)
        · have hb' : b = negated := by
            revert hb hconj
            cases b <;> cases isAnd <;> cases negated <;> simp
          subst hb'
          rcases hstop s' (by rw [hr, Bool.not_not]) with ⟨stack', hexec⟩
          rw [hexec]
          simp [Branches, JumpsIf, hb, Outcome.leave]
    · have hneg : isAnd = negated := by
        revert hconj
        cases isAnd <;> cases negated <;> simp
      subst hneg
      rcases (ihl h isAnd stack s).seq (d := right.branchIf _ depth target isAnd) with
        ⟨htrap, hgo, hstop⟩
      rw [if_neg (by simp)]
      cases hr : left.eval atom s with
      | none => exact htrap hr
      | some r =>
        rcases r with ⟨b, s'⟩
        by_cases hb : b = isAnd
        · subst hb
          rw [hgo s' hr]
          simpa using ihr h b stack s'
        have hb' : b = !isAnd := by
          revert hb
          cases b <;> cases isAnd <;> simp
        subst hb'
        rcases hstop s' hr with ⟨stack', hexec⟩
        rw [hexec]
        simp [Branches, JumpsIf]

/-! ## Conditionals -/

section Parts

variable {hasType : V → T → Prop} {depth : Nat} {result : List T} {stack : List V} {s : S}

/-- A part that is run in a block ends like the block: its values are exactly the declared ones. -/
theorem leave_part (p : Part M fuel hasType depth result) :
    (((p.code (depth + 1)).exec M.toMachine fuel [] s).map fun r =>
        (r.1.leave result.length stack, r.2)) =
      (p.run s).map fun r => (r.1.at_ depth stack, r.2) := by
  rw [p.exec_code 1 s, Option.map_map]
  cases hrun : p.run s with
  | none => rfl
  | some r =>
    rcases r with ⟨values | ⟨label, stack'⟩ | stack', s'⟩
    · have hlength := (p.typed s values s' hrun).length_eq
      simp [Exit.at_, Outcome.leave, ← hlength]
    · have hlabel := p.outside s label stack' s' hrun
      have heq : depth + 1 - label - 1 = depth - label - 1 + 1 := by omega
      simp [Exit.at_, Outcome.leave, heq]
    · rfl

/-- The `then` part of a complex condition ends with a branch out of both blocks. -/
theorem leave_then (p : Part M fuel hasType depth result) (d : Code A) :
    (((seq (.block 0 0 (.seq (p.code (depth + 2)) (.seqs [.br 1]))) d).exec
        M.toMachine fuel [] s).map fun r => (r.1.leave result.length stack, r.2)) =
      (p.run s).map fun r => (r.1.at_ depth stack, r.2) := by
  rw [exec_seq, exec_block, exec_seq, p.exec_code 2 s]
  cases hrun : p.run s with
  | none => rfl
  | some r =>
    rcases r with ⟨values | ⟨label, stack'⟩ | stack', s'⟩
    · have hlength := (p.typed s values s' hrun).length_eq
      simp [Exit.at_, Outcome.leave, seqs, exec, ← hlength]
    · have hlabel := p.outside s label stack' s' hrun
      have heq : depth + 2 - label - 1 = depth - label - 1 + 1 + 1 := by omega
      simp [Exit.at_, Outcome.leave, heq]
    · rfl

theorem exec_block_results (results : Nat) (c : Code A) :
    (block 0 results c).exec M.toMachine fuel stack s =
      (c.exec M.toMachine fuel [] s).map fun r => (r.1.leave results stack, r.2) :=
  rfl

theorem exec_if_results (results : Nat) (c d : Code A) (b : Bool) :
    (if_ 0 results c d).exec M.toMachine fuel (M.bool b :: stack) s =
      ((if b then c else d).exec M.toMachine fuel [] s).map fun r =>
        (r.1.leave results stack, r.2) := by
  simp only [exec, M.test_bool]
  cases b with
  | false => rfl
  | true => rfl

/-- A complex condition with both parts runs the part that its value selects. -/
theorem complexConditional_exec (c : Condition E)
    (then_ otherwise : Part M fuel hasType depth result) :
    (complexConditional (M.emitter atom) c depth result.length then_.code
        (some otherwise.code)).exec M.toMachine fuel stack s =
      (c.eval atom s).bind fun r =>
        ((if r.1 then then_ else otherwise).run r.2).map fun e => (e.1.at_ depth stack, e.2) := by
  have hbranch := branchIf_exec atom c (Nat.lt_succ_self (depth + 1)) true ([] : List V) s
  rw [show depth + 2 - (depth + 1) - 1 = 0 by omega] at hbranch
  rcases hbranch.seq (d := .seq (then_.code (depth + 2)) (.seqs [.br 1])) with ⟨htrap, hgo, hstop⟩
  rw [complexConditional, exec_block_results]
  cases hr : c.eval atom s with
  | none =>
    rw [exec_seq, exec_block, seqs, seqs, htrap hr]
    rfl
  | some r =>
    rcases r with ⟨b, s'⟩
    cases b with
    | true =>
      refine Eq.trans ?_ (leave_then then_ (otherwise.code (depth + 1)))
      rw [exec_seq, exec_seq, exec_block, exec_block, seqs, seqs, hgo s' hr]
    | false =>
      refine Eq.trans ?_ (leave_part otherwise)
      rcases hstop s' hr with ⟨stack', hexec⟩
      rw [exec_seq, exec_block, seqs, seqs, hexec]
      rfl

/-- Without `otherwise` nothing is left, and a condition that does not hold does nothing else. -/
theorem complexConditional_exec_none (c : Condition E) (then_ : Part M fuel hasType depth []) :
    (complexConditional (M.emitter atom) c depth 0 then_.code none).exec M.toMachine fuel stack s =
      (c.eval atom s).bind fun r =>
        if r.1 then (then_.run r.2).map fun e => (e.1.at_ depth stack, e.2)
        else some (.normal stack, r.2) := by
  have hbranch := branchIf_exec atom c (Nat.lt_succ_self depth) true ([] : List V) s
  rw [show depth + 1 - depth - 1 = 0 by omega] at hbranch
  rcases hbranch.seq (d := then_.code (depth + 1)) with ⟨htrap, hgo, hstop⟩
  rw [complexConditional, exec_block_results]
  cases hr : c.eval atom s with
  | none =>
    rw [htrap hr]
    rfl
  | some r =>
    rcases r with ⟨b, s'⟩
    cases b with
    | true =>
      rw [hgo s' hr]
      exact leave_part then_
    | false =>
      rcases hstop s' hr with ⟨stack', hexec⟩
      rw [hexec]
      rfl

/-- The parts of a logical expression that is evaluated for its value. -/
def constPart (M : BoolMachine A V S) (fuel depth : Nat) (b : Bool) :
    Part M fuel (fun v (_ : Unit) => ∃ b, v = M.bool b) depth [()] where
  code _ := .act (M.i32Const b)
  run s := some (.normal [M.bool b], s)
  exec_code extra s := by
    rw [Code.exec_act, M.act_i32Const]
    rfl
  typed s values s' h := by
    cases h
    exact .cons ⟨b, rfl⟩ .nil
  outside s label stack s' h := by cases h

theorem wrap_exec (c : Condition E) (depth : Nat) :
    (c.wrap (M.emitter atom) depth).exec M.toMachine fuel stack s =
      (c.eval atom s).map fun r => (.normal (M.bool r.1 :: stack), r.2) := by
  induction c with
  | atom e => exact (atom e).exec_code depth stack s
  | not operand ih =>
    rw [wrap, exec_seq, ih]
    show _ = ((operand.eval atom s).map fun r => (!r.1, r.2)).map _
    cases operand.eval atom s with
    | none => rfl
    | some r =>
      show (act M.i32Eqz).exec M.toMachine fuel (M.bool r.1 :: stack) r.2 = _
      rw [exec_act, M.act_i32Eqz]
      rfl
  | logical isAnd left right _ _ =>
    refine (complexConditional_exec atom (.logical isAnd left right) (constPart M fuel depth true)
      (constPart M fuel depth false)).trans ?_
    cases eval atom (.logical isAnd left right) s with
    | none => rfl
    | some r =>
      rcases r with ⟨b, s'⟩
      cases b with
      | true => rfl
      | false => rfl

theorem conditional_exec (c : Condition E) (then_ otherwise : Part M fuel hasType depth result) :
    (c.conditional (M.emitter atom) depth result.length then_.code
        (some otherwise.code)).exec M.toMachine fuel stack s =
      (c.eval atom s).bind fun r =>
        ((if r.1 then then_ else otherwise).run r.2).map fun e => (e.1.at_ depth stack, e.2) := by
  unfold conditional
  split
  · rw [exec_seq, wrap_exec]
    cases c.eval atom s with
    | none => rfl
    | some r =>
      rcases r with ⟨b, s'⟩
      refine (exec_if_results _ _ _ b).trans ?_
      cases b with
      | true => exact leave_part then_
      | false => exact leave_part otherwise
  · exact complexConditional_exec atom c then_ otherwise

theorem conditional_exec_none (c : Condition E) (then_ : Part M fuel hasType depth []) :
    (c.conditional (M.emitter atom) depth 0 then_.code none).exec M.toMachine fuel stack s =
      (c.eval atom s).bind fun r =>
        if r.1 then (then_.run r.2).map fun e => (e.1.at_ depth stack, e.2)
        else some (.normal stack, r.2) := by
  unfold conditional
  split
  · rw [exec_seq, wrap_exec]
    cases c.eval atom s with
    | none => rfl
    | some r =>
      rcases r with ⟨b, s'⟩
      refine (exec_if_results _ _ _ b).trans ?_
      cases b with
      | true => exact leave_part then_
      | false => rfl
  · exact complexConditional_exec_none atom c then_

end Parts

/-- Conditions are evaluated with short circuit. `_branchIf` branches exactly if the value of the
condition differs from `negated`, `wrap` leaves the value, and `_conditional` runs the part that the
value selects and leaves its values, of the declared types, on the stack. -/
theorem conditions_shortCircuit (M : BoolMachine A V S) (fuel : Nat) (atom : E → Atom M fuel)
    (c : Condition E) (depth : Nat) (stack : List V) (s : S) :
    (∀ (target : Fin depth) (negated : Bool),
      Branches negated (depth - target - 1) stack
        ((c.branchIf (M.emitter atom) depth target negated).exec M.toMachine fuel stack s)
        (c.eval atom s)) ∧
    (c.wrap (M.emitter atom) depth).exec M.toMachine fuel stack s =
      (c.eval atom s).map (fun r => (.normal (M.bool r.1 :: stack), r.2)) ∧
    (∀ (T : Type) (hasType : V → T → Prop) (result : List T)
      (then_ otherwise : Part M fuel hasType depth result),
      (c.conditional (M.emitter atom) depth result.length then_.code
          (some otherwise.code)).exec M.toMachine fuel stack s =
        ((c.eval atom s).bind fun r =>
          ((if r.1 then then_ else otherwise).run r.2).map fun e => (e.1.at_ depth stack, e.2)) ∧
      ∀ r values s', c.eval atom s = some r →
        (if r.1 then then_ else otherwise).run r.2 = some (.normal values, s') →
        List.Forall₂ hasType values result) ∧
    ∀ (T : Type) (hasType : V → T → Prop) (then_ : Part M fuel hasType depth []),
      (c.conditional (M.emitter atom) depth 0 then_.code none).exec M.toMachine fuel stack s =
        (c.eval atom s).bind fun r =>
          if r.1 then (then_.run r.2).map fun e => (e.1.at_ depth stack, e.2)
          else some (.normal stack, r.2) := by
  refine ⟨fun target negated => branchIf_exec atom c target.2 negated stack s,
    wrap_exec atom c depth,
    fun T hasType result then_ otherwise => ⟨conditional_exec atom c then_ otherwise, ?_⟩,
    fun T hasType then_ => conditional_exec_none atom c then_⟩
  intro r values s' _ hrun
  exact Part.typed _ _ _ _ hrun

inductive SampleInstr
  | eqz
  | const (b : Bool)
  | isEven (n : Nat)

/-- A machine whose operands are bools and whose store lists the numbers that were tested. -/
def sampleMachine : BoolMachine SampleInstr Bool (List Nat) where
  act
    | .eqz, b :: stack, s => some ((!b) :: stack, s)
    | .const b, stack, s => some (b :: stack, s)
    | .isEven n, stack, s => some (decide (n % 2 = 0) :: stack, s ++ [n])
    | _, _, _ => none
  test b := some b
  bool := id
  i32Eqz := .eqz
  i32Const := .const
  test_bool _ := rfl
  act_i32Eqz _ _ _ := rfl
  act_i32Const _ _ _ := rfl

def sampleAtom (fuel n : Nat) : Atom sampleMachine fuel where
  code _ := .act (.isEven n)
  eval s := some (decide (n % 2 = 0), s ++ [n])
  exec_code _ _ _ := rfl

/-- `!(2.isEven && 3.isEven) || 5.isEven`, whose last operand is not evaluated. -/
def sampleCondition : Condition Nat :=
  .logical false (.not (.logical true (.atom 2) (.atom 3))) (.atom 5)

theorem conditions_shortCircuit_sample :
    sampleCondition.eval (sampleAtom 1) [] = some (true, [2, 3]) ∧
    (sampleCondition.wrap (sampleMachine.emitter (sampleAtom 1)) 1).exec sampleMachine.toMachine 1
      [false] [] = some (.normal [true, false], [2, 3]) ∧
    (∃ stack, (sampleCondition.branchIf (sampleMachine.emitter (sampleAtom 1)) 1 0 false).exec
      sampleMachine.toMachine 1 [false] [] = some (.branch 0 stack, [2, 3])) ∧
    (sampleCondition.conditional (sampleMachine.emitter (sampleAtom 1)) 1 1
      (fun _ => .act (.const true)) (some fun _ => .act (.const false))).exec
        sampleMachine.toMachine 1 [false] [] = some (.normal [true, false], [2, 3]) := by
  obtain ⟨hbranch, hwrap, hparts, -⟩ :=
    conditions_shortCircuit sampleMachine 1 (sampleAtom 1) sampleCondition 1 [false] []
  exact ⟨by decide, hwrap, hbranch 0 false,
    (hparts _ _ _ (constPart sampleMachine 1 1 true) (constPart sampleMachine 1 1 false)).1⟩

end Condition

end Dart2Wasm.CodeGenerator
