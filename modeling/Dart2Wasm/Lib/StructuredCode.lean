/-!
# StructuredCode — code with blocks, loops and branches to labels

Structured control in the manner of a stack machine: a branch names the label it leaves by counting
the enclosing ones, a block or loop sees only the operands that it takes as parameters, and leaving
it keeps as many operands as the label asks for. What the basic instructions do is left to a
`Machine`.

Every loop is given the same bound on its number of iterations, so that a compiler which turns loops
into loops can be stated to preserve the result for each bound, runs that do not end included.
-/

namespace Dart2Wasm.Lib

/-- Code over basic instructions `A`. Blocks, loops and conditionals carry the number of operands
they take and, except for loops, the number they leave. -/
inductive Code (A : Type)
  | skip
  | seq (first second : Code A)
  | act (a : A)
  | block (params results : Nat) (body : Code A)
  | loop (params results : Nat) (body : Code A)
  | if_ (params results : Nat) (thenCode elseCode : Code A)
  | br (label : Nat)
  | brIf (label : Nat)
  | ret

/-- Operands `V`, store `S` and what the basic instructions do with them. -/
structure Machine (A V S : Type) where
  act : A → List V → S → Option (List V × S)
  -- Whether an operand used as a condition holds.
  test : V → Option Bool

/-- How code ends: at its end, by a branch, or by returning from the function. -/
inductive Outcome (V : Type)
  | normal (stack : List V)
  | branch (label : Nat) (stack : List V)
  | returned (stack : List V)
  deriving DecidableEq

/-- Leave a block: a branch to its label ends it, a branch further out goes on. -/
def Outcome.leave {V : Type} (results : Nat) (base : List V) : Outcome V → Outcome V
  | .normal stack => .normal (stack.take results ++ base)
  | .branch 0 stack => .normal (stack.take results ++ base)
  | .branch (label + 1) stack => .branch label stack
  | .returned stack => .returned stack

namespace Code

variable {A V S : Type}

/-- The instructions of a list in sequence. -/
def seqs : List (Code A) → Code A
  | [] => .skip
  | c :: cs => .seq c (seqs cs)

/-- Run a loop body until it does not branch to the loop, at most `fuel` times. -/
def iterate (body : List V → S → Option (Outcome V × S)) (params results : Nat) (base : List V) :
    Nat → List V → S → Option (Outcome V × S)
  | 0, _, _ => none
  | fuel + 1, stack, s =>
    match body stack s with
    | some (.branch 0 stack', s') =>
      iterate body params results base fuel (stack'.take params) s'
    | some (o, s') => some (o.leave results base, s')
    | none => none

theorem iterate_again {body : List V → S → Option (Outcome V × S)} {params results : Nat}
    {base stack stack' : List V} {s s' : S} (h : body stack s = some (.branch 0 stack', s'))
    (fuel : Nat) :
    iterate body params results base (fuel + 1) stack s =
      iterate body params results base fuel (stack'.take params) s' := by
  rw [iterate, h]
  rfl

theorem iterate_exit {body : List V → S → Option (Outcome V × S)} {params results : Nat}
    {base stack : List V} {s : S}
    (h : ∀ stack' s', body stack s ≠ some (.branch 0 stack', s')) (fuel : Nat) :
    iterate body params results base (fuel + 1) stack s =
      (body stack s).map fun r => (r.1.leave results base, r.2) := by
  rw [iterate]
  rcases hbody : body stack s with _ | ⟨_ | ⟨_ | _, _⟩ | _, _⟩
  · rfl
  · rfl
  · exact absurd hbody (h _ _)
  · rfl
  · rfl

/-- The result is `none` if the code traps or one of its loops needs more than `fuel` iterations. -/
def exec (m : Machine A V S) (fuel : Nat) : Code A → List V → S → Option (Outcome V × S)
  | .skip, stack, s => some (.normal stack, s)
  | .seq c d, stack, s =>
    match exec m fuel c stack s with
    | some (.normal stack', s') => exec m fuel d stack' s'
    | r => r
  | .act a, stack, s => (m.act a stack s).map fun r => (.normal r.1, r.2)
  | .block params results body, stack, s =>
    (exec m fuel body (stack.take params) s).map fun r =>
      (r.1.leave results (stack.drop params), r.2)
  | .loop params results body, stack, s =>
    iterate (exec m fuel body) params results (stack.drop params) fuel (stack.take params) s
  | .if_ params results thenCode elseCode, stack, s =>
    match stack with
    | [] => none
    | v :: stack =>
      match m.test v with
      | none => none
      | some true =>
        (exec m fuel thenCode (stack.take params) s).map fun r =>
          (r.1.leave results (stack.drop params), r.2)
      | some false =>
        (exec m fuel elseCode (stack.take params) s).map fun r =>
          (r.1.leave results (stack.drop params), r.2)
  | .br label, stack, s => some (.branch label stack, s)
  | .brIf label, stack, s =>
    match stack with
    | [] => none
    | v :: stack =>
      match m.test v with
      | none => none
      | some true => some (.branch label stack, s)
      | some false => some (.normal stack, s)
  | .ret, stack, s => some (.returned stack, s)

/-! ## Rules -/

section Rules

variable {m : Machine A V S} {fuel : Nat} {stack stack' : List V} {s s' : S}

theorem exec_seq (c d : Code A) :
    exec m fuel (.seq c d) stack s =
      match exec m fuel c stack s with
      | some (.normal stack', s') => exec m fuel d stack' s'
      | r => r :=
  rfl

theorem exec_act (a : A) :
    exec m fuel (.act a) stack s = (m.act a stack s).map fun r => (.normal r.1, r.2) :=
  rfl

theorem exec_seq_normal {c d : Code A} (h : exec m fuel c stack s = some (.normal stack', s')) :
    exec m fuel (.seq c d) stack s = exec m fuel d stack' s' := by
  rw [exec_seq, h]

theorem exec_act_seq {a : A} {d : Code A} (h : m.act a stack s = some (stack', s')) :
    exec m fuel (.seq (.act a) d) stack s = exec m fuel d stack' s' := by
  apply exec_seq_normal
  rw [exec_act, h]
  rfl

theorem exec_seq_branch {c d : Code A} {x : Option (List V × S)} {label : Nat}
    (h : exec m fuel c stack s = x.map fun r => (.branch label r.1, r.2)) :
    exec m fuel (.seq c d) stack s = x.map fun r => (.branch label r.1, r.2) := by
  rw [exec_seq, h]
  cases x with
  | none => rfl
  | some r => rfl

theorem exec_seq_assoc (c d e : Code A) :
    exec m fuel (.seq (.seq c d) e) stack s = exec m fuel (.seq c (.seq d e)) stack s := by
  rw [exec_seq, exec_seq, exec_seq]
  rcases exec m fuel c stack s with _ | ⟨_ | _ | _, _⟩ <;> rfl

/-- A block without parameters and results starts with an empty stack. -/
theorem exec_block (c : Code A) :
    exec m fuel (.block 0 0 c) stack s =
      (exec m fuel c [] s).map fun r => (r.1.leave 0 stack, r.2) :=
  rfl

theorem exec_loop (c : Code A) :
    exec m fuel (.loop 0 0 c) stack s = iterate (exec m fuel c) 0 0 stack fuel [] s :=
  rfl

theorem exec_if {c d : Code A} {v : V} {b : Bool} (h : m.test v = some b) :
    exec m fuel (.if_ 0 0 c d) (v :: stack) s =
      (exec m fuel (if b then c else d) [] s).map fun r => (r.1.leave 0 stack, r.2) := by
  rw [exec, h]
  cases b with
  | false => rfl
  | true => rfl

theorem exec_seq_skip (c : Code A) :
    exec m fuel (.seq c .skip) stack s = exec m fuel c stack s := by
  rw [exec_seq]
  rcases exec m fuel c stack s with _ | ⟨_ | _ | _, _⟩ <;> rfl

end Rules

end Code

end Dart2Wasm.Lib
