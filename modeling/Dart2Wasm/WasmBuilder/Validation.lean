import Dart2Wasm.WasmBuilder.Execution

/-!
# WasmBuilder.Validation — what the validator knows about the code it accepts

The code between two points of an accepted instruction sequence is again accepted, from the state
of the validator at the first point. From such a state the validator must reach the `end` of every
open block, and it reaches it with the types that were on the stack when the block was entered
still below the results of the block: this is where a branch to the block continues.
-/

namespace Dart2Wasm.WasmBuilder

open Lib ValidatorState List

variable {outputs : List ValueType} {label n : Label}
variable {inputs : List ValueType} {code : List (Instr Nat)}

/-! ## Where the validator is exact -/

/-- The operands that a branch to the label takes are operands of the innermost block, when
`popped` operands have been taken from the stack and `pushed` put on it. -/
def ValidatorState.BranchInBlock (s : ValidatorState) (popped pushed : Nat) (l : Nat) : Prop :=
  ∀ label block, s.findLabel l = .ok label → s.topOfLabelStack = .ok block →
    block.baseStackHeight + label.targetTypes.length ≤ (s.stackTypes.length : Int) - popped + pushed

/-- The three checks that the validator leaves out: an `if` without `else` has inputs that are
subtypes of its outputs, a branch takes its operands from the innermost block, and `struct_set`
writes to a mutable field. -/
def ValidatorState.Guarded (ctx : InstrContext) (s : ValidatorState) : InstrCall → Prop
  | .end_ => ∀ label, s.topOfLabelStack = .ok label → label.kind = .if_ false →
      label.reachable = true → List.Forall₂ (ValueSub ctx.types) label.inputs label.outputs
  | .br l => s.reachable = true → s.BranchInBlock 0 0 l
  | .brIf l => s.reachable = true → s.BranchInBlock 1 0 l
  | .brTable ls l => s.reachable = true → ∀ l' ∈ ls ++ [l], s.BranchInBlock 1 0 l'
  | .brOnNull l => s.reachable = true → s.BranchInBlock 1 0 l
  | .brOnNonNull l => s.reachable = true → s.BranchInBlock 1 1 l
  | .plain (.structSet d i) => s.reachable = true →
      ∀ f, ctx.fieldType? d i = some f → f.mutable = true
  | _ => True

/-- From the state, the validator accepts a sequence of calls that emits the code and completes the
instruction sequence. -/
inductive Accepted (ctx : InstrContext) : ValidatorState → List (Instr Nat) → Prop
  | complete {s : ValidatorState} (h : s.labelStack = []) : Accepted ctx s []
  | call {s s' : ValidatorState} {c : InstrCall} {i : Instr Nat} {code : List (Instr Nat)}
      (hverify : s.verify ctx c = .ok (s', i)) (hguard : s.Guarded ctx c)
      (hrest : Accepted ctx s' code) : Accepted ctx s (i :: code)

theorem accepted_of_run {ctx : InstrContext} {calls : List InstrCall} {b b' : Instructions}
    (hrun : Lib.run (Instructions.step ctx) b calls = .ok b')
    (hguard : Lib.Along (Instructions.step ctx) (fun b c => b.state.Guarded ctx c) b calls)
    (hcomplete : b'.isComplete = true) :
    ∃ code, b'.code = b.code ++ code ∧ Accepted ctx b.state code := by
  induction calls generalizing b with
  | nil =>
    obtain rfl : b = b' := by simpa using hrun
    exact ⟨[], by simp, .complete (by simpa [Instructions.isComplete] using hcomplete)⟩
  | cons c calls ih =>
    obtain ⟨b₁, hstep, hrest⟩ := run_cons_ok.1 hrun
    obtain ⟨⟨s, i⟩, hverify, hb₁⟩ := bind_eq_ok.1 hstep
    obtain ⟨code, hcode, haccepted⟩ := ih hrest (hguard.2 b₁ hstep)
    cases hb₁
    exact ⟨i :: code, by simpa using hcode, .call hverify hguard.1 haccepted⟩

variable {ctx : InstrContext} {s s' : ValidatorState}

/-! ## What each check establishes -/

namespace ValidatorState

theorem topOfLabelStack_eq_ok {l : Label} :
    s.topOfLabelStack = .ok l ↔ ∃ labels, s.labelStack = l :: labels := by
  rw [topOfLabelStack]
  cases s.labelStack <;> simp

theorem checkStackTypes_ok {stack : List ValueType}
    (h : checkStackTypes ctx inputs.reverse (stack.take inputs.length) = .ok ()) :
    List.Forall₂ (ValueSub ctx.types) (stack.take inputs.length) inputs.reverse := by
  rw [checkStackTypes] at h
  split at h
  · cases h
  rename_i hshort
  split at h
  · rename_i hchecked
    refine forall₂_of_checkAll (fun _ _ => .of_isSubtypeOfWith) ?_ hchecked
    refine Nat.le_antisymm ?_ (Nat.not_lt.1 hshort)
    rw [length_reverse]
    exact length_take_le _ _
  · cases h
  · cases h

theorem verifyTypes_unreachable (hr : s.reachable = false) :
    s.verifyTypes ctx inputs outputs = .ok s := by
  simp [verifyTypes, hr]

/-- Where the code is reachable, the inputs are on the stack above the base of the innermost block,
and become the outputs. -/
theorem verifyTypes_ok (hr : s.reachable = true) (h : s.verifyTypes ctx inputs outputs = .ok s') :
    ∃ l labels, s.labelStack = l :: labels ∧
      l.baseStackHeight + inputs.length ≤ s.stackTypes.length ∧
      List.Forall₂ (ValueSub ctx.types) (s.stackTypes.take inputs.length) inputs.reverse ∧
      s' = { s with stackTypes := outputs.reverse ++ s.stackTypes.drop inputs.length } := by
  rw [verifyTypes, if_pos hr] at h
  obtain ⟨l, hl, h⟩ := bind_eq_ok.1 h
  obtain ⟨labels, hlabels⟩ := topOfLabelStack_eq_ok.1 hl
  split at h
  · cases h
  · rename_i hbase
    obtain ⟨u, hcheck, h⟩ := bind_eq_ok.1 h
    refine ⟨l, labels, hlabels, by omega, ?_, ?_⟩
    · exact checkStackTypes_ok hcheck
    · exact (Except.ok.inj h).symm

theorem verifyTypes_labels (h : s.verifyTypes ctx inputs outputs = .ok s') :
    s'.labelStack = s.labelStack ∧ s'.reachable = s.reachable ∧ s'.labelCount = s.labelCount := by
  cases hr : s.reachable with
  | false =>
    rw [verifyTypes_unreachable hr] at h
    cases h
    exact ⟨rfl, hr, rfl⟩
  | true =>
    obtain ⟨l, labels, _, _, _, rfl⟩ := verifyTypes_ok hr h
    exact ⟨rfl, hr, rfl⟩

theorem verifyBranchTypes_ok {popped : Nat} {pushed : List ValueType}
    (hr : s.reachable = true) (h : s.verifyBranchTypes ctx label popped pushed = .ok ()) :
    List.Forall₂ (ValueSub ctx.types)
      ((pushed.reverse ++ s.stackTypes.drop popped).take label.targetTypes.length)
      label.targetTypes.reverse := by
  rw [verifyBranchTypes, if_pos hr] at h
  dsimp only at h
  split at h
  · cases h
  · exact checkStackTypes_ok h

theorem verifyEndOfBlock_results
    (hr : s.reachable = true) (h : s.verifyEndOfBlock ctx label outputs = .ok s') :
    (s.stackTypes.length : Int) = label.baseStackHeight + label.outputs.length ∧
      List.Forall₂ (ValueSub ctx.types) (s.stackTypes.take label.outputs.length)
        label.outputs.reverse := by
  obtain ⟨u, hresults, _⟩ := bind_eq_ok.1 h
  rw [checkResults, if_pos hr] at hresults
  split at hresults
  · cases hresults
  · rename_i hheight
    exact ⟨not_not.1 hheight, checkStackTypes_ok hresults⟩

theorem verifyEndOfBlock_state (h : s.verifyEndOfBlock ctx label outputs = .ok s') :
    (label.reachable = false ∧ s' = s) ∨
      (label.reachable = true ∧ label.baseStackHeight ≤ s.stackTypes.length ∧
        s' = { s with
          stackTypes := outputs.reverse ++
            s.stackTypes.drop (s.stackTypes.length - label.baseStackHeight.toNat) }) := by
  obtain ⟨u, _, h⟩ := bind_eq_ok.1 h
  rw [rewindTo] at h
  split at h
  · rename_i hl
    split at h
    · cases h
    · rename_i hbase
      exact Or.inr ⟨hl, Int.not_lt.1 hbase, (Except.ok.inj h).symm⟩
  · rename_i hl
    exact Or.inl ⟨Bool.eq_false_iff.2 hl, (Except.ok.inj h).symm⟩

/-! ## What each call does to the two stacks -/

/-- The effect of a call on the label stack and on the types, by the nesting of the instruction it
emits. -/
inductive Moves (ctx : InstrContext) (s : ValidatorState) : Nesting → ValidatorState → Prop
  | straight {inputs outputs : List ValueType} {s₁ s' : ValidatorState}
      (hverify : s.verifyTypes ctx inputs outputs = .ok s₁)
      (hlabels : s'.labelStack = s₁.labelStack)
      (htypes : s'.stackTypes = s₁.stackTypes) (hr : s'.reachable = true → s₁.reachable = true) :
      Moves ctx s .straight s'
  | opens {kind : LabelKind} {inputs outputs : List ValueType} {s₁ s' : ValidatorState}
      (hverify : s₁ = s ∨ s.verifyTypes ctx [.i32] [] = .ok s₁)
      (hbegin : s₁.beginBlock ctx kind inputs outputs = .ok s') : Moves ctx s .opens s'
  | separates {l : Label} {labels : List Label} {s₁ : ValidatorState}
      (hlabels : s.labelStack = l :: labels) (hkind : l.kind = .if_ false)
      (hverify : s.verifyEndOfBlock ctx l l.inputs = .ok s₁) :
      Moves ctx s .separates
        { s₁ with labelStack := { l with kind := .if_ true } :: labels, reachable := l.reachable }
  | closes {l : Label} {labels : List Label} {s₁ : ValidatorState}
      (hlabels : s.labelStack = l :: labels) (hguard : s.Guarded ctx .end_)
      (hverify : s.verifyEndOfBlock ctx l l.outputs = .ok s₁) :
      Moves ctx s .closes { s₁ with labelStack := labels, reachable := l.reachable }

theorem verifyEndOfBlock_labels
    (h : s.verifyEndOfBlock ctx label outputs = .ok s') : s'.labelStack = s.labelStack := by
  rcases verifyEndOfBlock_state h with ⟨_, rfl⟩ | ⟨_, _, rfl⟩
  · rfl
  · rfl

theorem verifyCallRef_moves (h : s.verifyCallRef ctx = .ok s') : Moves ctx s .straight s' := by
  rw [verifyCallRef] at h
  split at h
  · obtain ⟨fn, _, h⟩ := bind_eq_ok.1 h
    split at h
    · split at h
      · exact .straight h rfl rfl id
      · cases h
    · cases h
  · rename_i hr
    have hsame : s.verifyTypes ctx [] [] = .ok s' :=
      (verifyTypes_unreachable (Bool.eq_false_iff.2 hr)).trans h
    exact .straight hsame rfl rfl id

theorem verify_moves {c : InstrCall} {i : Instr Nat} (h : s.verify ctx c = .ok (s', i))
    (hguard : s.Guarded ctx c) : Moves ctx s i.nesting s' := by
  cases c with
  | plain p =>
    simp only [verify] at h
    split at h
    · cases h
    · obtain ⟨s₁, hv, h⟩ := bind_eq_ok.1 h
      cases h
      exact .straight hv rfl rfl id
  | unreachable =>
    obtain ⟨s₁, hv, h⟩ := bind_eq_ok.1 h
    cases h
    exact .straight hv rfl rfl (nomatch ·)
  | drop =>
    obtain ⟨top, _, h⟩ := bind_eq_ok.1 h
    obtain ⟨s₁, hv, h⟩ := bind_eq_ok.1 h
    cases h
    exact .straight hv rfl rfl id
  | callRef =>
    obtain ⟨s₁, hv, h⟩ := bind_eq_ok.1 h
    cases h
    exact verifyCallRef_moves hv
  | return_ =>
    simp only [verify] at h
    split at h
    · cases h
    · obtain ⟨s₁, hv, h⟩ := bind_eq_ok.1 h
      cases h
      exact .straight hv rfl rfl (nomatch ·)
  | block | loop =>
    obtain ⟨s₁, hb, h⟩ := bind_eq_ok.1 h
    cases h
    exact .opens (Or.inl rfl) hb
  | if_ inputs outputs =>
    obtain ⟨s₁, hv, h⟩ := bind_eq_ok.1 h
    obtain ⟨s₂, hb, h⟩ := bind_eq_ok.1 h
    cases h
    exact .opens (Or.inr hv) hb
  | else_ =>
    obtain ⟨l, hl, h⟩ := bind_eq_ok.1 h
    obtain ⟨labels, hlabels⟩ := topOfLabelStack_eq_ok.1 hl
    split at h
    · rename_i hkind
      obtain ⟨s₁, hv, h⟩ := bind_eq_ok.1 h
      rw [verifyEndOfBlock_labels hv, hlabels] at h
      cases h
      exact .separates hlabels hkind hv
    · cases h
    · cases h
  | end_ =>
    obtain ⟨l, hl, h⟩ := bind_eq_ok.1 h
    obtain ⟨labels, hlabels⟩ := topOfLabelStack_eq_ok.1 hl
    obtain ⟨s₁, hv, h⟩ := bind_eq_ok.1 h
    rw [verifyEndOfBlock_labels hv, hlabels] at h
    cases h
    exact .closes hlabels hguard hv
  | br l =>
    obtain ⟨label, _, h⟩ := bind_eq_ok.1 h
    obtain ⟨s₁, hv, h⟩ := bind_eq_ok.1 h
    obtain ⟨u, _, h⟩ := bind_eq_ok.1 h
    cases h
    exact .straight hv rfl rfl (nomatch ·)
  | brIf l =>
    obtain ⟨label, _, h⟩ := bind_eq_ok.1 h
    obtain ⟨s₁, hv, h⟩ := bind_eq_ok.1 h
    obtain ⟨u, _, h⟩ := bind_eq_ok.1 h
    cases h
    exact .straight hv rfl rfl id
  | brTable ls l =>
    obtain ⟨labels, _, h⟩ := bind_eq_ok.1 h
    obtain ⟨label, _, h⟩ := bind_eq_ok.1 h
    obtain ⟨s₁, hv, h⟩ := bind_eq_ok.1 h
    obtain ⟨u, _, h⟩ := bind_eq_ok.1 h
    cases h
    exact .straight hv rfl rfl (nomatch ·)
  | brOnNull l =>
    obtain ⟨label, _, h⟩ := bind_eq_ok.1 h
    obtain ⟨top, _, h⟩ := bind_eq_ok.1 h
    obtain ⟨s₁, hv, h⟩ := bind_eq_ok.1 h
    obtain ⟨u, _, h⟩ := bind_eq_ok.1 h
    cases h
    exact .straight hv rfl rfl id
  | brOnNonNull l =>
    obtain ⟨label, _, h⟩ := bind_eq_ok.1 h
    obtain ⟨top, _, h⟩ := bind_eq_ok.1 h
    obtain ⟨u, _, h⟩ := bind_eq_ok.1 h
    obtain ⟨s₁, hv, h⟩ := bind_eq_ok.1 h
    cases h
    exact .straight hv rfl rfl id

end ValidatorState

/-! ## Inside a block -/

/-- Code in which the label of a block can be reached is inside blocks that can be reached. -/
def LiveWithin : Bool → List Label → Prop
  | _, [] => True
  | r, l :: labels => (r = true → l.reachable = true) ∧ LiveWithin l.reachable labels

/-- The validator is in the block of `l`, inside the nested blocks of `inner`. The types `below`, on
the stack when the block was entered, are still there. -/
structure Within (s : ValidatorState) (inner : List Label) (l : Label) (labels : List Label)
    (below : List ValueType) : Prop where
  labels : s.labelStack = inner ++ l :: labels
  types : ∃ above, s.stackTypes = above ++ below
  base : l.baseStackHeight = below.length
  reachable : l.reachable = true
  innerBase : ∀ n ∈ inner, n.reachable = true → (below.length : Int) ≤ n.baseStackHeight
  live : LiveWithin s.reachable inner

namespace Within

variable {inner : List Label} {l : Label} {labels : List Label} {below : List ValueType}

section

variable (h : Within s inner l labels below)
include h

/-- The types of the innermost block are above the types `below`. -/
theorem below_le_top (hr : s.reachable = true) {top : Label} {rest : List Label}
    (htop : s.labelStack = top :: rest) : (below.length : Int) ≤ top.baseStackHeight := by
  have hlabels := h.labels.symm.trans htop
  cases inner with
  | nil =>
    obtain rfl : l = top := (cons.inj hlabels).1
    exact Int.le_of_eq h.base.symm
  | cons n inner =>
    obtain rfl : n = top := (cons.inj hlabels).1
    exact h.innerBase n (by simp) (h.live.1 hr)

theorem verifyTypes
    (hv : s.verifyTypes ctx inputs outputs = .ok s') : Within s' inner l labels below := by
  cases hr : s.reachable with
  | false =>
    obtain rfl := Except.ok.inj ((verifyTypes_unreachable hr).symm.trans hv)
    exact h
  | true =>
    obtain ⟨top, rest, htop, hbase, _, rfl⟩ := verifyTypes_ok hr hv
    have hle := h.below_le_top hr htop
    obtain ⟨above, habove⟩ := h.types
    refine ⟨h.labels, ⟨outputs.reverse ++ above.drop inputs.length, ?_⟩, h.base, h.reachable,
      h.innerBase, h.live⟩
    have hlen : inputs.length ≤ above.length := by
      rw [habove, length_append] at hbase
      omega
    rw [habove, drop_append_of_le_length hlen, append_assoc]

/-- A call that emits no control instruction stays inside. -/
theorem straight (hmoves : s.Moves ctx .straight s') : Within s' inner l labels below := by
  cases hmoves with
  | straight hverify hlabels htypes hr =>
    have h₁ := h.verifyTypes hverify
    refine ⟨hlabels.trans h₁.labels, htypes ▸ h₁.types, h.base, h.reachable, h.innerBase, ?_⟩
    cases inner with
    | nil => trivial
    | cons n inner => exact ⟨fun hr' => h₁.live.1 (hr hr'), h₁.live.2⟩

theorem beginBlock {kind : LabelKind} (hb : s.beginBlock ctx kind inputs outputs = .ok s') :
    ∃ n, Within s' (n :: inner) l labels below := by
  obtain ⟨s₁, hv, hb⟩ := bind_eq_ok.1 hb
  have h₁ := h.verifyTypes hv
  cases hb
  refine ⟨_, congrArg (cons _) h₁.labels, h₁.types, h.base, h.reachable, ?_, id, h₁.live⟩
  intro n hn hlive
  rcases mem_cons.1 hn with rfl | hn
  · -- The new block is entered with its inputs on the stack of the innermost block.
    have hr : s.reachable = true := (verifyTypes_labels hv).2.1 ▸ hlive
    obtain ⟨top, rest, htop, hbase, _, rfl⟩ := verifyTypes_ok hr hv
    have hle := h.below_le_top hr htop
    have hlen : inputs.length ≤ s.stackTypes.length := by omega
    simp only [length_append, length_reverse, length_drop]
    omega
  · exact h.innerBase n hn hlive

theorem opens (hmoves : s.Moves ctx .opens s') : ∃ n, Within s' (n :: inner) l labels below := by
  cases hmoves with
  | opens hverify hbegin =>
    rcases hverify with rfl | hverify
    · exact h.beginBlock hbegin
    · exact (h.verifyTypes hverify).beginBlock hbegin

end

section

variable (h : Within s (n :: inner) l labels below)
include h

/-- Rewinding to a nested block leaves the types `below`. -/
theorem verifyEndOfBlock (hv : s.verifyEndOfBlock ctx n outputs = .ok s') :
    ∃ above, s'.stackTypes = above ++ below := by
  obtain ⟨above, habove⟩ := h.types
  rcases verifyEndOfBlock_state hv with ⟨_, rfl⟩ | ⟨hn, hheight, rfl⟩
  · exact ⟨above, habove⟩
  · have hbase := h.innerBase n (by simp) hn
    refine ⟨outputs.reverse ++ above.drop (s.stackTypes.length - n.baseStackHeight.toNat), ?_⟩
    have hlen : s.stackTypes.length - n.baseStackHeight.toNat ≤ above.length := by
      rw [habove, length_append]
      omega
    rw [append_assoc, ← drop_append_of_le_length hlen, ← habove]

theorem innerElse
    (hmoves : s.Moves ctx .separates s') : ∃ n', Within s' (n' :: inner) l labels below := by
  cases hmoves with
  | separates hlabels hkind hverify =>
    obtain ⟨rfl, rfl⟩ := cons.inj (hlabels.symm.trans h.labels)
    obtain ⟨above, habove⟩ := h.verifyEndOfBlock hverify
    have hbase := h.innerBase _ mem_cons_self
    refine ⟨_, rfl, ⟨above, habove⟩, h.base, h.reachable, ?_, id, h.live.2⟩
    intro m hm hlive
    rcases mem_cons.1 hm with rfl | hm
    · exact hbase hlive
    · exact h.innerBase m (mem_cons_of_mem _ hm) hlive

theorem innerEnd (hmoves : s.Moves ctx .closes s') : Within s' inner l labels below := by
  cases hmoves with
  | closes hlabels hguard hverify =>
    obtain ⟨rfl, rfl⟩ := cons.inj (hlabels.symm.trans h.labels)
    obtain ⟨above, habove⟩ := h.verifyEndOfBlock hverify
    exact ⟨rfl, ⟨above, habove⟩, h.base, h.reachable,
      fun m hm => h.innerBase m (mem_cons_of_mem _ hm), h.live.2⟩

end

variable (h : Within s [] l labels below)
include h

/-- At the `else` and at the `end` of the block itself, exactly the types `below` are left. -/
theorem rewind (hv : s.verifyEndOfBlock ctx l outputs = .ok s') :
    s'.stackTypes = outputs.reverse ++ below := by
  obtain ⟨above, habove⟩ := h.types
  rcases verifyEndOfBlock_state hv with ⟨hl, _⟩ | ⟨_, _, rfl⟩
  · exact absurd (hl.symm.trans h.reachable) (by decide)
  · have hdrop : s.stackTypes.length - l.baseStackHeight.toNat = above.length := by
      rw [habove, length_append, h.base]
      exact Nat.add_sub_cancel _ _
    rw [hdrop, habove, drop_left]

theorem ownElse (hmoves : s.Moves ctx .separates s') :
    l.kind = .if_ false ∧
      s' = ⟨s'.labelCount, { l with kind := .if_ true } :: labels, l.inputs.reverse ++ below,
        true⟩ ∧
      Within s' [] { l with kind := .if_ true } labels below := by
  cases hmoves with
  | separates hlabels hkind hverify =>
    obtain ⟨rfl, rfl⟩ := cons.inj (hlabels.symm.trans h.labels)
    have htypes := h.rewind hverify
    refine ⟨hkind, ?_, rfl, ⟨_, htypes⟩, h.base, h.reachable, by simp, trivial⟩
    rw [← htypes, ← h.reachable]

theorem ownEnd (hmoves : s.Moves ctx .closes s') :
    s.Guarded ctx .end_ ∧ s' = ⟨s'.labelCount, labels, l.outputs.reverse ++ below, true⟩ := by
  cases hmoves with
  | closes hlabels hguard hverify =>
    obtain ⟨rfl, rfl⟩ := cons.inj (hlabels.symm.trans h.labels)
    refine ⟨hguard, ?_⟩
    rw [← h.rewind hverify, ← h.reachable]

end Within

/-! ## The code that branches lead to -/

/-- From inside a block, the code after its `end` is accepted with the results of the block on the
stack. From inside the first branch of an `if`, the code after its `else` is accepted with the
inputs of the `if` on the stack; without `else`, the inputs can stand for the outputs. -/
theorem Accepted.leaves (haccepted : Accepted ctx s code) {inner : List Label} {l : Label}
    {labels : List Label} {below : List ValueType} (h : Within s inner l labels below) :
    (∃ count, Accepted ctx ⟨count, labels, l.outputs.reverse ++ below, true⟩
      (afterEnd inner.length code)) ∧
    (l.kind = .if_ false →
      (∃ code' count, afterElse inner.length code = some code' ∧ Accepted ctx
        ⟨count, { l with kind := .if_ true } :: labels, l.inputs.reverse ++ below, true⟩ code') ∨
      (afterElse inner.length code = none ∧
        List.Forall₂ (ValueSub ctx.types) l.inputs l.outputs)) := by
  -- Induction over the accepted calls; the nesting decides whether the block is still open.
  induction haccepted generalizing inner l with
  | complete hempty => exact absurd (h.labels.symm.trans hempty) (by simp)
  | @call s s' c i code hverify hguard hrest ih =>
    have hmoves := verify_moves hverify hguard
    cases hn : i.nesting <;> rw [hn] at hmoves <;> simp only [afterEnd, afterElse, hn]
    case straight => exact ih (h.straight hmoves)
    case opens =>
      obtain ⟨n, hopen⟩ := h.opens hmoves
      exact ih hopen
    case separates =>
      cases inner with
      | nil =>
        have hnext := (ih (h.ownElse hmoves).2.2).1
        exact ⟨hnext, fun _ =>
          Or.inl ⟨code, s'.labelCount, rfl, (h.ownElse hmoves).2.1 ▸ hrest⟩⟩
      | cons n inner =>
        obtain ⟨n', hopen⟩ := h.innerElse hmoves
        have hnext := ih hopen
        exact hnext
    case closes =>
      cases inner with
      | nil =>
        refine ⟨⟨s'.labelCount, (h.ownEnd hmoves).2 ▸ hrest⟩, fun hkind => ?_⟩
        refine Or.inr ⟨rfl, (h.ownEnd hmoves).1 l ?_ hkind h.reachable⟩
        exact topOfLabelStack_eq_ok.2 ⟨labels, h.labels⟩
      | cons n inner => exact ih (h.innerEnd hmoves)

end Dart2Wasm.WasmBuilder
