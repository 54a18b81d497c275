import Dart2Wasm.WasmBuilder.Validation
import Dart2Wasm.WasmBuilder.ValueTyping

/-!
# WasmBuilder.Soundness — code that passes the validator does not get stuck

A configuration of the machine is well typed when the validator, in some state, accepts the code
that is still to be executed, and the operands of all open blocks have the types that this state
records for them. Every step of a well-typed configuration finds its operands and leads to a
well-typed configuration again, as long as the calls meet the three conditions that the validator
does not check itself.
-/

namespace Dart2Wasm.WasmBuilder

open Lib ValidatorState Config List Label

variable {ctx : InstrContext} {heap heap' : Heap}
variable {ts outputs below : List ValueType} {l : Label} {rest : List Label} {ordinal : Nat}
  {c : Config}
variable {vs : List Val} {inputs : List ValueType} {count : Nat}

/-! ## Frames and labels -/

/-- The frame of the block of label `l`, entered inside the blocks of `labels` on a stack of types
`below`. The code that a branch to it leads to is accepted. -/
structure Frame.Matches (ctx : InstrContext) (f : Frame) (l : Label) (labels : List Label)
    (below : List ValueType) : Prop where
  target : f.targetTypes = l.targetTypes
  results : f.results = l.outputs
  continuation : ∃ count, Accepted ctx ⟨count, labels, l.outputs.reverse ++ below, true⟩
    f.continuation
  loopBody : (f.loopBody = none ∧ l.targetTypes = l.outputs) ∨
    ∃ body count, f.loopBody = some body ∧ l.targetTypes = l.inputs ∧
      Accepted ctx ⟨count, l :: labels, l.inputs.reverse ++ below, true⟩ body

/-- The operands of the innermost block are `stack`, those of the enclosing blocks are in the
frames; together they have the types on the stack of the validator. -/
inductive Layout (ctx : InstrContext) (heap : Heap) :
    List Label → List ValueType → List Val → List Frame → Prop
  | body {types : List ValueType} {stack : List Val}
      (hstack : HasTypes ctx.types heap stack types) :
      Layout ctx heap [Label.expression ctx.outputs] types stack []
  | block {l : Label} {labels : List Label} {types below : List ValueType} {stack : List Val}
      {f : Frame} {frames : List Frame} (hstack : HasTypes ctx.types heap stack types)
      (hbase : l.baseStackHeight = below.length) (hdepth : l.depth = labels.length)
      (hreachable : l.reachable = true) (hmatches : f.Matches ctx l labels below)
      (hrest : Layout ctx heap labels below f.below frames) :
      Layout ctx heap (l :: labels) (types ++ below) stack (f :: frames)

namespace Layout

variable {labels : List Label} {types : List ValueType} {stack : List Val} {frames : List Frame}

theorem extend (h : Layout ctx heap labels types stack frames) (hext : HeapExtends heap heap') :
    Layout ctx heap' labels types stack frames := by
  induction h with
  | body hstack => exact .body (hstack.extend hext)
  | block hstack hbase hdepth hreachable hmatches _ ih =>
    exact .block (hstack.extend hext) hbase hdepth hreachable hmatches ih

theorem push (h : Layout ctx heap labels types stack frames) (hvs : HasTypes ctx.types heap vs ts) :
    Layout ctx heap labels (ts ++ types) (vs ++ stack) frames := by
  cases h with
  | body hstack => exact .body (rel_append hvs hstack)
  | block hstack hbase hdepth hreachable hmatches hrest =>
    rw [← append_assoc]
    exact .block (rel_append hvs hstack) hbase hdepth hreachable hmatches hrest

/-- Types above the base of the innermost block are types of its operands. -/
theorem pop {n : Nat} (h : Layout ctx heap (l :: rest) types stack frames)
    (hn : l.baseStackHeight + n ≤ types.length) :
    ∃ args stack', stack = args ++ stack' ∧ HasTypes ctx.types heap args (types.take n) ∧
      Layout ctx heap (l :: rest) (types.drop n) stack' frames := by
  cases h with
  | body hstack =>
    rw [← take_append_drop n types] at hstack
    obtain ⟨args, stack', rfl, hargs, hstack'⟩ := forall₂_append_right hstack
    exact ⟨args, stack', rfl, hargs, .body hstack'⟩
  | @block _ _ types below _ _ _ hstack hbase hdepth hreachable hmatches hrest =>
    have hle : n ≤ types.length := by
      rw [length_append] at hn
      omega
    rw [← take_append_drop n types] at hstack
    obtain ⟨args, stack', rfl, hargs, hstack'⟩ := forall₂_append_right hstack
    rw [take_append_of_le_length hle, drop_append_of_le_length hle]
    exact ⟨args, stack', rfl, hargs, .block hstack' hbase hdepth hreachable hmatches hrest⟩

/-- Where `verifyTypes` succeeds on reachable code, the instruction finds its operands. -/
theorem consume {s s' : ValidatorState} (hr : s.reachable = true)
    (h : Layout ctx heap s.labelStack s.stackTypes stack frames)
    (hv : s.verifyTypes ctx inputs outputs = .ok s') :
    ∃ args stack', stack = args ++ stack' ∧
      HasTypes ctx.types heap args inputs.reverse ∧
      Layout ctx heap s.labelStack (s.stackTypes.drop inputs.length) stack' frames ∧
      s' = ⟨s.labelCount, s.labelStack, outputs.reverse ++ s.stackTypes.drop inputs.length,
        true⟩ := by
  obtain ⟨l, labels, hlabels, hbase, hsub, rfl⟩ := verifyTypes_ok hr hv
  rw [hlabels] at h
  obtain ⟨args, stack', rfl, hargs, hrest⟩ := h.pop hbase
  exact ⟨args, stack', rfl, hargs.of_sub hsub, hlabels ▸ hrest, hr ▸ rfl⟩

/-- Where the operands of a branch lie in the innermost block, they have the types that were
compared with those of the target. -/
theorem operands {required : List ValueType} (h : Layout ctx heap (l :: rest) types stack frames)
    (hin : l.baseStackHeight + required.length ≤ types.length)
    (hsub : List.Forall₂ (ValueSub ctx.types) (types.take required.length) required.reverse) :
    Operands ctx.types heap stack required.reverse := by
  obtain ⟨args, stack', rfl, hargs, _⟩ := h.pop hin
  exact ⟨args, stack', rfl, hargs.of_sub hsub⟩

theorem results (h : Layout ctx heap (l :: rest) types stack frames)
    (hheight : (types.length : Int) = l.baseStackHeight + l.outputs.length)
    (hsub : List.Forall₂ (ValueSub ctx.types) (types.take l.outputs.length) l.outputs.reverse) :
    HasTypes ctx.types heap stack l.outputs.reverse := by
  cases h with
  | body hstack =>
    have hlen : types.length = (expression ctx.outputs).outputs.length := by
      rw [expression, Int.zero_add] at hheight
      exact Int.ofNat.inj hheight
    rw [take_of_length_le (Nat.le_of_eq hlen)] at hsub
    exact hstack.of_sub hsub
  | @block _ _ own below _ _ _ hstack hbase _ _ _ _ =>
    have hlen : own.length = l.outputs.length := by
      rw [length_append, hbase] at hheight
      omega
    rw [take_left' hlen] at hsub
    exact hstack.of_sub hsub

section

variable (h : Layout ctx heap labels types stack frames)
include h

theorem exists_cons : ∃ l rest, labels = l :: rest := by
  cases h with
  | body | block => exact ⟨_, _, rfl⟩

theorem getLast? : labels.getLast? = some (Label.expression ctx.outputs) := by
  induction h with
  | body => rfl
  | block _ _ _ _ _ _ ih => exact mem_getLast?_cons ih

/-- The frame that the relative index of a label on the stack leads to. -/
theorem frame_of_label (hl : labels.find? (fun l => l.ordinal == some ordinal) = some l) :
    l.depth < labels.length ∧ ∃ f labels' below frames',
      frames.drop (labels.length - l.depth - 1) = f :: frames' ∧
      l.baseStackHeight = below.length ∧ l.depth = labels'.length ∧ l.reachable = true ∧
      f.Matches ctx l labels' below ∧ Layout ctx heap labels' below f.below frames' := by
  induction h with
  | body hstack => simp [expression] at hl
  | @block l' labels types below stack f frames hstack hbase hdepth hreachable hmatches hrest ih =>
    rw [find?_cons] at hl
    split at hl
    · obtain rfl := Option.some.inj hl
      refine ⟨by rw [hdepth]; exact Nat.lt_succ_self _, f, labels, below, frames, ?_, hbase,
        hdepth, hreachable, hmatches, hrest⟩
      rw [hdepth, length_cons, Nat.add_sub_cancel_left]
      rfl
    · obtain ⟨hlt, f', labels', below', frames', hdrop, hframe⟩ := ih hl
      refine ⟨Nat.lt_succ_of_lt hlt, f', labels', below', frames', ?_, hframe⟩
      have hindex : (l' :: labels).length - l.depth - 1 = labels.length - l.depth - 1 + 1 := by
        rw [length_cons]
        omega
      rw [hindex, drop_succ_cons]
      exact hdrop

end

end Layout

/-! ## Well-typed configurations -/

/-- The state of the validator describes the configuration. -/
structure Config.Described (ctx : InstrContext) (s : ValidatorState) (c : Config) : Prop where
  locals : HasTypes ctx.types c.heap c.locals ctx.locals
  heap : HeapTyped ctx.types c.heap
  reachable : s.reachable = true
  layout : Layout ctx c.heap s.labelStack s.stackTypes c.stack c.frames

/-- The validator accepts the rest of the code from a state that describes the configuration. -/
def Config.WellTyped (ctx : InstrContext) (c : Config) : Prop :=
  ∃ s, c.Described ctx s ∧ Accepted ctx s c.code

variable {labels : List Label} {types : List ValueType}

theorem Accepted.wellTyped {code : List (Instr Nat)}
    (haccepted : Accepted ctx ⟨count, labels, types, true⟩ code) {stack locals : List Val}
    {frames : List Frame} (hlocals : HasTypes ctx.types heap locals ctx.locals)
    (hheap : HeapTyped ctx.types heap) (hlayout : Layout ctx heap labels types stack frames) :
    Config.WellTyped ctx ⟨code, stack, frames, locals, heap⟩ :=
  ⟨_, ⟨hlocals, hheap, rfl, hlayout⟩, haccepted⟩

/-- A step that does not get stuck leads to a well-typed configuration, or ends with values of the
declared output types. -/
def StepResult.Safe (ctx : InstrContext) : StepResult → Prop
  | .running c => c.WellTyped ctx
  | .finished values heap => HasTypes ctx.types heap values ctx.outputs.reverse
  | .trap => True
  | .stuck => False

/-- The next instruction finds its operands and does not get stuck. -/
def Config.Proceeds (ctx : InstrContext) (env : Environment) (c : Config) : Prop :=
  c.OperandsPresent ctx ∧ (c.step ctx env).Safe ctx

theorem HasTypes.length_reverse {types : TypeTable}
    (h : HasTypes types heap vs ts.reverse) : vs.length = ts.length := by
  simpa using h.length_eq

section Steps

variable {env : Environment} {s s' : ValidatorState} {i : Instr Nat} {code : List (Instr Nat)}
  {stack locals : List Val} {frames : List Frame}
  (hwf : TypesWellFormed ctx.types) (henv : env.RespectsTypes ctx)

/-! ## What the layout says of the next instruction -/

theorem ValidatorState.findLabel_eq_ok :
    s.findLabel ordinal = .ok l ↔
      s.labelStack.find? (fun l => l.ordinal == some ordinal) = some l := by
  rw [findLabel]
  cases s.labelStack.find? fun l => l.ordinal == some ordinal <;> simp

section

variable (hr : s.reachable = true) (h : Layout ctx heap s.labelStack s.stackTypes stack frames)
include hr h

/-- The operand of the two instructions that test for null is a reference; not null, it has its
static type without null. -/
theorem reference_operand {t : ValueType} (htop : s.topOfStack = .ok t)
    (hv : s.verifyTypes ctx [.ref .any true] outputs = .ok s') :
    ∃ v stack' types, s.stackTypes = t :: types ∧ stack = v :: stack' ∧
      HasType ctx.types heap v (.ref .any true) ∧
      Layout ctx heap s.labelStack types stack' frames ∧
      (v = .null ∨ ∃ g a, v = .ref g a ∧ HasType ctx.types heap v (t.withNullability false)) ∧
      s' = ⟨s.labelCount, s.labelStack, outputs.reverse ++ types, true⟩ := by
  obtain ⟨l, rest, hlabels, hbase, hsub, rfl⟩ := verifyTypes_ok hr hv
  obtain ⟨types, htypes⟩ : ∃ types, s.stackTypes = t :: types := by
    rw [topOfStack, if_pos hr] at htop
    split at htop
    · cases htop
    · rename_i htypes
      cases htop
      exact ⟨_, htypes⟩
  rw [hlabels] at h
  obtain ⟨args, stack', rfl, hargs, hlayout⟩ := h.pop hbase
  rw [htypes] at hargs hsub hlayout ⊢
  cases hargs with
  | @cons v _ _ _ hv hrest =>
    cases hrest
    cases hsub with
    | cons hsub _ =>
      refine ⟨v, stack', types, rfl, rfl, hv.of_sub hsub, hlabels ▸ hlayout, ?_, ?_⟩
      · cases hsub with
        | ref hn hh =>
          rcases hv.ref_inv with ⟨rfl, _⟩ | ⟨g, a, rfl, hg, halloc⟩
          · exact Or.inl rfl
          · exact Or.inr ⟨g, a, rfl, .ref hg halloc⟩
      · rw [hr]
        rfl

/-- A block is entered with its inputs as operands; the operands below them are those of the
enclosing block. -/
theorem Layout.beginBlock {kind : LabelKind} (hb : s.beginBlock ctx kind inputs outputs = .ok s') :
    ∃ args stack' l below, stack = args ++ stack' ∧
      HasTypes ctx.types heap args inputs.reverse ∧
      Layout ctx heap s.labelStack below stack' frames ∧
      l.kind = kind ∧ l.inputs = inputs ∧ l.outputs = outputs ∧
      l.depth = s.labelStack.length ∧ Within s' [] l s.labelStack below ∧
      s' = ⟨s'.labelCount, l :: s.labelStack, inputs.reverse ++ below, true⟩ := by
  obtain ⟨s₁, hv, hb⟩ := bind_eq_ok.1 hb
  obtain ⟨args, stack', rfl, hargs, hlayout, rfl⟩ := h.consume hr hv
  cases hb
  refine ⟨args, stack', _, s.stackTypes.drop inputs.length, rfl, hargs, hlayout, rfl, rfl, rfl, rfl,
    ⟨rfl, ⟨_, rfl⟩, ?_, rfl, by simp, trivial⟩, rfl⟩
  simp only [length_append, length_reverse]
  omega

end

/-- The innermost block has a frame of its own: the validator is inside it. -/
theorem Layout.within {f : Frame}
    (h : Layout ctx heap s.labelStack s.stackTypes stack (f :: frames))
    (hlabels : s.labelStack = l :: labels) :
    ∃ below, Within s [] l labels below ∧ f.Matches ctx l labels below ∧
      Layout ctx heap labels below f.below frames := by
  rw [hlabels] at h
  generalize htypes : s.stackTypes = types at h
  cases h with
  | @block _ _ own below _ _ _ _ hbase _ hreachable hmatches hrest =>
    exact ⟨below, ⟨hlabels, ⟨own, htypes⟩, hbase, hreachable, by simp, trivial⟩, hmatches, hrest⟩

theorem Layout.eq_expression
    (h : Layout ctx heap (l :: labels) types stack []) : l = Label.expression ctx.outputs := by
  cases h
  rfl

/-! ## Where a branch, a block and its end lead -/

section Targets

variable (hlocals : HasTypes ctx.types c.heap c.locals ctx.locals)
  (hheap : HeapTyped ctx.types c.heap)
include hlocals hheap

/-- A branch that finds its operands leads to a well-typed configuration. -/
theorem branch_safe (hlayout : Layout ctx c.heap labels types stack c.frames)
    (hl : labels.find? (fun l => l.ordinal == some ordinal) = some l) {operands : List Val}
    (hoperands : Operands ctx.types c.heap operands l.targetTypes.reverse) :
    (∃ f, c.frames[labels.length - l.depth - 1]? = some f ∧ f.targetTypes = l.targetTypes) ∧
      (c.branch (labels.length - l.depth - 1) operands).Safe ctx := by
  obtain ⟨_, f, labels', below, frames', hdrop, hbase, hdepth, hreachable, hmatches, hrest⟩ :=
    hlayout.frame_of_label hl
  have hget : c.frames[labels.length - l.depth - 1]? = some f := by
    rw [← head?_drop, hdrop]
    rfl
  have hdrop' : c.frames.drop (labels.length - l.depth - 1 + 1) = frames' := by
    rw [← tail_drop, hdrop]
    rfl
  refine ⟨⟨f, hget, hmatches.target⟩, ?_⟩
  obtain ⟨vs, rest, rfl, hvs⟩ := hoperands
  have hlen : vs.length = f.targetTypes.length := by
    rw [hmatches.target]
    exact hvs.length_reverse
  simp only [branch, hget, take_left' hlen]
  rw [if_neg (by simp [hlen])]
  rcases hmatches.loopBody with ⟨hnone, htarget⟩ | ⟨body, count, hsome, htarget, haccepted⟩
  · obtain ⟨count, haccepted⟩ := hmatches.continuation
    simp only [hnone, hdrop']
    rw [htarget] at hvs
    exact haccepted.wellTyped hlocals hheap (hrest.push hvs)
  · simp only [hsome, hdrop]
    rw [htarget] at hvs
    exact haccepted.wellTyped hlocals hheap (.block hvs hbase hdepth hreachable hmatches hrest)

/-- A branch whose operands lie in the innermost block: `types` are their types at the branch, when
`popped` operands have been taken from the stack and `pushed` put on it. -/
theorem branch_ready {operands : List Val}
    (hlayout : Layout ctx c.heap s.labelStack types operands c.frames) {l popped pushed : Nat}
    {label : Label} (hlabel : s.findLabel l = .ok label) (hin : s.BranchInBlock popped pushed l)
    (hlen : (s.stackTypes.length : Int) - popped + pushed ≤ types.length)
    (hsub : List.Forall₂ (ValueSub ctx.types) (types.take label.targetTypes.length)
      label.targetTypes.reverse) :
    ∃ f, c.frames[s.labelIndex label]? = some f ∧
      Operands ctx.types c.heap operands f.targetTypes.reverse ∧
      (c.branch (s.labelIndex label) operands).Safe ctx := by
  obtain ⟨block, rest, hlabels⟩ := hlayout.exists_cons
  have hbound := hin label block hlabel (topOfLabelStack_eq_ok.2 ⟨rest, hlabels⟩)
  have hoperands := (hlabels ▸ hlayout).operands (Int.le_trans hbound hlen) hsub
  obtain ⟨⟨f, hf, htarget⟩, hsafe⟩ :=
    branch_safe hlocals hheap hlayout (findLabel_eq_ok.1 hlabel) hoperands
  exact ⟨f, hf, htarget ▸ hoperands, hsafe⟩

theorem enter_safe {body : List (Instr Nat)} {frame : List Val → Frame} {args stack' : List Val}
    (hargs : HasTypes ctx.types c.heap args inputs.reverse) (hbelow : (frame stack').below = stack')
    (hlayout : Layout ctx c.heap labels below stack' c.frames)
    (hbase : l.baseStackHeight = below.length) (hdepth : l.depth = labels.length)
    (hreachable : l.reachable = true) (hmatches : (frame stack').Matches ctx l labels below)
    (haccepted : Accepted ctx ⟨count, l :: labels, inputs.reverse ++ below, true⟩ body) :
    (c.enter body inputs (args ++ stack') frame).Safe ctx := by
  have hlen := hargs.length_reverse
  simp only [enter, take_left' hlen, drop_left' hlen]
  rw [if_neg (by simp [hlen])]
  refine haccepted.wellTyped hlocals hheap (.block hargs hbase hdepth hreachable hmatches ?_)
  rw [hbelow]
  exact hlayout

theorem leave_safe {f : Frame} {next : List (Instr Nat)}
    (hstack : HasTypes ctx.types c.heap c.stack f.results.reverse)
    (hlayout : Layout ctx c.heap labels below f.below frames)
    (haccepted : Accepted ctx ⟨count, labels, f.results.reverse ++ below, true⟩ next) :
    (c.leave f frames next).Safe ctx := by
  rw [leave, if_pos hstack.length_reverse]
  exact haccepted.wellTyped hlocals hheap (hlayout.push hstack)

end Targets

/-- What is to be shown of each call: the instruction that it emits proceeds. -/
def CallProceeds (ctx : InstrContext) (env : Environment) (call : InstrCall) : Prop :=
  ∀ s s' i code stack frames locals heap,
    Config.Described ctx s ⟨i :: code, stack, frames, locals, heap⟩ →
    s.verify ctx call = .ok (s', i) → s.Guarded ctx call → Accepted ctx s' code →
    Config.Proceeds ctx env ⟨i :: code, stack, frames, locals, heap⟩

/-! ## Instructions that do not branch -/

include hwf henv in
theorem plain_proceeds {p : PlainInstr} : CallProceeds ctx env (.plain p) := by
  intro s s' i code stack frames locals heap h hverify hguard haccepted
  simp only [verify] at hverify
  split at hverify
  · cases hverify
  rename_i inputs outputs hsig
  obtain ⟨s₁, hv, hverify⟩ := bind_eq_ok.1 hverify
  cases hverify
  obtain ⟨args, stack', rfl, hargs, hlayout, rfl⟩ := h.layout.consume h.reachable hv
  refine ⟨⟨inputs, outputs, hsig, args, stack', rfl, hargs⟩, ?_⟩
  have hlen := hargs.length_reverse
  have hsafe := PlainInstr.exec_safe hwf henv h.heap h.locals hsig ?_ hargs
  · simp only [step, hsig, take_left' hlen, drop_left' hlen]
    rw [if_neg (by simp [hlen])]
    cases hexec : p.exec ctx env locals heap args with
    | values results locals' heap' =>
      rw [hexec] at hsafe
      obtain ⟨hresults, hlocals, hheap, hext⟩ := hsafe
      exact haccepted.wellTyped hlocals hheap ((hlayout.extend hext).push hresults)
    | trap => trivial
    | stuck =>
      rw [hexec] at hsafe
      exact hsafe.elim
  · intro d i f hp hf
    subst hp
    exact hguard h.reachable f hf

theorem drop_proceeds : CallProceeds ctx env .drop := by
  intro s s' i code stack frames locals heap h hverify _ haccepted
  obtain ⟨top, _, hverify⟩ := bind_eq_ok.1 hverify
  obtain ⟨s₁, hv, hverify⟩ := bind_eq_ok.1 hverify
  cases hverify
  obtain ⟨args, stack', rfl, hargs, hlayout, rfl⟩ := h.layout.consume h.reachable hv
  cases hargs with
  | cons hv hrest =>
    cases hrest
    exact ⟨by simp [Config.OperandsPresent], haccepted.wellTyped h.locals h.heap hlayout⟩

include hwf henv in
theorem callRef_proceeds : CallProceeds ctx env .callRef := by
  intro s s' i code stack frames locals heap h hverify _ haccepted
  obtain ⟨s₁, hv, hverify⟩ := bind_eq_ok.1 hverify
  cases hverify
  rw [verifyCallRef, if_pos h.reachable] at hv
  obtain ⟨fn, _, hv⟩ := bind_eq_ok.1 hv
  split at hv
  · split at hv
    · rename_i d n inputs outputs hd
      obtain ⟨args, stack', rfl, hargs, hlayout, rfl⟩ := h.layout.consume h.reachable hv
      rw [reverse_append] at hargs
      cases hargs with
      | @cons v _ args _ hv hargs =>
        rcases function_of_hasType hwf hv hd with
          rfl | ⟨e, a, inputs', outputs', rfl, he, hins, houts⟩
        · exact ⟨⟨.null, args ++ stack', rfl, Or.inl rfl⟩, trivial⟩
        have hargs' : HasTypes ctx.types heap args inputs'.reverse :=
          HasTypes.of_sub hargs (forall₂_reverse_iff.2 hins)
        have hlen := hargs'.length_reverse
        refine ⟨⟨_, args ++ stack', rfl, Or.inr ⟨e, a, inputs', outputs', rfl, he, args,
          stack', rfl, hargs'⟩⟩, ?_⟩
        simp only [step, cons_append, he, take_left' hlen, drop_left' hlen]
        rw [if_neg (by simp [hlen])]
        cases hinvoke : env.invoke e a args heap with
        | none => trivial
        | some result =>
          obtain ⟨hresults, hheap, hext⟩ :=
            henv e a inputs' outputs' args heap result.1 result.2 he h.heap hargs' hinvoke
          have hresults' := hresults.of_sub (forall₂_reverse_iff.2 houts)
          exact haccepted.wellTyped (h.locals.extend hext) hheap
            ((hlayout.extend hext).push hresults')
    · cases hv
  · cases hv

theorem return_proceeds : CallProceeds ctx env .return_ := by
  intro s s' i code stack frames locals heap h hverify _ _
  simp only [verify, h.layout.getLast?] at hverify
  obtain ⟨s₁, hv, hverify⟩ := bind_eq_ok.1 hverify
  cases hverify
  obtain ⟨args, stack', rfl, hargs, _, _⟩ := h.layout.consume h.reachable hv
  have hlen : args.length = ctx.outputs.length := hargs.length_reverse
  refine ⟨⟨args, stack', rfl, hargs⟩, ?_⟩
  simp only [step, take_left' hlen]
  rw [if_neg (by simp [hlen])]
  exact hargs

/-! ## Branches -/

theorem br_proceeds {l : Nat} : CallProceeds ctx env (.br l) := by
  intro s s' i code stack frames locals heap h hverify hguard _
  obtain ⟨label, hlabel, hverify⟩ := bind_eq_ok.1 hverify
  obtain ⟨s₁, hv, hverify⟩ := bind_eq_ok.1 hverify
  obtain ⟨u, hbranch, hverify⟩ := bind_eq_ok.1 hverify
  cases hverify
  obtain ⟨args, stack', rfl, hargs, hlayout, rfl⟩ := h.layout.consume h.reachable hv
  cases hargs
  obtain ⟨f, hf, hoperands, hsafe⟩ := branch_ready
    (c := ⟨.br (s.labelIndex label) :: code, stack', frames, locals, heap⟩) h.locals h.heap hlayout
    hlabel (hguard h.reachable) (by simp) (verifyBranchTypes_ok rfl hbranch)
  exact ⟨⟨f, hf, hoperands⟩, hsafe⟩

theorem brIf_proceeds {l : Nat} : CallProceeds ctx env (.brIf l) := by
  intro s s' i code stack frames locals heap h hverify hguard haccepted
  obtain ⟨label, hlabel, hverify⟩ := bind_eq_ok.1 hverify
  obtain ⟨s₁, hv, hverify⟩ := bind_eq_ok.1 hverify
  obtain ⟨u, hbranch, hverify⟩ := bind_eq_ok.1 hverify
  cases hverify
  obtain ⟨args, stack', rfl, hargs, hlayout, rfl⟩ := h.layout.consume h.reachable hv
  cases hargs with
  | @cons v _ _ _ hcondition hrest =>
    cases hrest
    obtain ⟨condition, rfl⟩ := hcondition.i32_inv
    obtain ⟨f, hf, ⟨vs, rest, rfl, hvs⟩, hsafe⟩ := branch_ready
      (c := ⟨.brIf (s.labelIndex label) :: code, .num .i32 condition :: stack', frames, locals,
        heap⟩) h.locals h.heap hlayout hlabel (hguard h.reachable) (by simp; omega)
      (verifyBranchTypes_ok rfl hbranch)
    refine ⟨⟨f, hf, .num .i32 condition :: vs, rest, rfl, .cons hcondition hvs⟩, ?_⟩
    simp only [step, cons_append, nil_append]
    split
    · exact hsafe
    · exact haccepted.wellTyped h.locals h.heap hlayout

theorem brTable_proceeds {ls : List Nat} {l : Nat} : CallProceeds ctx env (.brTable ls l) := by
  intro s s' i code stack frames locals heap h hverify hguard _
  obtain ⟨labels, hlabels, hverify⟩ := bind_eq_ok.1 hverify
  obtain ⟨label, hlabel, hverify⟩ := bind_eq_ok.1 hverify
  obtain ⟨s₁, hv, hverify⟩ := bind_eq_ok.1 hverify
  obtain ⟨u, hbranch, hverify⟩ := bind_eq_ok.1 hverify
  cases hverify
  obtain ⟨args, stack', rfl, hargs, hlayout, rfl⟩ := h.layout.consume h.reachable hv
  cases hargs with
  | @cons v _ _ _ hindex hrest =>
    cases hrest
    obtain ⟨index, rfl⟩ := hindex.i32_inv
    -- Each of the targets finds its operands below the index.
    have htarget : ∀ k ∈ labels.map s.labelIndex ++ [s.labelIndex label],
        ∃ f, frames[k]? = some f ∧ Operands ctx.types heap stack' f.targetTypes.reverse ∧
          (branch ⟨.brTable (labels.map s.labelIndex) (s.labelIndex label) :: code,
            .num .i32 index :: stack', frames, locals, heap⟩ k stack').Safe ctx := by
      intro k hk
      rw [← map_singleton, ← map_append] at hk
      obtain ⟨target, hmem, rfl⟩ := mem_map.1 hk
      obtain ⟨l', hl', hfind⟩ : ∃ l' ∈ ls ++ [l], s.findLabel l' = .ok target := by
        rcases mem_append.1 hmem with hmem | hmem
        · obtain ⟨l', hl', hfind⟩ := mapM_ok_mem hlabels target hmem
          exact ⟨l', mem_append_left _ hl', hfind⟩
        · obtain rfl := mem_singleton.1 hmem
          exact ⟨l, mem_append_right _ mem_cons_self, hlabel⟩
      exact branch_ready
        (c := ⟨.brTable (labels.map s.labelIndex) (s.labelIndex label) :: code,
          .num .i32 index :: stack', frames, locals, heap⟩) h.locals h.heap hlayout hfind
        (hguard h.reachable l' hl') (by simp; omega)
        (verifyBranchTypes_ok rfl (forM_ok_mem hbranch target hmem))
    refine ⟨?_, ?_⟩
    · intro k hk
      obtain ⟨f, hf, ⟨vs, rest, rfl, hvs⟩, _⟩ := htarget k hk
      exact ⟨f, hf, .num .i32 index :: vs, rest, rfl, .cons hindex hvs⟩
    · have hmem : (labels.map s.labelIndex).getD (index % 4294967296).toNat (s.labelIndex label)
          ∈ labels.map s.labelIndex ++ [s.labelIndex label] := by
        rw [getD_eq_getElem?_getD]
        cases hget : (labels.map s.labelIndex)[(index % 4294967296).toNat]? with
        | none => exact mem_append_right _ mem_cons_self
        | some k => exact mem_append_left _ (mem_of_getElem? hget)
      obtain ⟨f, _, _, hsafe⟩ := htarget _ hmem
      exact hsafe

theorem brOnNull_proceeds {l : Nat} : CallProceeds ctx env (.brOnNull l) := by
  intro s s' i code stack frames locals heap h hverify hguard haccepted
  obtain ⟨label, hlabel, hverify⟩ := bind_eq_ok.1 hverify
  obtain ⟨top, htop, hverify⟩ := bind_eq_ok.1 hverify
  obtain ⟨s₁, hv, hverify⟩ := bind_eq_ok.1 hverify
  obtain ⟨u, hbranch, hverify⟩ := bind_eq_ok.1 hverify
  cases hverify
  obtain ⟨v, stack', types, htypes, rfl, hany, hlayout, hnull, rfl⟩ :=
    reference_operand h.reachable h.layout htop hv
  obtain ⟨f, hf, ⟨vs, rest, rfl, hvs⟩, hsafe⟩ := branch_ready
    (c := ⟨.brOnNull (s.labelIndex label) :: code, v :: stack', frames, locals, heap⟩)
    h.locals h.heap hlayout hlabel (hguard h.reachable) (by simp [htypes])
    (verifyBranchTypes_ok rfl hbranch)
  refine ⟨⟨f, hf, v :: vs, rest, rfl, .cons hany hvs⟩, ?_⟩
  rcases hnull with rfl | ⟨g, a, rfl, htype⟩
  · exact hsafe
  · exact haccepted.wellTyped h.locals h.heap (hlayout.push (.cons htype .nil))

theorem brOnNonNull_proceeds {l : Nat} : CallProceeds ctx env (.brOnNonNull l) := by
  intro s s' i code stack frames locals heap h hverify hguard haccepted
  obtain ⟨label, hlabel, hverify⟩ := bind_eq_ok.1 hverify
  obtain ⟨top, htop, hverify⟩ := bind_eq_ok.1 hverify
  obtain ⟨u, hbranch, hverify⟩ := bind_eq_ok.1 hverify
  obtain ⟨s₁, hv, hverify⟩ := bind_eq_ok.1 hverify
  cases hverify
  obtain ⟨v, stack', types, htypes, rfl, hany, hlayout, hnull, rfl⟩ :=
    reference_operand h.reachable h.layout htop hv
  have hsub := verifyBranchTypes_ok h.reachable hbranch
  rw [htypes] at hsub
  rcases hnull with rfl | ⟨g, a, rfl, htype⟩
  · obtain ⟨_, f, labels', below, frames', hdrop, _⟩ :=
      h.layout.frame_of_label (findLabel_eq_ok.1 hlabel)
    have hget : frames[s.labelIndex label]? = some f := by
      rw [labelIndex, ← head?_drop, hdrop]
      rfl
    refine ⟨⟨f, hget, ⟨[.null], stack', rfl, .cons hany .nil⟩, fun hne => (hne rfl).elim⟩, ?_⟩
    exact haccepted.wellTyped h.locals h.heap hlayout
  · obtain ⟨f, hf, hoperands, hsafe⟩ := branch_ready
      (c := ⟨.brOnNonNull (s.labelIndex label) :: code, .ref g a :: stack', frames, locals, heap⟩)
      h.locals h.heap (hlayout.push (.cons htype .nil)) hlabel (hguard h.reachable)
      (by simp [htypes]) hsub
    exact ⟨⟨f, hf, ⟨[.ref g a], stack', rfl, .cons hany .nil⟩, fun _ => hoperands⟩, hsafe⟩

/-! ## Blocks -/

theorem block_proceeds : CallProceeds ctx env (.block inputs outputs) := by
  intro s s' i code stack frames locals heap h hverify _ haccepted
  obtain ⟨s₁, hb, hverify⟩ := bind_eq_ok.1 hverify
  cases hverify
  obtain ⟨args, stack', l, below, rfl, hargs, hlayout, hkind, rfl, rfl, hdepth, hwithin, hs'⟩ :=
    h.layout.beginBlock h.reachable hb
  refine ⟨⟨args, stack', rfl, hargs⟩, ?_⟩
  have htarget : l.targetTypes = l.outputs := by
    rw [targetTypes, hkind]
  have hmatches : (blockFrame l.outputs code stack').Matches ctx l s.labelStack below :=
    ⟨htarget.symm, rfl, (haccepted.leaves hwithin).1, Or.inl ⟨rfl, htarget⟩⟩
  exact enter_safe h.locals h.heap hargs rfl hlayout hwithin.base hdepth hwithin.reachable hmatches
    (hs' ▸ haccepted)

theorem loop_proceeds : CallProceeds ctx env (.loop inputs outputs) := by
  intro s s' i code stack frames locals heap h hverify _ haccepted
  obtain ⟨s₁, hb, hverify⟩ := bind_eq_ok.1 hverify
  cases hverify
  obtain ⟨args, stack', l, below, rfl, hargs, hlayout, hkind, rfl, rfl, hdepth, hwithin, hs'⟩ :=
    h.layout.beginBlock h.reachable hb
  refine ⟨⟨args, stack', rfl, hargs⟩, ?_⟩
  have htarget : l.targetTypes = l.inputs := by
    rw [targetTypes, hkind]
  have hbody : Accepted ctx ⟨s'.labelCount, l :: s.labelStack, l.inputs.reverse ++ below, true⟩
      code := hs' ▸ haccepted
  have hmatches : (loopFrame l.inputs l.outputs code stack').Matches ctx l s.labelStack below :=
    ⟨htarget.symm, rfl, (haccepted.leaves hwithin).1, Or.inr ⟨code, _, rfl, htarget, hbody⟩⟩
  exact enter_safe h.locals h.heap hargs rfl hlayout hwithin.base hdepth hwithin.reachable hmatches
    hbody

theorem if_proceeds : CallProceeds ctx env (.if_ inputs outputs) := by
  intro s s' i code stack frames locals heap h hverify _ haccepted
  obtain ⟨s₁, hv, hverify⟩ := bind_eq_ok.1 hverify
  obtain ⟨s₂, hb, hverify⟩ := bind_eq_ok.1 hverify
  cases hverify
  obtain ⟨conditions, operands, rfl, hcondition, hoperands, rfl⟩ := h.layout.consume h.reachable hv
  obtain ⟨args, stack', l, below, rfl, hargs, hlayout, hkind, rfl, rfl, hdepth, hwithin, hs'⟩ :=
    hoperands.beginBlock rfl hb
  cases hcondition with
  | cons hcondition hnil =>
    cases hnil
    obtain ⟨condition, rfl⟩ := hcondition.i32_inv
    refine ⟨⟨.num .i32 condition :: args, stack', rfl, .cons hcondition hargs⟩, ?_⟩
    have htarget : l.targetTypes = l.outputs := by
      rw [targetTypes, hkind]
    obtain ⟨count, hend⟩ := (haccepted.leaves hwithin).1
    simp only [step, cons_append, nil_append]
    split
    · have hmatches : (blockFrame l.outputs code stack').Matches ctx l s.labelStack below :=
        ⟨htarget.symm, rfl, ⟨count, hend⟩, Or.inl ⟨rfl, htarget⟩⟩
      exact enter_safe h.locals h.heap hargs rfl hlayout hwithin.base hdepth hwithin.reachable
        hmatches (hs' ▸ haccepted)
    · rcases (haccepted.leaves hwithin).2 hkind with
        ⟨code', count', helse, helseAccepted⟩ | ⟨hnone, hsub⟩
      · -- The label that the `else` branch sees is the same but for having an `else`.
        simp only [length_nil] at helse
        rw [helse]
        have hmatches : (blockFrame l.outputs code stack').Matches ctx
            { l with kind := .if_ true } s.labelStack below :=
          ⟨rfl, rfl, ⟨count, hend⟩, Or.inl ⟨rfl, rfl⟩⟩
        exact enter_safe (l := { l with kind := .if_ true }) h.locals h.heap hargs rfl hlayout
          hwithin.base hdepth hwithin.reachable hmatches helseAccepted
      · simp only [length_nil] at hnone
        rw [hnone]
        have hresults := hargs.of_sub (forall₂_reverse_iff.2 hsub)
        exact hend.wellTyped h.locals h.heap (hlayout.push hresults)

theorem else_proceeds : CallProceeds ctx env .else_ := by
  intro s s' i code stack frames locals heap h hverify _ _
  obtain ⟨l, hl, hverify⟩ := bind_eq_ok.1 hverify
  obtain ⟨labels, hlabels⟩ := topOfLabelStack_eq_ok.1 hl
  split at hverify
  · rename_i hkind
    obtain ⟨s₁, hv, hverify⟩ := bind_eq_ok.1 hverify
    cases hverify
    obtain ⟨hheight, hsub⟩ := verifyEndOfBlock_results h.reachable hv
    have hstack := (hlabels ▸ h.layout).results hheight hsub
    cases frames with
    | nil =>
      -- Only the label of the whole expression has no frame, and it is not an `if`.
      obtain rfl := (hlabels ▸ h.layout).eq_expression
      cases hkind
    | cons f frames =>
      obtain ⟨below, hwithin, hmatches, hrest⟩ := h.layout.within hlabels
      obtain ⟨count, hcontinuation⟩ := hmatches.continuation
      rw [← hmatches.results] at hstack hcontinuation
      exact ⟨⟨f, frames, rfl, hstack⟩, leave_safe h.locals h.heap hstack hrest hcontinuation⟩
  · cases hverify
  · cases hverify

theorem end_proceeds : CallProceeds ctx env .end_ := by
  intro s s' i code stack frames locals heap h hverify hguard haccepted
  have hmoves := verify_moves hverify hguard
  obtain ⟨l, hl, hverify⟩ := bind_eq_ok.1 hverify
  obtain ⟨labels, hlabels⟩ := topOfLabelStack_eq_ok.1 hl
  obtain ⟨s₁, hv, hverify⟩ := bind_eq_ok.1 hverify
  cases hverify
  obtain ⟨hheight, hsub⟩ := verifyEndOfBlock_results h.reachable hv
  have hstack := (hlabels ▸ h.layout).results hheight hsub
  cases frames with
  | nil =>
    obtain rfl := (hlabels ▸ h.layout).eq_expression
    exact ⟨hstack, hstack⟩
  | cons f frames =>
    obtain ⟨below, hwithin, hmatches, hrest⟩ := h.layout.within hlabels
    obtain ⟨_, hs'⟩ := hwithin.ownEnd hmoves
    rw [hs', ← hmatches.results] at haccepted
    rw [← hmatches.results] at hstack
    exact ⟨hstack, leave_safe h.locals h.heap hstack hrest haccepted⟩

/-! ## Steps and runs -/

include hwf henv

/-- Every instruction of a well-typed configuration finds its operands, and the step it makes is
safe. -/
theorem Config.WellTyped.proceeds (h : c.WellTyped ctx) : c.Proceeds ctx env := by
  obtain ⟨s, hdescribed, haccepted⟩ := h
  obtain ⟨code, stack, frames, locals, heap⟩ := c
  cases haccepted with
  | complete hempty =>
    obtain ⟨l, rest, hlabels⟩ := hdescribed.layout.exists_cons
    exact absurd (hempty.symm.trans hlabels) (by simp)
  | @call _ _ c _ _ hverify hguard hrest =>
    suffices hcall : CallProceeds ctx env c from
      hcall _ _ _ _ _ _ _ _ hdescribed hverify hguard hrest
    cases c with
    | plain p => exact plain_proceeds hwf henv
    | unreachable =>
      intro _ _ _ _ _ _ _ _ _ hverify _ _
      obtain ⟨s₁, _, hverify⟩ := bind_eq_ok.1 hverify
      cases hverify
      exact ⟨trivial, trivial⟩
    | drop => exact drop_proceeds
    | callRef => exact callRef_proceeds hwf henv
    | return_ => exact return_proceeds
    | block inputs outputs => exact block_proceeds
    | loop inputs outputs => exact loop_proceeds
    | if_ inputs outputs => exact if_proceeds
    | else_ => exact else_proceeds
    | end_ => exact end_proceeds
    | br l => exact br_proceeds
    | brIf l => exact brIf_proceeds
    | brTable ls l => exact brTable_proceeds
    | brOnNull l => exact brOnNull_proceeds
    | brOnNonNull l => exact brOnNonNull_proceeds

/-- What one step keeps, a run of any length keeps. -/
theorem Config.WellTyped.run (h : c.WellTyped ctx) (n : Nat) : (c.run ctx env n).Safe ctx := by
  induction n generalizing c with
  | zero => exact h
  | succ n ih =>
    have hsafe := (h.proceeds hwf henv).2
    rw [run]
    cases hstep : c.step ctx env with
    | running c' =>
      rw [hstep] at hsafe
      exact ih hsafe
    | finished | stuck =>
      rw [hstep] at hsafe
      exact hsafe
    | trap => trivial

end Steps

/-! ## Soundness of the validator -/

/-- Along a run, the next instruction always finds its operands in the current block with the types
it requires, and at the end the stack holds exactly values of the output types. -/
def Config.RunsSafely (ctx : InstrContext) (env : Environment) (c : Config) : Prop :=
  ∀ n, match c.run ctx env n with
    | .running c' => c'.OperandsPresent ctx
    | .finished values heap => HasTypes ctx.types heap values ctx.outputs.reverse
    | .trap => True
    | .stuck => False

/-- A complete instruction sequence that passes the validator, in which every `if` without `else`
has inputs that can stand for its outputs, every branch takes its operands from the innermost block
and every `struct_set` writes to a mutable field, runs safely from every state with well-typed
locals. -/
theorem validated_runsSafely {ctx : InstrContext} {env : Environment}
    (hwf : TypesWellFormed ctx.types) (henv : env.RespectsTypes ctx) {calls : List InstrCall}
    {b : Instructions} (hrun : Lib.run (Instructions.step ctx) (.initial ctx) calls = .ok b)
    (hcomplete : b.isComplete = true)
    (hguard : Lib.Along (Instructions.step ctx) (fun b c => b.state.Guarded ctx c) (.initial ctx)
      calls) {locals : List Val} {heap : Heap} (hlocals : HasTypes ctx.types heap locals ctx.locals)
    (hheap : HeapTyped ctx.types heap) :
    (Config.initial b.code locals heap).RunsSafely ctx env := by
  obtain ⟨code, hcode, haccepted⟩ := accepted_of_run hrun hguard hcomplete
  have hcode : b.code = code := hcode
  have hinitial : (initial b.code locals heap).WellTyped ctx :=
    ⟨_, ⟨hlocals, hheap, rfl, .body .nil⟩, hcode ▸ haccepted⟩
  intro n
  have hsafe := hinitial.run hwf henv n
  revert hsafe
  cases (initial b.code locals heap).run ctx env n with
  | running c =>
    intro hc
    exact (hc.proceeds hwf henv).1
  | finished | trap | stuck => exact id

/-! ## The three checks that are missing -/

def Environment.idle : Environment where
  invoke _ _ _ _ := none
  numeric _ _ := 0

theorem Environment.idle_respectsTypes (ctx : InstrContext) : Environment.idle.RespectsTypes ctx :=
  fun _ _ _ _ _ _ _ _ _ _ _ h => nomatch h

theorem typesWellFormed_nil : TypesWellFormed [] := by
  intro t ht
  cases ht

theorem heapTyped_nil (types : TypeTable) : HeapTyped types [] := by
  intro a object h
  simp at h

/-- One `i32` local, which is also the type of the result. -/
def i32Context : InstrContext where
  types := []
  functions := []
  locals := [.i32]
  outputs := [.i32]
  fuel := 1

/-- A block that is left by a conditional branch. -/
theorem brIf_runsSafely :
    (Config.initial [.block [] [], .plain (.localGet 0), .brIf 0, .end_, .plain (.localGet 0),
      .end_] [.num .i32 1] []).RunsSafely i32Context .idle := by
  have hrun : run (Instructions.step i32Context) (.initial i32Context)
      [.block [] [], .plain (.localGet 0), .brIf 1, .end_, .plain (.localGet 0), .end_] =
      .ok ⟨⟨1, [], [.i32], true⟩, [.block [] [], .plain (.localGet 0), .brIf 0, .end_,
        .plain (.localGet 0), .end_]⟩ := rfl
  refine validated_runsSafely typesWellFormed_nil (Environment.idle_respectsTypes _) hrun rfl ?_
    (.cons (.num .i32 1) .nil) (heapTyped_nil _)
  refine ⟨trivial, fun b hb => ?_⟩
  obtain rfl := Except.ok.inj hb
  refine ⟨trivial, fun b hb => ?_⟩
  obtain rfl := Except.ok.inj hb
  refine ⟨?_, fun b hb => ?_⟩
  · intro _ label block hlabel hblock
    obtain rfl := Except.ok.inj hlabel
    obtain rfl := Except.ok.inj hblock
    decide
  obtain rfl := Except.ok.inj hb
  refine ⟨?_, fun b hb => ?_⟩
  · intro label hlabel hkind
    obtain rfl := Except.ok.inj hlabel
    cases hkind
  obtain rfl := Except.ok.inj hb
  refine ⟨trivial, fun b hb => ?_⟩
  obtain rfl := Except.ok.inj hb
  refine ⟨?_, fun b hb => trivial⟩
  intro label hlabel hkind
  obtain rfl := Except.ok.inj hlabel
  cases hkind

/-- The calls pass the validator and complete the sequence, yet the code does not run safely from
well-typed locals and heap. -/
def Unsound (ctx : InstrContext) (calls : List InstrCall) (locals : List Val) (heap : Heap) :
    Prop :=
  TypesWellFormed ctx.types ∧ HasTypes ctx.types heap locals ctx.locals ∧
    HeapTyped ctx.types heap ∧
    ∃ b, Lib.run (Instructions.step ctx) (.initial ctx) calls = .ok b ∧ b.isComplete = true ∧
      ¬ (Config.initial b.code locals heap).RunsSafely ctx .idle

/-- A struct type with an immutable `any` field and a subtype with a `data` field; a local with an
object of the subtype and one with some other reference. -/
def immutableContext : InstrContext where
  types :=
    [⟨.struct "B" [⟨.value (.ref .any true), false⟩], none, 0⟩,
      ⟨.struct "A" [⟨.value (.ref .data true), false⟩], some (.defined 0), 1⟩]
  functions := []
  locals := [.ref (.defined 1) false, .ref .any true]
  outputs := [.ref .data true]
  fuel := 3

/-- Nothing but `any` lies above an external reference. -/
theorem HeapSub.of_extern {types : TypeTable} {h : HeapType} (hsub : HeapSub types .extern_ h) :
    h = .extern_ ∨ h = .any := by
  induction hsub with
  | refl => exact Or.inl rfl
  | tail _ hstep ih =>
    obtain ⟨fuel, hstep⟩ := hstep
    cases fuel with
    | zero => cases hstep
    | succ fuel =>
      rcases ih with rfl | rfl
      · simpa [HeapType.isSubtypeOf, or_comm] using hstep
      · exact Or.inr (by simpa [HeapType.isSubtypeOf] using hstep)

theorem missing_checks_unsound :
    Unsound i32Context
      [.plain (.localGet 0), .if_ [] [.i32], .plain (.localGet 0), .end_, .end_] [.num .i32 0] [] ∧
    Unsound i32Context
      [.block [] [.i32], .plain (.localGet 0), .block [] [], .br 1, .end_, .end_, .end_]
      [.num .i32 0] [] ∧
    Unsound immutableContext
      [.plain (.localGet 0), .plain (.localGet 1), .plain (.structSet 0 0), .plain (.localGet 0),
        .plain (.structGet 1 0), .end_]
      [.ref (.defined 1) 0, .ref .extern_ 0] [⟨1, [.null]⟩] := by
  refine ⟨?_, ?_, ?_⟩
  · refine ⟨typesWellFormed_nil, .cons (.num .i32 0) .nil, heapTyped_nil _, _, rfl, rfl, ?_⟩
    intro hsafe
    have hend : HasTypes [] [] [] [.i32] := hsafe 3
    cases hend
  · refine ⟨typesWellFormed_nil, .cons (.num .i32 0) .nil, heapTyped_nil _, _, rfl, rfl, ?_⟩
    intro hsafe
    exact hsafe 4
  · refine ⟨?_, ?_, ?_, _, rfl, rfl, ?_⟩
    · intro t ht u hu
      rcases mem_cons.1 ht with rfl | ht
      · cases hu
      · obtain rfl := mem_singleton.1 ht
        cases hu
        exact ⟨2, rfl⟩
    · refine .cons (.ref .refl ?_) (.cons (.ref (.single ⟨1, rfl⟩) ?_) .nil)
      · intro d name fields hd _
        cases hd
        exact ⟨_, rfl, rfl⟩
      · intro d name fields hd
        cases hd
    · intro a object h
      cases a with
      | zero =>
        obtain rfl := Option.some.inj h
        exact ⟨_, _, rfl, .cons (.null _) .nil⟩
      | succ a => simp at h
    · intro hsafe
      have hend : HasTypes immutableContext.types [⟨1, [.ref .extern_ 0]⟩] [.ref .extern_ 0]
        [.ref .data true] := hsafe 6
      cases hend with
      | cons hv _ =>
        rcases hv.ref_inv with ⟨h, _⟩ | ⟨h, a, heq, hsub, _⟩
        · cases h
        · cases heq
          rcases hsub.of_extern with h | h
          · cases h
          · cases h

end Dart2Wasm.WasmBuilder
