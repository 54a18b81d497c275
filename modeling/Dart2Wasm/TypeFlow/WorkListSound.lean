import Dart2Wasm.TypeFlow.WorkList

/-!
# TypeFlow.WorkListSound — the work list stops at a fixpoint

An invocation that is not pending and has a result was processed with answers
that still cover what the invocations it called have stored. The invariant
`Good` says so for every invocation off the call stack; for an invocation on the
call stack `Evolves` says that whatever it has read so far stays valid unless it
is pending again.
-/

namespace Dart2Wasm.TypeFlow.WorkList

open Function

variable {ι γ ν τ : Type}
variable {R R' : ι → τ → Prop} {Q Q' : γ → ν → Prop} {p : Program ι γ ν τ} {t r : τ} {I J K : ι}
  {P : ι → Prop} {s : State ι γ ν τ}

/-! ## Runs of a program -/

namespace Program

/-- A run of a program in which every answer to a call satisfies `R` and every
value read from a cell satisfies `Q`. -/
inductive Runs (R : ι → τ → Prop) (Q : γ → ν → Prop) : Program ι γ ν τ → τ → Prop
  | done (type : τ) : Runs R Q (.done type) type
  | call {b J next v t} : R J v → Runs R Q (next v) t → Runs R Q (.call b J next) t
  | perform {J next t} : Runs R Q next t → Runs R Q (.perform J next) t
  | enqueue {J next t} : Runs R Q next t → Runs R Q (.enqueue J next) t
  | read {c next v t} : Q c v → Runs R Q (next v) t → Runs R Q (.read c next) t
  | write {c update next t} : Runs R Q next t → Runs R Q (.write c update next) t
  | setMonomorphic {D next t} : Runs R Q next t → Runs R Q (.setMonomorphic D next) t
  | setPolymorphic {next t} : Runs R Q next t → Runs R Q (.setPolymorphic next) t

/-- The result of a program whose calls are answered from `σ` and whose cells
hold `value`. -/
def reprocess (σ : ι → τ) (value : γ → ν) : Program ι γ ν τ → τ
  | .done type => type
  | .call _ invocation next => reprocess σ value (next (σ invocation))
  | .perform _ next => reprocess σ value next
  | .enqueue _ next => reprocess σ value next
  | .read cell next => reprocess σ value (next (value cell))
  | .write _ _ next => reprocess σ value next
  | .setMonomorphic _ next => reprocess σ value next
  | .setPolymorphic next => reprocess σ value next

/-- What was read stays valid, or something else happened. -/
theorem Runs.or_of_forall {X : Prop} (h : Runs R Q p t) (hR : ∀ J v, R J v → R' J v ∨ X)
    (hQ : ∀ c v, Q c v → Q' c v ∨ X) : Runs R' Q' p t ∨ X := by
  induction h with
  | done => exact .inl (.done _)
  | call hv _ ih =>
    rcases hR _ _ hv with hv | hX
    · exact ih.imp (Runs.call hv) id
    · exact .inr hX
  | read hv _ ih =>
    rcases hQ _ _ hv with hv | hX
    · exact ih.imp (Runs.read hv) id
    · exact .inr hX
  | perform _ ih => exact ih.imp Runs.perform id
  | enqueue _ ih => exact ih.imp Runs.enqueue id
  | write _ ih => exact ih.imp Runs.write id
  | setMonomorphic _ ih => exact ih.imp Runs.setMonomorphic id
  | setPolymorphic _ ih => exact ih.imp Runs.setPolymorphic id

theorem Runs.mono (h : Runs R Q p t) (hR : ∀ J v, R J v → R' J v) (hQ : ∀ c v, Q c v → Q' c v) :
    Runs R' Q' p t :=
  (h.or_of_forall (X := False) (fun J v hv => .inl (hR J v hv))
    (fun c v hv => .inl (hQ c v hv))).resolve_right id

theorem runs_reprocess {σ : ι → τ} {value : γ → ν} (hR : ∀ J, R J (σ J)) (hQ : ∀ c, Q c (value c))
    (p : Program ι γ ν τ) : Runs R Q p (p.reprocess σ value) := by
  induction p with
  | done => exact .done _
  | call b J next ih => exact .call (hR J) (ih _)
  | perform J next ih => exact .perform ih
  | enqueue J next ih => exact .enqueue ih
  | read c next ih => exact .read (hQ c) (ih _)
  | write c update next ih => exact .write ih
  | setMonomorphic D next ih => exact .setMonomorphic ih
  | setPolymorphic next ih => exact .setPolymorphic ih

end Program

open Program (Runs)

section Soundness

variable [PartialOrder τ]

/-- A possible result of processing: every call is answered within the static
return type of its callee. -/
abbrev Analysis.Returns (A : Analysis ι γ ν τ) : Program ι γ ν τ → τ → Prop :=
  Runs (fun J v => v ≤ A.staticReturnType J) (fun _ _ => True)

/-- The assumptions on the invocations. `Admissible` restricts the results for which processing has
to be monotone, as where the callee of a call depends on the answers before it. -/
structure Analysis.Sound (A : Analysis ι γ ν τ) (Admissible : (ι → τ) → Prop) : Prop where
  /-- Answers that contain `σ` give a result that contains the one for `σ`. -/
  monotone : ∀ I σ value t, Admissible σ →
    Runs (fun J v => σ J ≤ v ∧ v ≤ A.staticReturnType J) (fun c v => value c = v)
      (A.program I) t →
    (A.program I).reprocess σ value ≤ t
  returns_le_static : ∀ I t, A.Returns (A.program I) t → t ≤ A.staticReturnType I
  union_le_static : ∀ I a b, a ≤ A.staticReturnType I → b ≤ A.staticReturnType I →
    A.union a b ≤ A.staticReturnType I
  le_union_left : ∀ a b, a ≤ A.union a b
  /-- A summary whose result is a type returns that type. -/
  summaryResult_eq : ∀ I t r, A.summaryResult I = some t → A.Returns (A.program I) r → r = t

variable {A : Analysis ι γ ν τ}

theorem Analysis.Sound.summaryResult_le {Admissible : (ι → τ) → Prop} (hA : A.Sound Admissible)
    (value : γ → ν) (h : A.summaryResult I = some t) : t ≤ A.staticReturnType I := by
  have hr : A.Returns (A.program I) ((A.program I).reprocess A.staticReturnType value) := by
      refine Program.runs_reprocess ?_ ?_ _
      · exact fun J => le_refl (A.staticReturnType J)
      · exact fun _ => trivial
  exact hA.summaryResult_eq I t _ h hr ▸ hA.returns_le_static I _ hr

/-! ## What an answer is worth later -/

/-- The result an invocation has, or had before it was invalidated. -/
def State.remembered (s : State ι γ ν τ) (J : ι) : Option τ :=
  (s.result J).or (s.invalidatedResult J)

/-- The invocation was asked for: it waits in the queue, is on the call stack or has had a
result. -/
def State.Awaited (s : State ι γ ν τ) (J : ι) : Prop :=
  J ∈ s.pending ∨ J ∈ s.processing ∨ s.remembered J ≠ none

/-- The answer `v` contains what `J` has stored; if that is nothing, `J` is being processed and the
answer is its static type. -/
def Covers (A : Analysis ι γ ν τ) (s : State ι γ ν τ) (J : ι) (v : τ) : Prop :=
  (∀ x, s.remembered J = some x → x ≤ v) ∧
    (s.remembered J = none → J ∈ s.processing ∧ A.staticReturnType J ≤ v)

/-- The answer `v` to a recursive call of an invocation by itself: it will
contain the result, whatever that is. -/
def Bounds (A : Analysis ι γ ν τ) (I : ι) (v : τ) : Prop :=
  A.staticReturnType I ≤ v ∨ ∃ t, A.summaryResult I = some t ∧ t ≤ v

/-- The invocation `I` called `J`, was answered `v`, and may rely on it. -/
def Answered (A : Analysis ι γ ν τ) (s : State ι γ ν τ) (I J : ι) (v : τ) : Prop :=
  v ≤ A.staticReturnType J ∧
    ((J ≠ I ∧ I ∈ s.dependentInvocations J ∧ Covers A s J v) ∨
      (J = I ∧ (I ∈ s.processing → Bounds A I v) ∧ (I ∉ s.processing → Covers A s I v)))

/-- The invocation `I` has read the current value of a cell. -/
def Reads (s : State ι γ ν τ) (I : ι) (c : γ) (v : ν) : Prop :=
  I ∈ s.dependentsOfCell c ∧ s.value c = v

/-- What the invocations in `P` have read stays valid from `s` to `s'`, except for
those that are pending in `s'`, and no invocation that was asked for is lost. -/
structure Evolves (A : Analysis ι γ ν τ) (P : ι → Prop) (s s' : State ι γ ν τ) : Prop where
  dependents : ∀ J, s.dependentInvocations J ⊆ s'.dependentInvocations J
  pending : ∀ I, P I → I ∈ s.pending → I ∈ s'.pending
  awaited : ∀ J, s.Awaited J → s'.Awaited J
  answered : ∀ I J v, P I → Answered A s I J v → Answered A s' I J v ∨ I ∈ s'.pending
  reads : ∀ I c v, P I → Reads s I c v → Reads s' I c v ∨ I ∈ s'.pending

theorem Evolves.refl (A : Analysis ι γ ν τ) (P : ι → Prop) (s : State ι γ ν τ) : Evolves A P s s :=
  ⟨fun _ _ h => h, fun _ _ h => h, fun _ h => h, fun _ _ _ _ h => .inl h, fun _ _ _ _ h => .inl h⟩

theorem Evolves.trans {s' s'' : State ι γ ν τ}
    (h : Evolves A P s s') (h' : Evolves A P s' s'') : Evolves A P s s'' where
  dependents J := List.Subset.trans (h.dependents J) (h'.dependents J)
  pending I hI hp := h'.pending I hI (h.pending I hI hp)
  awaited J hJ := h'.awaited J (h.awaited J hJ)
  answered I J v hI ha :=
    (h.answered I J v hI ha).elim (h'.answered I J v hI) fun hp => .inr (h'.pending I hI hp)
  reads I c v hI hr :=
    (h.reads I c v hI hr).elim (h'.reads I c v hI) fun hp => .inr (h'.pending I hI hp)

variable {s s' : State ι γ ν τ}

theorem Evolves.weaken {P' : ι → Prop}
    (h : Evolves A P s s') (hP : ∀ I, P' I → P I) : Evolves A P' s s' where
  dependents := h.dependents
  pending I hI := h.pending I (hP I hI)
  awaited := h.awaited
  answered I J v hI := h.answered I J v (hP I hI)
  reads I c v hI := h.reads I c v (hP I hI)

theorem Evolves.runs (h : Evolves A P s s') (hI : P I)
    (hr : Runs (Answered A s I) (Reads s I) p t) :
    Runs (Answered A s' I) (Reads s' I) p t ∨ I ∈ s'.pending :=
  hr.or_of_forall (fun J v => h.answered I J v hI) (fun c v => h.reads I c v hI)

/-- A step that changes neither what is remembered nor what is being processed. -/
theorem Evolves.of_remembered
    (hrem : ∀ J, s'.remembered J = s.remembered J) (hproc : s'.processing = s.processing)
    (hdeps : ∀ J, s.dependentInvocations J ⊆ s'.dependentInvocations J)
    (hpend : s.pending ⊆ s'.pending)
    (hread : ∀ I c v, Reads s I c v → Reads s' I c v ∨ I ∈ s'.pending) :
    Evolves A (fun _ => True) s s' where
  dependents := hdeps
  pending I _ hp := hpend hp
  awaited J hJ := by
    rw [State.Awaited, hrem, hproc]
    exact hJ.imp_left fun hp => hpend hp
  answered I J v _ ha := by
    have hcov : ∀ K, Covers A s K v → Covers A s' K v := fun K h => by
      simpa only [Covers, hrem, hproc] using h
    rcases ha with ⟨hle, ⟨hne, hmem, hc⟩ | ⟨heq, hin, hout⟩⟩
    · exact .inl ⟨hle, .inl ⟨hne, hdeps J hmem, hcov J hc⟩⟩
    · exact .inl ⟨hle, .inr ⟨heq, hproc ▸ hin, fun h => hcov I (hout (hproc ▸ h))⟩⟩
  reads I c v _ hr := hread I c v hr

/-! ## The invariant -/

/-- What the work list keeps for each invocation. -/
structure GoodAt (A : Analysis ι γ ν τ) (s : State ι γ ν τ) (J : ι) : Prop where
  irreflexive : J ∉ s.dependentInvocations J
  exclusive : s.result J = none ∨ s.invalidatedResult J = none
  bounded : ∀ x, s.remembered J = some x → x ≤ A.staticReturnType J
  result_pending : J ∈ s.pending → J ∉ s.processing → s.result J = none
  invalidated_pending : J ∉ s.processing → s.invalidatedResult J ≠ none → J ∈ s.pending
  /-- An invocation on the call stack has a result only if that is known upfront. -/
  result_processing : J ∈ s.processing → ∀ x, s.result J = some x →
    ∃ t, A.summaryResult J = some t ∧ t ≤ x
  invalidated_processing : J ∈ s.processing → A.summaryResult J ≠ none →
    s.invalidatedResult J ≠ none → J ∈ s.pending
  justified : J ∉ s.processing → ∀ r, s.result J = some r →
    ∃ t, t ≤ r ∧ Runs (Answered A s J) (Reads s J) (A.program J) t

/-- The invariant of the work list. -/
def Good (A : Analysis ι γ ν τ) (s : State ι γ ν τ) : Prop :=
  ∀ J, GoodAt A s J

/-- The justification of a result survives a step that keeps the result. -/
theorem GoodAt.justified_evolves (hs : GoodAt A s J) (h : Evolves A P s s') (hJ : P J)
    (hout : J ∉ s.processing) (hpend : J ∉ s'.pending) (hr : s.result J = some r) :
    ∃ t, t ≤ r ∧ Runs (Answered A s' J) (Reads s' J) (A.program J) t := by
  obtain ⟨t, hle, hrun⟩ := hs.justified hout r hr
  exact ⟨t, hle, (h.runs hJ hrun).resolve_right hpend⟩

/-- A step keeps the invariant at an invocation it does not store a result for:
what is pending stays pending, and a result that is left was there before. -/
theorem GoodAt.of_evolves (hs : GoodAt A s J) (h : Evolves A P s s') (hJ : P J)
    (hdeps : J ∈ s'.dependentInvocations J → J ∈ s.dependentInvocations J)
    (hrem : s'.remembered J = s.remembered J) (hproc : J ∈ s'.processing ↔ J ∈ s.processing)
    (hres : ∀ r, s'.result J = some r → s.result J = some r ∧
      s'.invalidatedResult J = s.invalidatedResult J ∧ (J ∈ s'.pending → J ∈ s.pending))
    (hinv : s'.invalidatedResult J ≠ none → J ∈ s'.pending ∨ s.invalidatedResult J ≠ none) :
    GoodAt A s' J where
  irreflexive hmem := hs.irreflexive (hdeps hmem)
  exclusive := by
    cases hr : s'.result J with
    | none => exact .inl rfl
    | some r =>
      obtain ⟨hr', hinv', -⟩ := hres r hr
      rw [hinv']
      exact .inr (hs.exclusive.resolve_left (by rw [hr']; nofun))
  bounded x hx := hs.bounded x (hrem ▸ hx)
  result_pending hp hout := by
    cases hr : s'.result J with
    | none => rfl
    | some r =>
      obtain ⟨hr', -, hp'⟩ := hres r hr
      rw [hs.result_pending (hp' hp) (mt hproc.2 hout)] at hr'
      cases hr'
  invalidated_pending hout hne :=
    (hinv hne).elim id fun hne =>
      h.pending J hJ (hs.invalidated_pending (mt hproc.2 hout) hne)
  result_processing hin x hx := hs.result_processing (hproc.1 hin) x (hres x hx).1
  invalidated_processing hin hsum hne :=
    (hinv hne).elim id fun hne =>
      h.pending J hJ (hs.invalidated_processing (hproc.1 hin) hsum hne)
  justified hout r hr := by
    obtain ⟨hr', -, hp'⟩ := hres r hr
    refine hs.justified_evolves h hJ (mt hproc.2 hout) (fun hp => ?_) hr'
    rw [hs.result_pending (hp' hp) (mt hproc.2 hout)] at hr'
    cases hr'

/-! ## The small steps -/

/-- A step that stores nothing: dependencies, queueing, target tracking. -/
structure Registers (s s' : State ι γ ν τ) : Prop where
  result : s'.result = s.result
  invalidatedResult : s'.invalidatedResult = s.invalidatedResult
  processing : s'.processing = s.processing
  value : s'.value = s.value
  dependents : ∀ J, s.dependentInvocations J ⊆ s'.dependentInvocations J
  irreflexive : ∀ J, J ∈ s'.dependentInvocations J → J ∈ s.dependentInvocations J
  dependentsOfCell : ∀ c, s.dependentsOfCell c ⊆ s'.dependentsOfCell c
  pending : s.pending ⊆ s'.pending
  enqueued : ∀ J ∈ s'.pending, J ∈ s.pending ∨ s.result J = none

theorem Registers.evolves (h : Registers s s')
    (A : Analysis ι γ ν τ) : Evolves A (fun _ => True) s s' :=
  .of_remembered (fun J => by rw [State.remembered, h.result, h.invalidatedResult]; rfl)
    h.processing h.dependents h.pending
    fun I c v hr => .inl ⟨h.dependentsOfCell c hr.1, h.value ▸ hr.2⟩

theorem Registers.covers (h : Registers s s') {v : τ} (hv : Covers A s J v) : Covers A s' J v := by
  simpa only [Covers, State.remembered, h.result, h.invalidatedResult, h.processing] using hv

theorem Registers.good (h : Registers s s') (hs : Good A s) : Good A s' := by
  intro J
  refine (hs J).of_evolves (h.evolves A) trivial (h.irreflexive J)
    (by rw [State.remembered, h.result, h.invalidatedResult]; rfl) (by rw [h.processing]) ?_ ?_
  · intro r hr
    rw [h.result] at hr
    refine ⟨hr, by rw [h.invalidatedResult],
      fun hp => (h.enqueued J hp).resolve_right fun hnone => ?_⟩
    rw [hnone] at hr
    cases hr
  · exact fun hne => .inr (h.invalidatedResult ▸ hne)

end Soundness

theorem Registers.refl (s : State ι γ ν τ) : Registers s s where
  result := rfl
  invalidatedResult := rfl
  processing := rfl
  value := rfl
  dependents _ _ h := h
  irreflexive _ h := h
  dependentsOfCell _ _ h := h
  pending _ h := h
  enqueued _ h := Or.inl h

variable [DecidableEq ι]

namespace State

theorem mem_addTo {l : List ι} : J ∈ addTo l I ↔ J ∈ l ∨ J = I := by
  unfold addTo
  split
  · constructor
    · exact .inl
    · rintro (h | rfl) <;> assumption
  · simp

theorem registers_addDependentInvocation (s : State ι γ ν τ) (J I : ι) :
    Registers s (s.addDependentInvocation J I) := by
  unfold addDependentInvocation
  split
  · exact .refl s
  rename_i hne
  refine { Registers.refl s with dependents := ?_, irreflexive := ?_ }
  · intro K x hx
    by_cases hK : K = J
    · subst hK
      simpa using mem_addTo.2 (.inl hx)
    · simpa [update_of_ne hK] using hx
  · intro K hx
    by_cases hK : K = J
    · subst hK
      simp only [update_self, mem_addTo] at hx
      exact hx.resolve_right fun h => hne h.symm
    · simpa [update_of_ne hK] using hx

theorem mem_addDependentInvocation (h : J ≠ I) :
    I ∈ (s.addDependentInvocation J I).dependentInvocations J := by
  simp [addDependentInvocation, h.symm, mem_addTo]

theorem registers_addDependentOfCell [DecidableEq γ] (s : State ι γ ν τ) (c : γ) (I : ι) :
    Registers s (s.addDependentOfCell c I) := by
  refine { Registers.refl s with dependentsOfCell := ?_ }
  intro d x hx
  by_cases hd : d = c
  · subst hd
    simpa [addDependentOfCell] using mem_addTo.2 (.inl hx)
  · simpa [addDependentOfCell, update_of_ne hd] using hx

theorem mem_enqueueInvocation : J ∈ (s.enqueueInvocation I).pending ↔ J ∈ s.pending ∨ J = I := by
  by_cases h : J = I <;> simp [enqueueInvocation, h]

theorem registers_enqueueInvocation (h : s.result I = none) :
    Registers s (s.enqueueInvocation I) := by
  refine { Registers.refl s with pending := ?_, enqueued := ?_ }
  · exact fun J hJ => mem_enqueueInvocation.2 (.inl hJ)
  · intro J hJ
    rcases mem_enqueueInvocation.1 hJ with hJ | rfl
    · exact .inl hJ
    · exact .inr h

end State

/-- The invocations in `l` are invalidated, among them all that read a cell whose
value changes. -/
structure Invalidates (l : List ι) (s s' : State ι γ ν τ) : Prop where
  result : ∀ K, s'.result K = if K ∈ l then none else s.result K
  invalidatedResult : ∀ K,
    s'.invalidatedResult K = if K ∈ l then s.remembered K else s.invalidatedResult K
  pending : ∀ K, K ∈ s'.pending ↔ K ∈ s.pending ∨ K ∈ l
  value : ∀ c, s'.value c = s.value c ∨ s.dependentsOfCell c ⊆ l
  processing : s'.processing = s.processing
  dependentInvocations : s'.dependentInvocations = s.dependentInvocations
  dependentsOfCell : s'.dependentsOfCell = s.dependentsOfCell

namespace Invalidates

variable {l : List ι} {s s' : State ι γ ν τ}

variable (h : Invalidates l s s')
include h

theorem remembered (K : ι) : s'.remembered K = s.remembered K := by
  unfold State.remembered
  rw [h.result, h.invalidatedResult]
  split
  · rfl
  · rfl

theorem evolves [PartialOrder τ] (A : Analysis ι γ ν τ) : Evolves A (fun _ => True) s s' := by
  refine .of_remembered h.remembered h.processing (fun J => by rw [h.dependentInvocations]; simp)
    (fun K hK => (h.pending K).2 (.inl hK)) ?_
  intro I c v hr
  rcases h.value c with heq | hsub
  · exact .inl ⟨h.dependentsOfCell ▸ hr.1, heq.trans hr.2⟩
  · exact .inr ((h.pending I).2 (.inr (hsub hr.1)))

theorem result_of_some (hr : s'.result K = some r) : K ∉ l ∧ s.result K = some r := by
  rw [h.result] at hr
  split at hr
  · cases hr
  · exact ⟨‹_›, hr⟩

theorem invalidatedResult_ne (hne : s'.invalidatedResult K ≠ none) :
    K ∈ l ∨ s.invalidatedResult K ≠ none := by
  rw [h.invalidatedResult] at hne
  split at hne
  · exact .inl ‹_›
  · exact .inr hne

theorem good [PartialOrder τ] {A : Analysis ι γ ν τ} (hs : Good A s) : Good A s' := by
  intro J
  refine (hs J).of_evolves (h.evolves A) trivial (fun hmem => h.dependentInvocations ▸ hmem)
    (h.remembered J) (by rw [h.processing]) ?_ ?_
  · intro r hr
    obtain ⟨hJ, hr⟩ := h.result_of_some hr
    exact ⟨hr, (h.invalidatedResult J).trans (if_neg hJ),
      fun hp => ((h.pending J).1 hp).resolve_right hJ⟩
  · exact fun hne =>
      (h.invalidatedResult_ne hne).imp_left fun hJ => (h.pending J).2 (.inr hJ)

end Invalidates

namespace State

section

variable (s : State ι γ ν τ)

theorem invalidates_invalidateInvocation (I : ι) :
    Invalidates [I] s (s.invalidateInvocation I) := by
  unfold invalidateInvocation
  split
  · rename_i r hr
    refine ⟨fun K => ?_, fun K => ?_, fun K => ?_, fun c => .inl rfl, rfl, rfl, rfl⟩
    · by_cases hK : K = I <;> simp [enqueueInvocation, hK]
    · by_cases hK : K = I
      · subst hK
        simp [enqueueInvocation, remembered, hr]
      · simp [enqueueInvocation, hK]
    · simpa using mem_enqueueInvocation
  · rename_i hr
    refine ⟨fun K => ?_, fun K => ?_, fun K => ?_, fun c => .inl rfl, rfl, rfl, rfl⟩
    · by_cases hK : K = I <;> simp [enqueueInvocation, hK, hr]
    · by_cases hK : K = I
      · subst hK
        simp [enqueueInvocation, remembered, hr]
      · simp [enqueueInvocation, hK]
    · simpa using mem_enqueueInvocation

theorem value_invalidateAll (l : List ι) : (s.invalidateAll l).value = s.value := by
  induction l generalizing s with
  | nil => rfl
  | cons I l ih =>
    refine (ih (s.invalidateInvocation I)).trans ?_
    unfold invalidateInvocation
    split <;> rfl

theorem invalidates_invalidateAll (l : List ι) : Invalidates l s (s.invalidateAll l) := by
  induction l generalizing s with
  | nil =>
    exact ⟨fun K => by simp [invalidateAll], fun K => by simp [invalidateAll],
      fun K => by simp [invalidateAll], fun c => .inl rfl, rfl, rfl, rfl⟩
  | cons I l ih =>
    have h := invalidates_invalidateInvocation s I
    have h' : Invalidates l _ (s.invalidateAll (I :: l)) := ih (s.invalidateInvocation I)
    refine ⟨fun K => ?_, fun K => ?_, fun K => ?_, fun c => ?_, h'.processing.trans h.processing,
      h'.dependentInvocations.trans h.dependentInvocations,
      h'.dependentsOfCell.trans h.dependentsOfCell⟩
    · rw [h'.result, h.result]
      by_cases hl : K ∈ l <;> simp [hl]
    · rw [h'.invalidatedResult, h.invalidatedResult, h.remembered]
      by_cases hl : K ∈ l <;> simp [hl]
    · rw [h'.pending, h.pending]
      simp [or_assoc]
    · exact .inl (congrFun (value_invalidateAll s (I :: l)) c)

theorem invalidates_setValue [DecidableEq γ] [DecidableEq ν] (c : γ) (v : ν) :
    ∃ l, Invalidates l s (s.setValue c v) := by
  unfold setValue
  split
  · have h := invalidates_invalidateAll s (s.dependentsOfCell c)
    refine ⟨s.dependentsOfCell c, { h with value := fun d => ?_ }⟩
    by_cases hd : d = c
    · exact .inr (hd ▸ List.Subset.refl _)
    · exact .inl (by simp [update_of_ne hd])
  · exact ⟨[], invalidates_invalidateAll s []⟩

end

end State

end Dart2Wasm.TypeFlow.WorkList
