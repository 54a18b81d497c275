import Dart2Wasm.TypeFlow.WorkListSound

/-!
# TypeFlow.WorkListSteps — beginning, completing and deferring an invocation

The steps of `processInvocation` that store a result. Each keeps the invariant,
and each leaves the reads of the other invocations on the call stack valid or
makes the reader pending.
-/

namespace Dart2Wasm.TypeFlow.WorkList

open State Analysis Finset Function

open Program (Runs)

variable {ι γ ν τ : Type} [DecidableEq ι]
variable {K J : ι} {v : τ} {Admissible : (ι → τ) → Prop} {s : State ι γ ν τ}

/-! ## Storing a result -/

/-- The type `t` is stored as the result `r` of `J`, and the invocations in `l`
are told. -/
structure Stores (A : Analysis ι γ ν τ) (J : ι) (t r : τ) (l : List ι) (s s' : State ι γ ν τ) :
    Prop where
  result_self : s'.result J = some r
  invalidatedResult_self : s'.invalidatedResult J = none
  result : ∀ K, K ≠ J → s'.result K = if K ∈ l then none else s.result K
  invalidatedResult : ∀ K, K ≠ J →
    s'.invalidatedResult K = if K ∈ l then s.remembered K else s.invalidatedResult K
  pending : ∀ K, K ∈ s'.pending ↔ K ∈ s.pending ∨ K ∈ l
  processing : s'.processing = s.processing
  dependentInvocations : s'.dependentInvocations = s.dependentInvocations
  value : s'.value = s.value
  dependentsOfCell : s'.dependentsOfCell = s.dependentsOfCell
  told : l ⊆ s.dependentInvocations J
  /-- Nobody is told only if nothing was remembered, or the very same type. -/
  unchanged : (r = t ∧ ∀ y, s.invalidatedResult J = some y → y = t) ∨
    (l = s.dependentInvocations J ∧ ∃ y, s.invalidatedResult J = some y ∧ (r = t ∨ r = A.union t y))

namespace Stores

variable {A : Analysis ι γ ν τ} {J : ι} {t r : τ} {l : List ι} {s s' : State ι γ ν τ}
  (h : Stores A J t r l s s')
include h

theorem remembered (hK : K ≠ J) : s'.remembered K = s.remembered K := by
  unfold State.remembered
  rw [h.result K hK, h.invalidatedResult K hK]
  split
  · rfl
  · rfl

theorem remembered_self : s'.remembered J = some r := by
  rw [State.remembered, h.result_self]
  rfl

variable [PartialOrder τ]

/-- A caller of `J` that is not told was answered with something that contains `t`. -/
theorem covers (ht : t ≤ A.staticReturnType J)
    (hres : ∀ x, s.result J = some x → t ≤ x) {I : ι} (hI : I ∈ s.dependentInvocations J)
    (hv : Covers A s J v) : Covers A s' J v ∨ I ∈ s'.pending := by
  rcases h.unchanged with ⟨rfl, hsame⟩ | ⟨rfl, -⟩
  · left
    refine ⟨fun x hx => ?_, fun hnone => ?_⟩
    · rw [h.remembered_self] at hx
      cases hx
      cases hr : s.result J with
      | some x =>
        exact (hres x hr).trans (hv.1 x (by rw [State.remembered, hr]; rfl))
      | none =>
        cases hy : s.invalidatedResult J with
        | some y =>
          cases hsame y hy
          exact hv.1 _ (by rw [State.remembered, hr, hy]; rfl)
        | none => exact ht.trans (hv.2 (by rw [State.remembered, hr, hy]; rfl)).2
    · rw [h.remembered_self] at hnone
      cases hnone
  · exact .inr ((h.pending I).2 (.inr hI))

theorem evolves (hJ : J ∈ s.processing) (ht : t ≤ A.staticReturnType J)
    (hres : ∀ x, s.result J = some x → t ≤ x) : Evolves A (fun _ => True) s s' where
  dependents K := by rw [h.dependentInvocations]; exact List.Subset.refl _
  pending I _ hp := (h.pending I).2 (.inl hp)
  awaited K hK := by
    by_cases hKJ : K = J
    · exact .inr (.inl (h.processing ▸ hKJ ▸ hJ))
    · rw [State.Awaited, h.remembered hKJ, h.processing]
      exact hK.imp_left fun hp => (h.pending K).2 (.inl hp)
  answered I K v _ ha := by
    have hother : ∀ K, K ≠ J → Covers A s K v → Covers A s' K v := fun K hK hc => by
      simpa only [Covers, h.remembered hK, h.processing] using hc
    rcases ha with ⟨hle, ⟨hne, hmem, hc⟩ | ⟨rfl, hin, hout⟩⟩
    · have hc' : Covers A s' K v ∨ I ∈ s'.pending := by
        by_cases hK : K = J
        · subst hK
          exact h.covers ht hres hmem hc
        · exact .inl (hother K hK hc)
      exact hc'.imp_left fun hc' =>
        ⟨hle, .inl ⟨hne, h.dependentInvocations ▸ hmem, hc'⟩⟩
    · refine .inl ⟨hle, .inr ⟨rfl, h.processing ▸ hin, fun hK => ?_⟩⟩
      rw [h.processing] at hK
      exact hother K (fun heq => hK (heq ▸ hJ)) (hout hK)
  reads I c v _ hr := .inl ⟨h.dependentsOfCell ▸ hr.1, h.value ▸ hr.2⟩

theorem goodAt (he : Evolves A (fun _ => True) s s') (hK : K ≠ J)
    (hs : GoodAt A s K) : GoodAt A s' K := by
  refine hs.of_evolves he trivial (fun hmem => h.dependentInvocations ▸ hmem) (h.remembered hK)
    (by rw [h.processing]) ?_ ?_
  · intro x hx
    rw [h.result K hK] at hx
    split at hx
    · cases hx
    · rename_i hl
      exact ⟨hx, (h.invalidatedResult K hK).trans (if_neg hl),
        fun hp => ((h.pending K).1 hp).resolve_right hl⟩
  · intro hne
    rw [h.invalidatedResult K hK] at hne
    split at hne
    · exact .inl ((h.pending K).2 (.inr ‹_›))
    · exact .inr hne

theorem le_result (hA : A.Sound Admissible) : t ≤ r := by
  rcases h.unchanged with ⟨rfl, -⟩ | ⟨-, y, -, rfl | rfl⟩
  · exact le_refl _
  · exact le_refl _
  · exact hA.le_union_left t y

theorem result_le_static (hA : A.Sound Admissible) (ht : t ≤ A.staticReturnType J)
    (hex : s.result J = none ∨ s.invalidatedResult J = none)
    (hb : ∀ x, s.remembered J = some x → x ≤ A.staticReturnType J) : r ≤ A.staticReturnType J := by
  rcases h.unchanged with ⟨rfl, -⟩ | ⟨-, y, hy, rfl | rfl⟩
  · exact ht
  · exact ht
  · have hnone : s.result J = none := hex.resolve_right (by rw [hy]; nofun)
    exact hA.union_le_static J t y ht (hb y (by rw [State.remembered, hnone]; exact hy))

end Stores

namespace Analysis

theorem setResult_of_changed [DecidableEq τ] (A : Analysis ι γ ν τ)
    (hirr : J ∉ s.dependentInvocations J) {t y : τ} (hinv : s.invalidatedResult J = some y)
    (hy : y ≠ t) :
    ∃ r counter, (r = t ∨ r = A.union t y) ∧
      A.setResult s J t =
        let s₁ := { s with result := update s.result J (some t) }
        let s₂ := s₁.invalidateAll (s.dependentInvocations J)
        { s₂ with
          invalidationCounter := counter
          result := update s₂.result J (some r)
          invalidatedResult := update s₂.invalidatedResult J none } := by
  let s₁ : State ι γ ν τ := { s with result := update s.result J (some t) }
  have hself : (s₁.invalidateAll (s.dependentInvocations J)).result J = some t := by
    rw [(invalidates_invalidateAll s₁ _).result, if_neg hirr]
    exact update_self ..
  have hkeep : update (s₁.invalidateAll (s.dependentInvocations J)).result J (some t) =
      (s₁.invalidateAll (s.dependentInvocations J)).result :=
    hself ▸ update_eq_self ..
  simp only [setResult, hinv, ne_eq, hy, not_false_eq_true, if_true]
  split
  · exact ⟨_, _, .inr rfl, rfl⟩
  · exact ⟨t, _, .inl rfl, by rw [hkeep]⟩

theorem stores_setResult [DecidableEq τ] (A : Analysis ι γ ν τ)
    (hirr : J ∉ s.dependentInvocations J) (t : τ) :
    ∃ r l, Stores A J t r l s (A.setResult s J t) := by
  let s₁ : State ι γ ν τ := { s with result := update s.result J (some t) }
  have hne : ∀ K, K ≠ J → s₁.result K = s.result K := fun K hK => update_of_ne hK _ _
  cases hinv : s.invalidatedResult J with
  | none =>
    refine ⟨t, [], ?_⟩
    have heq : A.setResult s J t = s₁ := by simp only [setResult, hinv, s₁]
    rw [heq]
    exact ⟨update_self .., hinv, fun K hK => by simpa using hne K hK,
      fun K _ => by simp [s₁], fun K => by simp [s₁], rfl, rfl, rfl, rfl, by simp,
      .inl ⟨rfl, fun y hy => by rw [hinv] at hy; cases hy⟩⟩
  | some y =>
    by_cases hy : y = t
    · refine ⟨t, [], ?_⟩
      have heq : A.setResult s J t =
          { s₁ with invalidatedResult := update s.invalidatedResult J none } := by
        simp [setResult, hinv, hy, s₁]
      rw [heq]
      exact ⟨update_self .., update_self .., fun K hK => by simpa using hne K hK,
        fun K hK => by simp [update_of_ne hK], fun K => by simp [s₁], rfl, rfl, rfl, rfl,
        by simp, .inl ⟨rfl, fun z hz => by rw [hinv] at hz; cases hz; exact hy⟩⟩
    · -- the dependents are told; the invocation is none of them
      have h := invalidates_invalidateAll s₁ (s.dependentInvocations J)
      obtain ⟨r, counter, hr, heq⟩ := setResult_of_changed A hirr hinv hy
      refine ⟨r, s.dependentInvocations J, ?_⟩
      rw [heq]
      refine ⟨update_self .., update_self .., fun K hK => ?_, fun K hK => ?_,
        h.pending, h.processing, h.dependentInvocations, value_invalidateAll _ _,
        h.dependentsOfCell, List.Subset.refl _, .inr ⟨rfl, y, hinv, hr⟩⟩
      · rw [← hne K hK, ← h.result K]
        exact update_of_ne hK _ _
      · have hrem : s₁.remembered K = s.remembered K := by
          rw [remembered, hne K hK]
          rfl
        rw [← hrem, ← h.invalidatedResult K]
        exact update_of_ne hK _ _

end Analysis

/-! ## Beginning an invocation -/

variable [PartialOrder τ]

/-- The invocation `J` goes on the call stack and off the pending list. -/
structure Enters (J : ι) (s s' : State ι γ ν τ) : Prop where
  result : s'.result = s.result
  invalidatedResult : s'.invalidatedResult = s.invalidatedResult
  pending : ∀ K, K ∈ s'.pending ↔ K ∈ s.pending ∧ K ≠ J
  processing : s'.processing = insert J s.processing
  dependentInvocations : s'.dependentInvocations = s.dependentInvocations
  value : s'.value = s.value
  dependentsOfCell : s'.dependentsOfCell = s.dependentsOfCell

namespace Enters

variable {A : Analysis ι γ ν τ} {J : ι} {s s' : State ι γ ν τ}

omit [PartialOrder τ] in
theorem remembered (h : Enters J s s') (K : ι) : s'.remembered K = s.remembered K := by
  rw [State.remembered, h.result, h.invalidatedResult]
  rfl

omit [PartialOrder τ] in
theorem mem_processing (h : Enters J s s') (hK : K ≠ J) : K ∈ s'.processing ↔ K ∈ s.processing := by
  rw [h.processing, mem_insert]
  simp [hK]

theorem evolves (h : Enters J s s') : Evolves A (· ≠ J) s s' where
  dependents K := by rw [h.dependentInvocations]; exact List.Subset.refl _
  pending I hI hp := (h.pending I).2 ⟨hp, hI⟩
  awaited K hK := by
    by_cases hKJ : K = J
    · exact .inr (.inl (h.processing ▸ hKJ ▸ mem_insert_self ..))
    · rw [State.Awaited, h.remembered, h.mem_processing hKJ]
      exact hK.imp_left fun hp => (h.pending K).2 ⟨hp, hKJ⟩
  answered I K v hI ha := by
    have hcov : ∀ K, Covers A s K v → Covers A s' K v := fun K hc => by
      refine ⟨h.remembered K ▸ hc.1, fun hnone => ?_⟩
      have hin := hc.2 (h.remembered K ▸ hnone)
      exact ⟨h.processing ▸ mem_insert_of_mem hin.1, hin.2⟩
    rcases ha with ⟨hle, ⟨hne, hmem, hc⟩ | ⟨rfl, hin, hout⟩⟩
    · exact .inl ⟨hle, .inl ⟨hne, h.dependentInvocations ▸ hmem, hcov K hc⟩⟩
    · exact .inl ⟨hle, .inr ⟨rfl, fun hp => hin ((h.mem_processing hI).1 hp),
        fun hp => hcov K (hout (mt (h.mem_processing hI).2 hp))⟩⟩
  reads I c v _ hr := .inl ⟨h.dependentsOfCell ▸ hr.1, h.value ▸ hr.2⟩

theorem goodAt (h : Enters J s s') (hK : K ≠ J) (hs : GoodAt A s K) : GoodAt A s' K :=
  hs.of_evolves h.evolves hK (fun hmem => h.dependentInvocations ▸ hmem) (h.remembered K)
    (h.mem_processing hK)
    (fun _ hr => ⟨h.result ▸ hr, by rw [h.invalidatedResult], fun hp => ((h.pending K).1 hp).1⟩)
    (fun hne => .inr (h.invalidatedResult ▸ hne))

end Enters

/-- What is known about a begun invocation. -/
structure Begun (A : Analysis ι γ ν τ) (J : ι) (s s' : State ι γ ν τ) : Prop where
  good : Good A s'
  evolves : Evolves A (· ≠ J) s s'
  processing : s'.processing = insert J s.processing

variable {A : Analysis ι γ ν τ} {s' : State ι γ ν τ}

theorem begun [DecidableEq τ] (hA : A.Sound Admissible) (hs : Good A s)
    (hres : s.result J = none) : Begun A J s (A.begin s J) := by
  let s₁ : State ι γ ν τ := { s with
    processing := insert J s.processing
    callStack := s.callStack ++ [J]
    pending := s.pending.filter (· ≠ J) }
  have h : Enters J s s₁ := ⟨rfl, rfl, fun K => by simp [s₁], rfl, rfl, rfl, rfl⟩
  have hin : J ∈ s₁.processing := mem_insert_self ..
  have hpend : J ∉ s₁.pending := fun hp => ((h.pending J).1 hp).2 rfl
  cases hsum : A.summaryResult J with
  | none =>
    have heq : A.begin s J = s₁ := by simp only [begin, hsum, s₁]
    rw [heq]
    refine ⟨fun K => ?_, h.evolves, rfl⟩
    by_cases hK : K = J
    · subst hK
      exact
        { irreflexive := (hs K).irreflexive
          exclusive := (hs K).exclusive
          bounded := (hs K).bounded
          result_pending := fun _ hout => absurd hin hout
          invalidated_pending := fun hout => absurd hin hout
          result_processing := fun _ x hx => by
            have hx : s.result K = some x := hx
            rw [hres] at hx
            cases hx
          invalidated_processing := fun _ hne => absurd hsum hne
          justified := fun hout => absurd hin hout }
    · exact h.goodAt hK (hs K)
  | some t =>
    have heq : A.begin s J = A.setResult s₁ J t := by
      simp only [begin, hsum, s₁]
      exact if_neg hpend
    obtain ⟨r, l, h₂⟩ := A.stores_setResult (s := s₁) (hs J).irreflexive t
    have ht := hA.summaryResult_le s.value hsum
    have he₂ := h₂.evolves hin ht fun x hx => by
      have hx : s.result J = some x := hx
      rw [hres] at hx
      cases hx
    rw [heq]
    refine ⟨fun K => ?_, h.evolves.trans (he₂.weaken fun _ _ => trivial), h₂.processing⟩
    by_cases hK : K = J
    · subst hK
      have hin₂ : K ∈ (A.setResult s₁ K t).processing := h₂.processing ▸ hin
      exact
        { irreflexive := h₂.dependentInvocations ▸ (hs K).irreflexive
          exclusive := .inr h₂.invalidatedResult_self
          bounded := fun x hx => by
            rw [h₂.remembered_self] at hx
            cases hx
            exact h₂.result_le_static hA ht (hs K).exclusive (hs K).bounded
          result_pending := fun _ hout => absurd hin₂ hout
          invalidated_pending := fun hout => absurd hin₂ hout
          result_processing := fun _ x hx => by
            rw [h₂.result_self] at hx
            cases hx
            exact ⟨t, hsum, h₂.le_result hA⟩
          invalidated_processing := fun _ _ hne => absurd h₂.invalidatedResult_self hne
          justified := fun hout => absurd hin₂ hout }
    · exact h₂.goodAt he₂ hK (h.goodAt hK (hs K))

/-! ## Completing an invocation -/

/-- The invocation `J` leaves the call stack with the result `r`, which counts as
invalidated if `J` is pending again. -/
structure Leaves (J : ι) (r : τ) (s s' : State ι γ ν τ) : Prop where
  result_self : s'.result J = if J ∈ s.pending then none else some r
  invalidatedResult_self : s'.invalidatedResult J = if J ∈ s.pending then some r else none
  result : ∀ K, K ≠ J → s'.result K = s.result K
  invalidatedResult : ∀ K, K ≠ J → s'.invalidatedResult K = s.invalidatedResult K
  pending : s'.pending = s.pending
  processing : s'.processing = s.processing.erase J
  dependentInvocations : s'.dependentInvocations = s.dependentInvocations
  value : s'.value = s.value
  dependentsOfCell : s'.dependentsOfCell = s.dependentsOfCell

namespace Leaves

variable {A : Analysis ι γ ν τ} {J : ι} {r : τ} {s s' : State ι γ ν τ}

omit [PartialOrder τ] in
theorem remembered_self (h : Leaves J r s s') : s'.remembered J = some r := by
  rw [remembered, h.result_self, h.invalidatedResult_self]
  split <;> rfl

omit [PartialOrder τ] in
theorem remembered (h : Leaves J r s s') (hK : K ≠ J) : s'.remembered K = s.remembered K := by
  rw [State.remembered, h.result K hK, h.invalidatedResult K hK]
  rfl

omit [PartialOrder τ] in
theorem mem_processing (h : Leaves J r s s') (hK : K ≠ J) :
    K ∈ s'.processing ↔ K ∈ s.processing := by
  rw [h.processing, mem_erase]
  simp [hK]

theorem covers (h : Leaves J r s s') (hrem : s.remembered J = some r)
    (hv : Covers A s K v) : Covers A s' K v := by
  by_cases hK : K = J
  · subst hK
    refine ⟨fun x hx => hv.1 x (by rw [hrem, ← h.remembered_self, hx]), fun hnone => ?_⟩
    rw [h.remembered_self] at hnone
    cases hnone
  · refine ⟨h.remembered hK ▸ hv.1, fun hnone => ?_⟩
    have hin := hv.2 (h.remembered hK ▸ hnone)
    exact ⟨(h.mem_processing hK).2 hin.1, hin.2⟩

section

variable (h : Leaves J r s s') (hrem : s.remembered J = some r)
include h hrem

theorem evolves :
    Evolves A (· ≠ J) s s' where
  dependents K := by rw [h.dependentInvocations]; exact List.Subset.refl _
  pending I _ hp := h.pending ▸ hp
  awaited K hK := by
    by_cases hKJ : K = J
    · exact .inr (.inr (by rw [hKJ, h.remembered_self]; nofun))
    · rwa [State.Awaited, h.remembered hKJ, h.mem_processing hKJ, h.pending]
  answered I K v hI ha := by
    rcases ha with ⟨hle, ⟨hne, hmem, hc⟩ | ⟨rfl, hin, hout⟩⟩
    · exact .inl ⟨hle, .inl ⟨hne, h.dependentInvocations ▸ hmem, h.covers hrem hc⟩⟩
    · exact .inl ⟨hle, .inr ⟨rfl, fun hp => hin ((h.mem_processing hI).1 hp),
        fun hp => h.covers hrem (hout (mt (h.mem_processing hI).2 hp))⟩⟩
  reads I c v _ hr := .inl ⟨h.dependentsOfCell ▸ hr.1, h.value ▸ hr.2⟩

theorem goodAt (hK : K ≠ J) (hs : GoodAt A s K) : GoodAt A s' K :=
  hs.of_evolves (h.evolves hrem) hK (fun hmem => h.dependentInvocations ▸ hmem) (h.remembered hK)
    (h.mem_processing hK)
    (fun _ hr => ⟨h.result K hK ▸ hr, h.invalidatedResult K hK, fun hp => h.pending ▸ hp⟩)
    (fun hne => .inr (h.invalidatedResult K hK ▸ hne))

/-- The result of an invocation that was not invalidated meanwhile is justified:
its answers from itself contain the result as well. -/
theorem runs
    (hbounds : ∀ v, Bounds A J v → r ≤ v) (hin : J ∈ s.processing) {p : Program ι γ ν τ} {t : τ}
    (hrun : Runs (Answered A s J) (Reads s J) p t) : Runs (Answered A s' J) (Reads s' J) p t := by
  refine hrun.mono (fun K v ha => ?_)
    fun c v hr => ⟨h.dependentsOfCell ▸ hr.1, h.value ▸ hr.2⟩
  rcases ha with ⟨hle, ⟨hne, hmem, hc⟩ | ⟨rfl, hself, -⟩⟩
  · exact ⟨hle, .inl ⟨hne, h.dependentInvocations ▸ hmem, h.covers hrem hc⟩⟩
  refine ⟨hle, .inr ⟨rfl, fun hp => ?_, fun _ => ⟨fun x hx => ?_, fun hnone => ?_⟩⟩⟩
  · rw [h.processing] at hp
    exact absurd rfl (ne_of_mem_erase hp)
  · rw [h.remembered_self] at hx
    cases hx
    exact hbounds v (hself hin)
  · rw [h.remembered_self] at hnone
    cases hnone

end

end Leaves

/-- The answer `v` to a call of `J`, and what it leaves of the reads in `P`. -/
structure Processed (A : Analysis ι γ ν τ) (P : ι → Prop) (J : ι) (v : τ) (s s' : State ι γ ν τ) :
    Prop where
  good : Good A s'
  evolves : Evolves A P s s'
  static : v ≤ A.staticReturnType J
  covers : Covers A s' J v

omit [DecidableEq ι] in
theorem Covers.of_remembered (h : s.remembered J = some v) : Covers A s J v := by
  refine ⟨fun x hx => ?_, fun hnone => ?_⟩
  · rw [h] at hx
    cases hx
    exact le_refl _
  · rw [h] at hnone
    cases hnone

omit [PartialOrder τ] in
theorem leaves_complete [DecidableEq τ] {t : τ} (h : A.complete s J t = some (s', v)) :
    (A.setResult s J t).result J = some v ∧
      (∀ r, (A.setResult s J t).result J = some r →
        (A.setResult s J t).invalidatedResult J = none → Leaves J r (A.setResult s J t) s') := by
  generalize hs₂ : A.setResult s J t = s₂ at h
  simp only [complete, hs₂, Option.map_eq_some_iff, Prod.mk.injEq] at h
  obtain ⟨r, hr, hs', rfl⟩ := h
  refine ⟨hr, fun r' hr' hinv => ?_⟩
  cases hr.symm.trans hr'
  rw [← hs']
  by_cases hp : J ∈ s₂.pending
  · simp only [hp, if_true]
    exact ⟨by simp [hp], by simp [hp], fun K hK => by simp [update_of_ne hK],
      fun K hK => by simp [update_of_ne hK], rfl, rfl, rfl, rfl, rfl⟩
  · simp only [hp, if_false]
    exact ⟨by simp [hp, hr], by simp [hp, hinv], fun K hK => rfl, fun K hK => rfl, rfl, rfl, rfl,
      rfl, rfl⟩

theorem processed_complete [DecidableEq τ] (hA : A.Sound Admissible)
    (hs : Good A s) {t : τ} (hin : J ∈ s.processing) (hret : A.Returns (A.program J) t)
    (hrun : Runs (Answered A s J) (Reads s J) (A.program J) t ∨ J ∈ s.pending)
    (h : A.complete s J t = some (s', v)) :
    Processed A (· ≠ J) J v s s' ∧ s'.processing = s.processing.erase J := by
  obtain ⟨r, l, h₂⟩ := A.stores_setResult (hs J).irreflexive t
  obtain ⟨hv, hleaves⟩ := leaves_complete h
  have h₃ := hleaves r h₂.result_self h₂.invalidatedResult_self
  cases hv.symm.trans h₂.result_self
  have ht : t ≤ A.staticReturnType J := hA.returns_le_static J t hret
  have hr : v ≤ A.staticReturnType J := h₂.result_le_static hA ht (hs J).exclusive (hs J).bounded
  have he₂ := h₂.evolves hin ht fun x hx => by
    obtain ⟨t₀, hsum, hle⟩ := (hs J).result_processing hin x hx
    exact (hA.summaryResult_eq J t₀ t hsum hret).trans_le hle
  have hrem := h₂.remembered_self
  refine ⟨⟨fun K => ?_, (he₂.weaken fun _ _ => trivial).trans (h₃.evolves hrem), hr, ?_⟩, ?_⟩
  · by_cases hK : K = J
    · subst hK
      have hout : K ∉ s'.processing := by
        rw [h₃.processing]
        exact notMem_erase _ _
      refine ⟨?_, ?_, ?_, ?_, ?_, fun hp => absurd hp hout, fun hp => absurd hp hout, ?_⟩
      · rw [h₃.dependentInvocations, h₂.dependentInvocations]
        exact (hs K).irreflexive
      · rw [h₃.result_self, h₃.invalidatedResult_self]
        split
        · exact .inl rfl
        · exact .inr rfl
      · intro x hx
        rw [h₃.remembered_self] at hx
        cases hx
        exact hr
      · intro hp _
        rw [h₃.pending] at hp
        rw [h₃.result_self, if_pos hp]
      · intro _ hne
        rw [h₃.invalidatedResult_self] at hne
        rw [h₃.pending]
        by_contra hp
        exact hne (if_neg hp)
      · intro _ r' hr'
        rw [h₃.result_self] at hr'
        split at hr'
        · cases hr'
        rename_i hp
        cases hr'
        have hp₀ : K ∉ s.pending := fun hp₀ => hp ((h₂.pending K).2 (.inl hp₀))
        have hrun₂ := (he₂.runs trivial (hrun.resolve_right hp₀)).resolve_right hp
        refine ⟨t, h₂.le_result hA, h₃.runs hrem (fun w hw => ?_) (h₂.processing ▸ hin) hrun₂⟩
        rcases hw with hw | ⟨t₀, hsum, hle⟩
        · exact hr.trans hw
        -- a result known upfront is only replaced by another if it was invalidated
        have hinv : s.invalidatedResult K = none := by
          by_contra hne
          exact hp₀ ((hs K).invalidated_processing hin (by rw [hsum]; nofun) hne)
        rcases h₂.unchanged with ⟨rfl, -⟩ | ⟨-, y, hy, -⟩
        · exact (hA.summaryResult_eq K t₀ _ hsum hret).trans_le hle
        · rw [hinv] at hy
          cases hy
    · exact h₃.goodAt hrem hK (h₂.goodAt he₂ hK (hs K))
  · exact .of_remembered h₃.remembered_self
  · rw [h₃.processing, h₂.processing]

/-! ## Deferring an invocation -/

theorem processed_defer [OrderBot τ] [DecidableEq τ] (hs : Good A s)
    (hres : s.result J = none) (hout : J ∉ s.processing) (h : defer s J = some (s', v)) :
    Processed A (fun _ => True) J v s s' ∧ s'.processing = s.processing := by
  cases hinv : s.invalidatedResult J with
  | some y =>
    have hrem : s.remembered J = some y := by rw [remembered, hres, hinv]; rfl
    have h₁ := invalidates_invalidateInvocation s J
    simp only [defer, hinv, reduceCtorEq, if_false, Option.map_eq_some_iff, Prod.mk.injEq] at h
    obtain ⟨x, hx, rfl, rfl⟩ := h
    rw [h₁.invalidatedResult, if_pos (List.mem_singleton_self J), hrem] at hx
    cases hx
    exact ⟨⟨h₁.good hs, h₁.evolves A, (hs J).bounded y hrem,
      .of_remembered ((h₁.remembered J).trans hrem)⟩, h₁.processing⟩
  | none =>
    let s₁ : State ι γ ν τ := { s with result := update s.result J (some ⊥) }
    have hne : ∀ K, K ≠ J → s₁.result K = s.result K := fun K hK => update_of_ne hK _ _
    have hrem₁ : s₁.remembered J = some ⊥ := by
      simp [remembered, s₁]
    have hremK : ∀ K, K ≠ J → s₁.remembered K = s.remembered K := fun K hK => by
      rw [remembered, hne K hK]
      rfl
    have hnone : s.remembered J = none := by rw [remembered, hres, hinv]; rfl
    have h₁ := invalidates_invalidateInvocation s₁ J
    simp only [defer, hinv, if_true, Option.map_eq_some_iff, Prod.mk.injEq] at h
    obtain ⟨x, hx, hs', rfl⟩ := h
    rw [h₁.invalidatedResult, if_pos (List.mem_singleton_self J), hrem₁] at hx
    cases hx
    rw [hs'] at h₁
    have hpend : J ∈ s'.pending := (h₁.pending J).2 (.inr (List.mem_singleton_self J))
    have hcov : ∀ K w, Covers A s K w → Covers A s' K w := fun K w hc => by
      -- nobody relies on an answer from `J`, which has never had a result
      have hK : K ≠ J := fun hK => hout (hK ▸ (hc.2 (hK ▸ hnone)).1)
      simpa only [Covers, h₁.remembered, hremK K hK, h₁.processing] using hc
    have he : Evolves A (fun _ => True) s s' :=
      { dependents := fun K => by rw [h₁.dependentInvocations]; exact List.Subset.refl _
        pending := fun I _ hp => (h₁.pending I).2 (.inl hp)
        awaited := fun K hK => by
          by_cases hKJ : K = J
          · exact .inl (hKJ ▸ hpend)
          · rw [Awaited, h₁.remembered, hremK K hKJ, h₁.processing]
            exact hK.imp_left fun hp => (h₁.pending K).2 (.inl hp)
        answered := fun I K w _ ha => by
          rcases ha with ⟨hle, ⟨hKI, hmem, hc⟩ | ⟨rfl, hin, hself⟩⟩
          · exact .inl ⟨hle, .inl ⟨hKI, h₁.dependentInvocations ▸ hmem, hcov K w hc⟩⟩
          · exact .inl ⟨hle, .inr ⟨rfl, h₁.processing ▸ hin,
              fun hp => hcov K w (hself (h₁.processing ▸ hp))⟩⟩
        reads := fun I c w _ hr => by
          have hval : s'.value = s.value := by
            rw [← hs']
            exact value_invalidateAll s₁ [J]
          exact .inl ⟨h₁.dependentsOfCell ▸ hr.1, hval ▸ hr.2⟩ }
    refine ⟨⟨fun K => ?_, he, bot_le, .of_remembered ((h₁.remembered J).trans hrem₁)⟩,
      h₁.processing⟩
    by_cases hK : K = J
    · subst hK
      have hres' : s'.result K = none := by rw [h₁.result]; simp
      exact
        { irreflexive := h₁.dependentInvocations ▸ (hs K).irreflexive
          exclusive := .inl hres'
          bounded := fun x hx => by
            rw [h₁.remembered, hrem₁] at hx
            cases hx
            exact bot_le
          result_pending := fun _ _ => hres'
          invalidated_pending := fun _ _ => hpend
          result_processing := fun _ x hx => by rw [hres'] at hx; cases hx
          invalidated_processing := fun _ _ _ => hpend
          justified := fun _ r hr => by rw [hres'] at hr; cases hr }
    · have hmem : K ∉ [J] := by simpa using hK
      refine (hs K).of_evolves he trivial (fun hmem => h₁.dependentInvocations ▸ hmem)
        ((h₁.remembered K).trans (hremK K hK)) (by rw [h₁.processing]) (fun r hr => ?_)
        fun hne' => .inr ?_
      · rw [h₁.result, if_neg hmem, hne K hK] at hr
        exact ⟨hr, (h₁.invalidatedResult K).trans (if_neg hmem),
          fun hp => ((h₁.pending K).1 hp).resolve_right hmem⟩
      · rwa [h₁.invalidatedResult, if_neg hmem] at hne'

end Dart2Wasm.TypeFlow.WorkList
