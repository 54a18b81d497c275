import Mathlib
import Dart2Wasm.TypeFlow.WorkListSteps

/-!
# TypeFlow.WorkListFixpoint — every run of the work list keeps the invariant

By induction on the requests of a program and on the depth of the recursion,
`processInvocation` keeps the invariant, and so does the loop of `process`.

A recursive invocation may also be answered with the result of its
`_monomorphicDirectInvocation`. That result need not contain the one the
invocation ends up with, and nothing tells the caller when it does not.
-/

namespace Dart2Wasm.TypeFlow.WorkList

open State Analysis Option

open Program (Runs)

variable {ι γ ν τ : Type} [DecidableEq ι]
variable {A : Analysis ι γ ν τ} {J I : ι} {t v : τ} {Admissible : (ι → τ) → Prop}

/-! ## Recursive invocations -/

/-- No recursive invocation was answered with the result of its
`_monomorphicDirectInvocation`. -/
def OnlyStatic (s : State ι γ ν τ) : Prop :=
  ∀ a ∈ s.recursive, a.2 ≠ .monomorphic

variable {s s' : State ι γ ν τ}

omit [DecidableEq ι] in
theorem OnlyStatic.of_suffix (h : OnlyStatic s')
    (hs : s.recursive <:+ s'.recursive) : OnlyStatic s :=
  fun a ha => h a (hs.subset ha)

namespace State

theorem recursive_invalidateAll (s : State ι γ ν τ) (l : List ι) :
    (s.invalidateAll l).recursive = s.recursive := by
  induction l generalizing s with
  | nil => rfl
  | cons I l ih =>
    refine (ih (s.invalidateInvocation I)).trans ?_
    unfold invalidateInvocation
    split <;> rfl

theorem recursive_setValue [DecidableEq γ] [DecidableEq ν] (s : State ι γ ν τ) (c : γ) (v : ν) :
    (s.setValue c v).recursive = s.recursive := by
  unfold setValue
  split
  · exact recursive_invalidateAll s _
  · rfl

theorem recursive_addDependentInvocation (s : State ι γ ν τ) (J I : ι) :
    (s.addDependentInvocation J I).recursive = s.recursive := by
  unfold addDependentInvocation
  split <;> rfl

end State

namespace Analysis

theorem recursive_setResult [DecidableEq τ] (A : Analysis ι γ ν τ) (s : State ι γ ν τ) (J : ι)
    (t : τ) : (A.setResult s J t).recursive = s.recursive := by
  simp only [setResult]
  split
  · rfl
  · simp only
    split
    · split <;> exact recursive_invalidateAll _ _
    · rfl

theorem recursive_begin [DecidableEq τ] (A : Analysis ι γ ν τ) (s : State ι γ ν τ) (J : ι) :
    (A.begin s J).recursive = s.recursive := by
  simp only [begin]
  split
  · split
    · rfl
    · exact A.recursive_setResult _ _ _
  · rfl

theorem recursive_complete [DecidableEq τ]
    (h : A.complete s J t = some (s', v)) : s'.recursive = s.recursive := by
  simp only [complete, map_eq_some_iff, Prod.mk.injEq] at h
  obtain ⟨r, -, rfl, -⟩ := h
  simp only
  split <;> exact A.recursive_setResult s J t

theorem recursive_defer [Bot τ] [DecidableEq τ]
    (h : defer s J = some (s', v)) : s'.recursive = s.recursive := by
  simp only [defer, map_eq_some_iff, Prod.mk.injEq] at h
  obtain ⟨r, -, rfl, -⟩ := h
  refine (recursive_invalidateAll _ [J]).trans ?_
  split <;> rfl

end Analysis

/-! ## Runs of the work list -/

variable [PartialOrder τ] {A : Analysis ι γ ν τ}

/-- What `processInvocation` guarantees to the program that calls it. -/
structure Handles (A : Analysis ι γ ν τ)
    (processInvocation : State ι γ ν τ → ι → Option (State ι γ ν τ × τ)) : Prop where
  recursive : ∀ {s J s' v}, processInvocation s J = some (s', v) → s.recursive <:+ s'.recursive
  processed : ∀ {s J s' v}, processInvocation s J = some (s', v) → Good A s → OnlyStatic s' →
    Processed A (· ∈ s.processing) J v s s' ∧ s'.processing = s.processing ∧
      (J ∈ s.processing → Bounds A J v)

structure Performed (A : Analysis ι γ ν τ) (I : ι) (p : Program ι γ ν τ) (t : τ)
    (s s' : State ι γ ν τ) : Prop where
  good : Good A s'
  evolves : Evolves A (· ∈ s.processing) s s'
  processing : s'.processing = s.processing
  returns : A.Returns p t
  runs : Runs (Answered A s' I) (Reads s' I) p t ∨ I ∈ s'.pending

omit [DecidableEq ι] in
/-- A first step that reads nothing. -/
theorem Performed.step {p q : Program ι γ ν τ}
    {s s₁ s' : State ι γ ν τ} (h : Performed A I p t s₁ s')
    (he : Evolves A (· ∈ s.processing) s s₁) (hp : s₁.processing = s.processing)
    (hq : ∀ {R : ι → τ → Prop} {Q : γ → ν → Prop}, Runs R Q p t → Runs R Q q t) :
    Performed A I q t s s' where
  good := h.good
  evolves := he.trans (h.evolves.weaken fun _ hI => hp ▸ hI)
  processing := h.processing.trans hp
  returns := hq h.returns
  runs := h.runs.imp_left hq

section perform

variable [DecidableEq γ] [DecidableEq ν]
variable {A : Analysis ι γ ν τ}
  {processInvocation : State ι γ ν τ → ι → Option (State ι γ ν τ × τ)}

theorem recursive_perform (hproc : Handles A processInvocation) (I : ι) (p : Program ι γ ν τ)
    (h : Analysis.perform processInvocation I p s = some (s', t)) :
    s.recursive <:+ s'.recursive := by
  induction p generalizing s with
  | done type =>
    cases h
    exact List.suffix_rfl
  | call b J next ih =>
    cases b with
    | true =>
      obtain ⟨⟨s₁, v⟩, h₁, h₂⟩ := bind_eq_some_iff.1 h
      have h₀ := hproc.recursive h₁
      rw [recursive_addDependentInvocation] at h₀
      exact h₀.trans (ih v h₂)
    | false =>
      obtain ⟨⟨s₁, v⟩, h₁, h₂⟩ := bind_eq_some_iff.1 h
      have h₃ := ih v h₂
      rw [recursive_addDependentInvocation] at h₃
      exact (hproc.recursive h₁).trans h₃
  | perform J next ih =>
    obtain ⟨⟨s₁, v⟩, h₁, h₂⟩ := bind_eq_some_iff.1 h
    exact (hproc.recursive h₁).trans (ih h₂)
  | enqueue _ _ ih | setMonomorphic _ _ ih =>
    have h₁ := ih h
    split at h₁ <;> exact h₁
  | read c next ih => exact ih (s.value c) (s := s.addDependentOfCell c I) h
  | write c update next ih =>
    have h₁ := ih h
    rwa [recursive_setValue] at h₁
  | setPolymorphic next ih =>
    exact ih (s := { s with isPolymorphic := Function.update s.isPolymorphic I true }) h

omit [DecidableEq γ] [DecidableEq ν] in
/-- A call whose result is used, with the dependency recorded before or after. -/
theorem performed_call (hproc : Handles A processInvocation) {b : Bool} {next : τ → Program ι γ ν τ}
    {s s₀ s₁ s₂ s' : State ι γ ν τ} (hs : Good A s) (hin : I ∈ s.processing) (h₀ : Registers s s₀)
    (h₁ : processInvocation s₀ J = some (s₁, v)) (h₂ : Registers s₁ s₂) (honly : OnlyStatic s₁)
    (hdep : J ≠ I → I ∈ s₀.dependentInvocations J ∨ I ∈ s₂.dependentInvocations J)
    (h : Good A s₂ → I ∈ s₂.processing → Performed A I (next v) t s₂ s') :
    Performed A I (.call b J next) t s s' := by
  obtain ⟨hp, hproc₁, hbounds⟩ := hproc.processed h₁ (h₀.good hs) honly
  have hproc₂ : s₂.processing = s.processing := (h₂.processing.trans hproc₁).trans h₀.processing
  have hin₀ : I ∈ s₀.processing := h₀.processing ▸ hin
  have hin₂ : I ∈ s₂.processing := hproc₂ ▸ hin
  have hper := h (h₂.good hp.good) hin₂
  have he : Evolves A (· ∈ s.processing) s s₂ :=
    (((h₀.evolves A).weaken fun _ _ => trivial).trans
      (hp.evolves.weaken fun _ hI => h₀.processing ▸ hI)).trans
      ((h₂.evolves A).weaken fun _ _ => trivial)
  have hans : Answered A s₂ I J v := by
    refine ⟨hp.static, ?_⟩
    by_cases hJ : J = I
    · subst hJ
      exact .inr ⟨rfl, fun _ => hbounds hin₀, fun hout => absurd hin₂ hout⟩
    · refine .inl ⟨hJ, ?_, h₂.covers hp.covers⟩
      rcases hdep hJ with hmem | hmem
      · exact h₂.dependents J (hp.evolves.dependents J hmem)
      · exact hmem
  refine
    { good := hper.good
      evolves := he.trans (hper.evolves.weaken fun _ hI => hproc₂ ▸ hI)
      processing := hper.processing.trans hproc₂
      returns := .call hp.static hper.returns
      runs := ?_ }
  rcases hper.evolves.answered I J v hin₂ hans with hans | hpend
  · exact hper.runs.imp_left (.call hans)
  · exact .inr hpend

/-- Performing a program keeps the invariant, and what the program has read is
valid at its end unless its invocation is pending again. -/
theorem performed (hproc : Handles A processInvocation) (p : Program ι γ ν τ)
    (h : Analysis.perform processInvocation I p s = some (s', t)) (hs : Good A s)
    (hin : I ∈ s.processing) (honly : OnlyStatic s') : Performed A I p t s s' := by
  -- the induction is on the requests; the state changes with each of them
  induction p generalizing s with
  | done type =>
    cases h
    exact ⟨hs, .refl A _ _, rfl, .done _, .inl (.done _)⟩
  | call b J next ih =>
    cases b with
    | true =>
      obtain ⟨⟨s₁, v⟩, h₁, h₂⟩ := bind_eq_some_iff.1 h
      exact performed_call hproc hs hin (s.registers_addDependentInvocation J I) h₁ (.refl s₁)
        (honly.of_suffix (recursive_perform hproc I _ h₂))
        (fun hJ => .inl (mem_addDependentInvocation hJ))
        fun hs₁ hin₁ => ih v h₂ hs₁ hin₁
    | false =>
      obtain ⟨⟨s₁, v⟩, h₁, h₂⟩ := bind_eq_some_iff.1 h
      have hlater := recursive_perform hproc I _ h₂
      rw [recursive_addDependentInvocation] at hlater
      exact performed_call hproc hs hin (.refl s) h₁ (s₁.registers_addDependentInvocation J I)
        (honly.of_suffix hlater) (fun hJ => .inr (mem_addDependentInvocation hJ))
        fun hs₂ hin₂ => ih v h₂ hs₂ hin₂
  | perform J next ih =>
    obtain ⟨⟨s₁, v⟩, h₁, h₂⟩ := bind_eq_some_iff.1 h
    obtain ⟨hp, hproc₁, -⟩ :=
      hproc.processed h₁ hs (honly.of_suffix (recursive_perform hproc I _ h₂))
    exact (ih h₂ hp.good (hproc₁ ▸ hin)).step hp.evolves hproc₁ .perform
  | enqueue J next ih =>
    have hreg : Registers s (if s.result J = none then s.enqueueInvocation J else s) := by
      split
      · exact registers_enqueueInvocation ‹_›
      · exact .refl s
    exact (ih h (hreg.good hs) (hreg.processing ▸ hin)).step
      ((hreg.evolves A).weaken fun _ _ => trivial) hreg.processing .enqueue
  | read c next ih =>
    have hreg := s.registers_addDependentOfCell c I
    have hper := ih _ h (hreg.good hs) hin
    have hread : Reads (s.addDependentOfCell c I) I c (s.value c) :=
      ⟨by simp [addDependentOfCell, mem_addTo], rfl⟩
    refine ⟨hper.good, ((hreg.evolves A).weaken fun _ _ => trivial).trans hper.evolves,
      hper.processing, .read trivial hper.returns, ?_⟩
    rcases hper.evolves.reads I c _ hin hread with hread | hpend
    · exact hper.runs.imp_left (.read hread)
    · exact .inr hpend
  | write c update next ih =>
    obtain ⟨l, hinv⟩ := s.invalidates_setValue c (update (s.value c))
    exact (ih h (hinv.good hs) (hinv.processing ▸ hin)).step
      ((hinv.evolves A).weaken fun _ _ => trivial) hinv.processing .write
  | setMonomorphic D next ih =>
    have hreg : Registers s (if s.isPolymorphic I then s else
          { s with
            monomorphicDirectInvocation :=
              Function.update s.monomorphicDirectInvocation I (some D) }) := by
      split
      · exact .refl s
      · exact { Registers.refl s with }
    exact (ih h (hreg.good hs) (by rw [hreg.processing]; exact hin)).step
      ((hreg.evolves A).weaken fun _ _ => trivial) hreg.processing .setMonomorphic
  | setPolymorphic next ih =>
    have hreg : Registers s
        { s with isPolymorphic := Function.update s.isPolymorphic I true } :=
      { Registers.refl s with }
    exact (ih h (hreg.good hs) hin).step
      ((hreg.evolves A).weaken fun _ _ => trivial) rfl .setPolymorphic

end perform

omit [DecidableEq ι] [PartialOrder τ] in
theorem recursive_answerRecursive (A : Analysis ι γ ν τ) (s : State ι γ ν τ) (J : ι) :
    s.recursive <:+ (A.answerRecursive s J).1.recursive := by
  unfold answerRecursive
  split <;> exact List.suffix_cons _ _

omit [DecidableEq ι] in
theorem processed_answerRecursive (hs : Good A s)
    (hin : J ∈ s.processing) (honly : OnlyStatic s') (h : A.answerRecursive s J = (s', v)) :
    Processed A (fun _ => True) J v s s' ∧ s'.processing = s.processing ∧ Bounds A J v := by
  unfold answerRecursive at h
  split at h
  · cases h
    exact absurd rfl (honly (J, .monomorphic) List.mem_cons_self)
  cases h
  have hreg : Registers s { s with recursive := (J, .static) :: s.recursive } :=
    { Registers.refl s with }
  refine ⟨⟨hreg.good hs, hreg.evolves A, le_refl _, hreg.covers ⟨fun x hx => ?_, fun _ => ?_⟩⟩, rfl,
    .inl (le_refl _)⟩
  · exact (hs J).bounded x hx
  · exact ⟨hin, le_refl _⟩

omit [DecidableEq ι] in
theorem good_initial (A : Analysis ι γ ν τ) (pending : List ι) (value : γ → ν) :
    Good A (State.initial pending value) := fun _ =>
  { irreflexive := List.not_mem_nil
    exclusive := Or.inl rfl
    bounded := nofun
    result_pending := fun _ _ => rfl
    invalidated_pending := fun _ hne => absurd rfl hne
    result_processing := fun _ => nofun
    invalidated_processing := fun _ _ hne => absurd rfl hne
    justified := fun _ => nofun }

omit [DecidableEq ι] in
/-- An answer relied on at the end contains the stored result of its callee. -/
theorem Good.answered_result {s : State ι γ ν τ} (hs : Good A s)
    (hpend : s.pending = []) (hproc : s.processing = ∅) (h : Answered A s I J v) :
    (J = I ∨ I ∈ s.dependentInvocations J) ∧ ∃ x, s.result J = some x ∧ x ≤ v := by
  have hout : ∀ K, K ∉ s.processing := fun K => by simp [hproc]
  have hcov : Covers A s J v → ∃ x, s.result J = some x ∧ x ≤ v := fun hc => by
    have hinv : s.invalidatedResult J = none := by
      by_contra hne
      have hp := (hs J).invalidated_pending (hout J) hne
      rw [hpend] at hp
      cases hp
    cases hx : s.result J with
    | some x => exact ⟨x, rfl, hc.1 x (by rw [remembered, hx]; rfl)⟩
    | none => exact absurd (hc.2 (by rw [remembered, hx, hinv]; rfl)).1 (hout J)
  rcases h with ⟨-, ⟨-, hmem, hc⟩ | ⟨rfl, -, hself⟩⟩
  · exact ⟨.inr hmem, hcov hc⟩
  · exact ⟨.inl rfl, hcov (hself (hout J))⟩

variable [DecidableEq γ] [DecidableEq ν] [DecidableEq τ] [OrderBot τ]

section

variable (hA : A.Sound Admissible)
include hA

theorem handles_processInvocation (fuel : Nat) : Handles A (A.processInvocation fuel) := by
  induction fuel with
  | zero => exact ⟨nofun, nofun⟩
  | succ fuel ih =>
    refine ⟨fun {s J s' v} h => ?_, fun {s J s' v} h hs honly => ?_⟩
    · simp only [processInvocation] at h
      split at h
      · cases h
        exact List.suffix_rfl
      split at h
      · have h₁ := recursive_answerRecursive A s J
        rwa [some.inj h] at h₁
      · split at h
        · rw [recursive_defer h]
        · obtain ⟨⟨s₁, t⟩, h₁, h₂⟩ := bind_eq_some_iff.1 h
          rw [recursive_complete h₂, ← A.recursive_begin s J]
          exact recursive_perform ih J _ h₁
    · simp only [processInvocation] at h
      split at h
      · rename_i r hr
        cases h
        have hrem : s.remembered J = some v := by rw [remembered, hr]; rfl
        exact ⟨⟨hs, .refl A _ s, (hs J).bounded v hrem, .of_remembered hrem⟩, rfl,
          fun hin => .inr ((hs J).result_processing hin v hr)⟩
      · rename_i hres
        split at h
        · rename_i hin
          obtain ⟨hp, hproc, hb⟩ := processed_answerRecursive hs hin honly (some.inj h)
          exact ⟨{ hp with evolves := hp.evolves.weaken fun _ _ => trivial }, hproc, fun _ => hb⟩
        rename_i hout
        split at h
        · obtain ⟨hp, hproc⟩ := processed_defer hs hres hout h
          exact ⟨{ hp with evolves := hp.evolves.weaken fun _ _ => trivial }, hproc,
            fun hin => absurd hin hout⟩
        obtain ⟨⟨s₁, t⟩, h₁, h₂⟩ := bind_eq_some_iff.1 h
        have hb := begun hA hs hres
        have honly₁ : OnlyStatic s₁ := by
          rw [OnlyStatic, ← recursive_complete h₂]
          exact honly
        have hin : J ∈ (A.begin s J).processing := hb.processing ▸ Finset.mem_insert_self ..
        have hper := performed ih _ h₁ hb.good hin honly₁
        obtain ⟨hp, hproc⟩ := processed_complete hA hper.good (hper.processing ▸ hin)
          hper.returns hper.runs h₂
        have hne : ∀ I ∈ s.processing, I ≠ J := fun I hI heq => hout (heq ▸ hI)
        refine ⟨{ hp with evolves := ?_ }, ?_, fun hin => absurd hin hout⟩
        · refine ((hb.evolves.weaken hne).trans (hper.evolves.weaken fun I hI => ?_)).trans
            (hp.evolves.weaken hne)
          exact hb.processing ▸ Finset.mem_insert_of_mem hI
        · rw [hproc, hper.processing, hb.processing, Finset.erase_insert hout]

theorem recursive_process (depth fuel : Nat) :
    ∀ {s s' : State ι γ ν τ}, A.process depth fuel s = some s' →
      s.recursive <:+ s'.recursive := by
  induction fuel with
  | zero => exact nofun
  | succ fuel ih =>
    intro s s' h
    simp only [process] at h
    split at h
    · cases h
      exact List.suffix_rfl
    · obtain ⟨⟨s₁, v⟩, h₁, h₂⟩ := bind_eq_some_iff.1 h
      exact ((handles_processInvocation hA depth).recursive h₁).trans (ih h₂)

/-- The loop of `process` ends with nothing pending, the invariant and no invocation lost. -/
theorem good_process (depth fuel : Nat) :
    ∀ {s s' : State ι γ ν τ}, A.process depth fuel s = some s' → Good A s → s.processing = ∅ →
      OnlyStatic s' → s'.pending = [] ∧ Good A s' ∧ s'.processing = ∅ ∧
        ∀ J, s.Awaited J → s'.Awaited J := by
  induction fuel with
  | zero => exact nofun
  | succ fuel ih =>
    intro s s' h hs hproc honly
    simp only [process] at h
    split at h
    · rename_i hpend
      cases h
      exact ⟨hpend, hs, hproc, fun _ hJ => hJ⟩
    · obtain ⟨⟨s₁, v⟩, h₁, h₂⟩ := bind_eq_some_iff.1 h
      obtain ⟨hp, hproc₁, -⟩ := (handles_processInvocation hA depth).processed h₁ hs
        (honly.of_suffix (recursive_process hA depth fuel h₂))
      obtain ⟨hpend, hs', hproc', hawaited⟩ := ih h₂ hp.good (hproc₁.trans hproc) honly
      exact ⟨hpend, hs', hproc', fun J hJ => hawaited J (hp.evolves.awaited J hJ)⟩

/-- What the loop of `process` leaves when it began with nothing but a queue: every invocation
of the queue has a result, and no result is left invalidated. -/
theorem settled_process {depth fuel : Nat} {pending : List ι} {value : γ → ν}
    (h : A.process depth fuel (State.initial pending value) = some s) (honly : OnlyStatic s) :
    s.pending = [] ∧ Good A s ∧ s.processing = ∅ ∧ (∀ J, s.invalidatedResult J = none) ∧
      ∀ J ∈ pending, ∃ r, s.result J = some r := by
  obtain ⟨hpend, hs, hproc, hawaited⟩ :=
    good_process hA depth fuel h (good_initial A pending value) rfl honly
  have hinv : ∀ J, s.invalidatedResult J = none := fun J => by
    by_contra hne
    simpa [hpend] using (hs J).invalidated_pending (by simp [hproc]) hne
  refine ⟨hpend, hs, hproc, hinv, fun J hJ => ?_⟩
  have hJ : s.Awaited J := hawaited J (.inl hJ)
  simpa [State.Awaited, State.remembered, hpend, hproc, hinv, ne_none_iff_exists'] using hJ

end

/-- When `process` returns, nothing is pending, every invocation that was pending has a result, and
the stored result of every invocation contains the result of processing it again with the stored
results it depends on, in every run in which no recursive invocation is answered with the result of
its `_monomorphicDirectInvocation`. -/
theorem process_reaches_fixpoint (A : Analysis ι γ ν τ) (Admissible : (ι → τ) → Prop)
    (hA : A.Sound Admissible) (depth fuel : Nat) (pending : List ι) (value : γ → ν)
    (s : State ι γ ν τ) (h : A.process depth fuel (State.initial pending value) = some s)
    (honly : OnlyStatic s) :
    s.pending = [] ∧ (∀ J ∈ pending, ∃ r, s.result J = some r) ∧
      ∀ I r, s.result I = some r →
        ∀ σ, Admissible σ →
          (∀ J x, (J = I ∨ I ∈ s.dependentInvocations J) → s.result J = some x → σ J ≤ x) →
          (A.program I).reprocess σ s.value ≤ r := by
  obtain ⟨hpend, hs, hproc, -, hres⟩ := settled_process hA h honly
  refine ⟨hpend, hres, fun I r hr σ hσ hle => ?_⟩
  obtain ⟨t, htr, hrun⟩ := (hs I).justified (by simp [hproc]) r hr
  refine (hA.monotone I σ s.value t hσ (hrun.mono (fun J v ha => ?_) fun c v hv => hv.2)).trans htr
  obtain ⟨hdep, x, hx, hxv⟩ := hs.answered_result hpend hproc ha
  exact ⟨(hle J x hdep hx).trans hxv, ha.1⟩

/-- When `process` returns, nothing is being processed, every invocation that was pending has a
result, no result is left invalidated or exceeds the static return type. -/
theorem process_settles (hA : A.Sound Admissible) (depth fuel : Nat) (pending : List ι)
    (value : γ → ν) (h : A.process depth fuel (State.initial pending value) = some s)
    (honly : OnlyStatic s) : s.processing = ∅ ∧ (∀ J ∈ pending, ∃ r, s.result J = some r) ∧
      ∀ J, s.invalidatedResult J = none ∧
        ∀ r, s.result J = some r → r ≤ A.staticReturnType J := by
  obtain ⟨-, hs, hproc, hinv, hres⟩ := settled_process hA h honly
  exact ⟨hproc, hres, fun J =>
    ⟨hinv J, fun r hr => (hs J).bounded r (by simp [State.remembered, hr])⟩⟩

/-! ## A recursive dynamic call

```
class A { int call() { foo(this); return 1; } }
dynamic foo(dynamic x) => x();
main() { dynamic a = A(); a(); }
```

The types are ordered `EmptyType`, `int`, `nullableAny`. -/

inductive SampleInvocation where
  | main
  /-- The dynamic call of an `A`. -/
  | dynamicCall
  /-- The direct invocation of `A.call`. -/
  | call
  | foo
  deriving DecidableEq

/-- The summaries of the program. A dynamic call named `call` always has `nullableAny`; the result
of `A.call` is known upfront. -/
def sampleAnalysis : Analysis SampleInvocation Unit Unit (Fin 3) where
  program
    | .main => .perform .dynamicCall (.done 1)
    | .dynamicCall => .setMonomorphic .call (.call false .call fun _ => .done 2)
    | .call => .perform .foo (.done 1)
    | .foo => .call true .dynamicCall .done
  summaryResult
    | .call => some 1
    | _ => none
  staticReturnType _ := 2
  union := max

theorem sampleAnalysis_sound : sampleAnalysis.Sound fun _ => True where
  monotone I σ value t _ h := by
    cases I with
    | main | call => cases h with | perform h => cases h; exact le_refl _
    | dynamicCall =>
      cases h with
      | setMonomorphic h => cases h with | call _ h => cases h; exact le_refl _
    | foo => cases h with | call hv h => cases h; exact hv.1
  returns_le_static I t _ := Fin.le_last t
  union_le_static I a b _ _ := Fin.le_last _
  le_union_left := le_max_left
  summaryResult_eq I t r h hr := by
    cases I with
    | call =>
      cases h
      cases hr with | perform hr => cases hr; rfl
    | main | dynamicCall | foo => cases h

/-- The work list returns with `int` stored for `foo`, answered from `A.call`, while
the dynamic call it returns has `nullableAny`. -/
theorem process_misses_fixpoint :
    sampleAnalysis.Sound (fun _ => True) ∧
      ∃ s, sampleAnalysis.process 5 2 (State.initial [.main] fun _ => ()) = some s ∧
        s.pending = [] ∧ s.result .foo = some 1 ∧ s.result .dynamicCall = some 2 ∧
        SampleInvocation.foo ∈ s.dependentInvocations .dynamicCall ∧
        ¬ (sampleAnalysis.program .foo).reprocess (fun J => (s.result J).getD ⊥) s.value ≤ 1 := by
  refine ⟨sampleAnalysis_sound, _, rfl, rfl, rfl, rfl, ?_, ?_⟩
  · decide
  · decide

/-- Begun at `A.call`, the dynamic call is answered by the result known upfront
and the run ends at a fixpoint. -/
theorem process_reaches_fixpoint_from_call :
    ∃ s, sampleAnalysis.process 5 2 (State.initial [.call] fun _ => ()) = some s ∧
      s.result .foo = some 2 ∧
      (sampleAnalysis.program .foo).reprocess (fun J => (s.result J).getD ⊥) s.value ≤ 2 := by
  refine ⟨_, rfl, rfl, ?_⟩
  refine (process_reaches_fixpoint sampleAnalysis (fun _ => True) sampleAnalysis_sound 5 2 [.call]
    (fun _ => ()) _ rfl ?_).2.2 .foo 2 rfl _ trivial fun J x _ hx => ?_
  · exact fun a ha => absurd ha List.not_mem_nil
  · rw [hx]
    exact le_refl x

theorem process_settles_from_call : ∃ s,
    sampleAnalysis.process 5 2 (State.initial [.call] fun _ => ()) = some s ∧ s.processing = ∅ ∧
      ∃ r, s.result .call = some r := by
  obtain ⟨hproc, hres, -⟩ := process_settles sampleAnalysis_sound 5 2 [.call] (fun _ => ()) rfl
    (by rintro _ ⟨⟩)
  exact ⟨_, rfl, hproc, hres .call List.mem_cons_self⟩

end Dart2Wasm.TypeFlow.WorkList
