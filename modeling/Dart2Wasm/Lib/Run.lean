import Mathlib.Data.List.Basic

/-!
# Run — sequences of fallible calls against one state

A builder or a collector is used through a sequence of method calls, each of which either
updates the object or throws. This module fixes what such a sequence does (`run`), what it means
for every call of a sequence to meet a condition in the state it is made in (`Along`), and the
induction rules by which facts about one call become facts about whole sequences.
-/

namespace Dart2Wasm.Lib

variable {σ α ε : Type*} {β γ : Type}

theorem ok_bind (b : β) (f : β → Except ε γ) : (Except.ok b >>= f) = f b := by
  simp only [bind, Except.bind]

theorem some_bind (b : β) (f : β → Option γ) : (some b >>= f) = f b := rfl

theorem error_bind (e : ε) (f : β → Except ε γ) : (Except.error e >>= f) = .error e := by
  simp only [bind, Except.bind]

theorem bind_eq_ok {x : Except ε β} {f : β → Except ε γ} {c : γ} :
    (x >>= f) = .ok c ↔ ∃ b, x = .ok b ∧ f b = .ok c := by
  cases x with
  | ok b => simp [bind, Except.bind]
  | error e => simp [bind, Except.bind]

theorem mapM_ok_mem {f : β → Except ε γ} {bs : List β} {cs : List γ}
    (h : bs.mapM f = .ok cs) : ∀ c ∈ cs, ∃ b ∈ bs, f b = .ok c := by
  induction bs generalizing cs with
  | nil =>
    obtain rfl : [] = cs := Except.ok.inj h
    simp
  | cons b bs ih =>
    rw [List.mapM_cons] at h
    obtain ⟨c, hc, h⟩ := bind_eq_ok.1 h
    obtain ⟨cs', hcs', h⟩ := bind_eq_ok.1 h
    obtain rfl : c :: cs' = cs := Except.ok.inj h
    intro c' hc'
    rcases List.mem_cons.1 hc' with rfl | hc'
    · exact ⟨b, List.mem_cons_self, hc⟩
    · obtain ⟨b', hb', hfb'⟩ := ih hcs' c' hc'
      exact ⟨b', List.mem_cons_of_mem _ hb', hfb'⟩

theorem forM_ok_mem {f : β → Except ε Unit} {bs : List β} (h : bs.forM f = .ok ()) :
    ∀ b ∈ bs, f b = .ok () := by
  induction bs with
  | nil => simp
  | cons b bs ih =>
    have h : (f b >>= fun _ => bs.forM f) = .ok () := h
    obtain ⟨u, hu, h⟩ := bind_eq_ok.1 h
    intro b' hb'
    rcases List.mem_cons.1 hb' with rfl | hb'
    · exact hu
    · exact ih h b' hb'

/-! ## Runs -/

/-- Make the calls from left to right; the first call that throws ends the run. -/
def run (step : σ → α → Except ε σ) : σ → List α → Except ε σ
  | s, [] => .ok s
  | s, a :: as =>
    match step s a with
    | .ok s' => run step s' as
    | .error e => .error e

variable {step : σ → α → Except ε σ} {as : List α} {P : σ → Prop}

@[simp] theorem run_nil (s : σ) : run step s [] = .ok s := rfl

theorem run_cons_ok {s t : σ} {a : α} :
    run step s (a :: as) = .ok t ↔ ∃ s', step s a = .ok s' ∧ run step s' as = .ok t := by
  cases h : step s a with
  | ok s' => simp [run, h]
  | error e => simp [run, h]

/-- What every call preserves, every run preserves. -/
theorem run_invariant (hstep : ∀ s a s', P s → step s a = .ok s' → P s') {s t : σ}
    (hs : P s) (hrun : run step s as = .ok t) : P t := by
  induction as generalizing s with
  | nil =>
    have : s = t := by simpa using hrun
    exact this ▸ hs
  | cons a as ih =>
    rcases run_cons_ok.1 hrun with ⟨s', h₁, h₂⟩
    exact ih (hstep s a s' hs h₁) h₂

/-! ## Conditions that hold at every call -/

/-- Every call of the sequence is made in a state in which it meets `C`. -/
def Along (step : σ → α → Except ε σ) (C : σ → α → Prop) : σ → List α → Prop
  | _, [] => True
  | s, a :: as => C s a ∧ ∀ s', step s a = .ok s' → Along step C s' as

/-- What every call that meets `C` preserves, every run whose calls all meet `C` preserves. -/
theorem run_invariant_along {C : σ → α → Prop}
    (hstep : ∀ s a s', C s a → P s → step s a = .ok s' → P s') {s t : σ}
    (hC : Along step C s as) (hs : P s) (hrun : run step s as = .ok t) : P t := by
  induction as generalizing s with
  | nil =>
    have : s = t := by simpa using hrun
    exact this ▸ hs
  | cons a as ih =>
    rcases run_cons_ok.1 hrun with ⟨s', h₁, h₂⟩
    exact ih (hC.2 s' h₁) (hstep s a s' hC.1 hs h₁) h₂

/-- Backwards along a run: if `P` can only hold after a call that met `C` in a state where `P` held
already, then `P` at the end means that every call met `C`. -/
theorem along_of_run {C : σ → α → Prop} (hback : ∀ s a s', step s a = .ok s' → P s' → C s a ∧ P s)
    {s t : σ} (hrun : run step s as = .ok t) (ht : P t) : Along step C s as ∧ P s := by
  induction as generalizing s with
  | nil =>
    have : s = t := by simpa using hrun
    exact ⟨trivial, this ▸ ht⟩
  | cons a as ih =>
    rcases run_cons_ok.1 hrun with ⟨s', h₁, h₂⟩
    rcases ih h₂ with ⟨hAlong, hs'⟩
    rcases hback s a s' h₁ hs' with ⟨hCa, hs⟩
    refine ⟨⟨hCa, ?_⟩, hs⟩
    intro s'' h₁'
    have : s' = s'' := by simpa [h₁] using h₁'
    exact this ▸ hAlong

/-! ## Calls that cannot fail -/

/-- A property of the calls made so far and of the state, kept by every call, holds at the end. -/
theorem foldl_history {step : σ → α → σ} {P : List α → σ → Prop}
    (hstep : ∀ done a s, P done s → P (done ++ [a]) (step s a)) {s : σ} (hs : P [] s)
    (as : List α) : P as (as.foldl step s) := by
  have key : ∀ done s, P done s → P (done ++ as) (as.foldl step s) := by
    induction as with
    | nil =>
      intro done s h
      simpa using h
    | cons a as ih =>
      intro done s h
      have h' := ih (done ++ [a]) (step s a) (hstep done a s h)
      simpa using h'
  simpa using key [] s hs

end Dart2Wasm.Lib
