import Mathlib.Data.List.Basic

/-!
# Simulation — two objects that answer every sequence of calls alike

An object is given by what one call does to it: the state it leaves and the answer it gives.
A relation between the states of two objects that every call preserves, with equal answers, makes
the two indistinguishable by any finite sequence of calls.
-/

namespace Dart2Wasm.Lib

variable {σ τ α ω : Type*}

/-- The answers an object gives to a sequence of calls. -/
def answers (call : σ → α → σ × ω) : σ → List α → List ω
  | _, [] => []
  | s, a :: as => (call s a).2 :: answers call (call s a).1 as

/-- The state a sequence of calls leaves. -/
def stateAfter (call : σ → α → σ × ω) (s : σ) (as : List α) : σ :=
  as.foldl (fun s a => (call s a).1) s

/-- Every call keeps `R` and is answered alike by the two objects. -/
def Simulates (R : σ → τ → Prop) (call : σ → α → σ × ω) (call' : τ → α → τ × ω) : Prop :=
  ∀ s t a, R s t → (call s a).2 = (call' t a).2 ∧ R (call s a).1 (call' t a).1

variable {R : σ → τ → Prop} {call : σ → α → σ × ω} {call' : τ → α → τ × ω}

theorem Simulates.answers_eq (h : Simulates R call call') {s : σ} {t : τ} (hst : R s t)
    (as : List α) : answers call s as = answers call' t as := by
  induction as generalizing s t with
  | nil => rfl
  | cons a as ih =>
    rcases h s t a hst with ⟨hanswer, hrel⟩
    show (call s a).2 :: _ = (call' t a).2 :: _
    rw [hanswer, ih hrel]

theorem Simulates.stateAfter_related (h : Simulates R call call') {s : σ} {t : τ} (hst : R s t)
    (as : List α) : R (stateAfter call s as) (stateAfter call' t as) := by
  induction as generalizing s t with
  | nil => exact hst
  | cons a as ih => exact ih (h s t a hst).2

end Dart2Wasm.Lib
