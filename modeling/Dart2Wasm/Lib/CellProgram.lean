import Mathlib.Tactic.Common

/-!
# CellProgram — programs that read and write one cell

A program that uses a mutable cell, seen from the cell: it reads, it writes, and in between it
computes with a state of its own. What a read and a write do is left to a handler, so that one
program can be run against two implementations of the cell. `run_related` compares the two runs:
they go hand in hand as long as the handlers keep a relation, or they part at some point and a
property that both sides preserve on their own tells them apart from then on.
-/

namespace Dart2Wasm.Lib

/-- A program with a cell of type `V` and a state `σ` of its own. -/
inductive CellProg (V σ : Type)
  | ret (v : V)
  | read (k : V → CellProg V σ)
  | write (v : V) (next : CellProg V σ)
  -- Update the program's own state and continue with it.
  | own (f : σ → σ) (k : σ → CellProg V σ)

/-- An implementation of the cell over states `S`. A read that returns no value does not return. -/
structure CellHandler (S V σ : Type) where
  read : S → Option V × S
  write : V → S → S
  own : (σ → σ) → S → σ × S

namespace CellProg

variable {S T V σ : Type}

/-- The value a program returns, if it returns, and the state it reaches. -/
def run (h : CellHandler S V σ) : CellProg V σ → S → Option V × S
  | .ret v, s => (some v, s)
  | .read k, s =>
    match h.read s with
    | (some v, s') => run h (k v) s'
    | (none, s') => (none, s')
  | .write v next, s => run h next (h.write v s)
  | .own f k, s => run h (k (h.own f s).1) (h.own f s).2

/-- A property that every operation of a handler preserves holds after every run. -/
theorem run_preserves {h : CellHandler S V σ} {P : S → Prop} (hread : ∀ s, P s → P (h.read s).2)
    (hwrite : ∀ v s, P s → P (h.write v s)) (hown : ∀ f s, P s → P (h.own f s).2) (p : CellProg V σ)
    {s : S} (hs : P s) : P (run h p s).2 := by
  induction p generalizing s with
  | ret v =>
    exact hs
  | read k ih =>
    have hP := hread s hs
    cases hr : h.read s with
    | mk r s' =>
      rw [hr] at hP
      cases r with
      | none => simpa [run, hr] using hP
      | some v => simpa [run, hr] using ih v hP
  | write v next ih =>
    exact ih (hwrite v s hs)
  | own f k ih =>
    exact ih _ (hown f s hs)

variable {h : CellHandler S V σ} {g : CellHandler T V σ} {R B : S → T → Prop}

/-- `B` is preserved by each side on its own. -/
structure Parted (h : CellHandler S V σ) (g : CellHandler T V σ) (B : S → T → Prop) : Prop where
  read_left : ∀ s t, B s t → B (h.read s).2 t
  write_left : ∀ v s t, B s t → B (h.write v s) t
  own_left : ∀ f s t, B s t → B (h.own f s).2 t
  read_right : ∀ s t, B s t → B s (g.read t).2
  write_right : ∀ v s t, B s t → B s (g.write v t)
  own_right : ∀ f s t, B s t → B s (g.own f t).2

/-- Two runs, of any two programs, once the sides have parted. -/
theorem Parted.run (hB : Parted h g B) (p q : CellProg V σ) {s : S} {t : T} (hst : B s t) :
    B (run h p s).2 (run g q t).2 := by
  have hleft : B (CellProg.run h p s).2 t :=
    run_preserves (P := fun s => B s t) (fun s => hB.read_left s t) (fun v s => hB.write_left v s t)
      (fun f s => hB.own_left f s t) p hst
  exact run_preserves (fun t => hB.read_right _ t) (fun v t => hB.write_right v _ t)
    (fun f t => hB.own_right f _ t) q hleft

/-- What one operation does on both sides. -/
structure Simulates (h : CellHandler S V σ) (g : CellHandler T V σ) (R B : S → T → Prop) :
    Prop where
  read : ∀ s t, R s t →
    ((h.read s).1 = (g.read t).1 ∧ R (h.read s).2 (g.read t).2) ∨ B (h.read s).2 (g.read t).2
  write : ∀ v s t, R s t → R (h.write v s) (g.write v t)
  own : ∀ f s t, R s t → (h.own f s).1 = (g.own f t).1 ∧ R (h.own f s).2 (g.own f t).2

/-- The same program on both sides: the runs agree and end in related states, or they have
parted. -/
theorem run_related (hR : Simulates h g R B) (hB : Parted h g B) (p : CellProg V σ) {s : S} {t : T}
    (hst : R s t) :
    ((run h p s).1 = (run g p t).1 ∧ R (run h p s).2 (run g p t).2) ∨
      B (run h p s).2 (run g p t).2 := by
  induction p generalizing s t with
  | ret v =>
    exact Or.inl ⟨rfl, hst⟩
  | read k ih =>
    have hread := hR.read s t hst
    cases hr : h.read s with
    | mk r s' =>
      cases hq : g.read t with
      | mk q t' =>
        rw [hr, hq] at hread
        rcases hread with ⟨heq, hst'⟩ | hpart
        · have hrq : r = q := heq
          subst hrq
          cases r with
          | none => exact Or.inl ⟨by simp [run, hr, hq], by simpa [run, hr, hq] using hst'⟩
          | some v =>
            have hk := ih v hst'
            simpa [run, hr, hq] using hk
        · -- From here on the two sides may run different programs.
          refine Or.inr ?_
          cases r with
          | none =>
            cases q with
            | none => simpa [run, hr, hq] using hpart
            | some w =>
              have := hB.run (.ret w) (k w) hpart
              simpa [run, hr, hq] using this
          | some v =>
            cases q with
            | none =>
              have := hB.run (k v) (.ret v) hpart
              simpa [run, hr, hq] using this
            | some w =>
              have := hB.run (k v) (k w) hpart
              simpa [run, hr, hq] using this
  | write v next ih =>
    exact ih (hR.write v s t hst)
  | own f k ih =>
    have hown := hR.own f s t hst
    have hk := ih (h.own f s).1 hown.2
    simpa [run, hown.1] using hk

end CellProg

end Dart2Wasm.Lib
