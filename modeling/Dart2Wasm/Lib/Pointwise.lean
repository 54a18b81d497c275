import Mathlib.Data.List.Forall2

/-!
# Lib.Pointwise — two lists related element by element

Rules for `List.Forall₂` where one list is a stack of values and the other the list of their types:
composition with a relation on the types, splitting off the top of the stack, replacing one
element.
-/

namespace Dart2Wasm.Lib

open List

variable {α β γ : Type}

variable {R : α → β → Prop} {as : List α} {bs : List β}

theorem forall₂_comp {S : β → γ → Prop} {T : α → γ → Prop}
    (hcomp : ∀ {a b c}, R a b → S b c → T a c) {cs : List γ}
    (hR : List.Forall₂ R as bs) (hS : List.Forall₂ S bs cs) : List.Forall₂ T as cs := by
  induction hR generalizing cs with
  | nil =>
    cases hS with
    | nil => exact .nil
  | cons hab _ ih =>
    cases hS with
    | cons hbc hS => exact .cons (hcomp hab hbc) (ih hS)

theorem forall₂_append_right {bs bs' : List β} (h : List.Forall₂ R as (bs ++ bs')) :
    ∃ xs ys, as = xs ++ ys ∧ List.Forall₂ R xs bs ∧ List.Forall₂ R ys bs' := by
  refine ⟨as.take bs.length, as.drop bs.length, (take_append_drop _ _).symm, ?_, ?_⟩
  · exact forall₂_take_append as bs bs' h
  · exact forall₂_drop_append as bs bs' h

section

variable (h : List.Forall₂ R as bs)
include h

theorem forall₂_getElem? {i : Nat} {b : β} (hb : bs[i]? = some b) :
    ∃ a, as[i]? = some a ∧ R a b := by
  induction h generalizing i with
  | nil => simp at hb
  | cons hab _ ih =>
    cases i with
    | zero =>
      refine ⟨_, rfl, ?_⟩
      exact Option.some.inj hb ▸ hab
    | succ i => exact ih hb

/-- An index is in range of both lists or of neither. -/
theorem forall₂_getElem?_cases (i : Nat) :
    as[i]? = none ∧ bs[i]? = none ∨ ∃ a b, as[i]? = some a ∧ bs[i]? = some b ∧ R a b := by
  cases hb : bs[i]? with
  | none =>
    refine .inl ⟨?_, rfl⟩
    rw [getElem?_eq_none_iff] at hb ⊢
    rw [h.length_eq]
    exact hb
  | some b =>
    obtain ⟨a, ha, hab⟩ := forall₂_getElem? h hb
    exact .inr ⟨a, b, ha, rfl, hab⟩

theorem forall₂_set_set (i : Nat) {a : α} {b : β} (hab : R a b) :
    List.Forall₂ R (as.set i a) (bs.set i b) := by
  induction h generalizing i with
  | nil => exact .nil
  | cons hab' hrest ih =>
    cases i with
    | zero => exact .cons hab hrest
    | succ i => exact .cons hab' (ih i)

theorem forall₂_map_eq {f : α → γ} {g : β → γ} (heq : ∀ a b, R a b → f a = g b) :
    as.map f = bs.map g := by
  induction h with
  | nil => rfl
  | cons hab _ ih => rw [map_cons, map_cons, heq _ _ hab, ih]

theorem forall₂_set {i : Nat} {a : α} (ha : ∀ b, bs[i]? = some b → R a b) :
    List.Forall₂ R (as.set i a) bs := by
  induction h generalizing i with
  | nil => exact .nil
  | cons hab hrest ih =>
    cases i with
    | zero => exact .cons (ha _ rfl) hrest
    | succ i => exact .cons hab (ih ha)

/-- Every element on the left has a partner; with `Forall₂.flip` every element on the right. -/
theorem forall₂_exists_mem {a : α} (ha : a ∈ as) : ∃ b ∈ bs, R a b := by
  induction h with
  | nil => cases ha
  | cons hab _ ih =>
    rcases mem_cons.1 ha with rfl | ha
    · exact ⟨_, mem_cons_self, hab⟩
    · obtain ⟨b, hb, hR⟩ := ih ha
      exact ⟨b, mem_cons_of_mem _ hb, hR⟩

end

/-! ## Results of `mapM` -/

variable {f : α → Option β}

theorem mapM_eq_some_iff : as.mapM f = some bs ↔ List.Forall₂ (fun a b => f a = some b) as bs := by
  induction as generalizing bs with
  | nil => simp [eq_comm]
  | cons a as ih =>
    simp [mapM_cons, Option.bind_eq_some_iff, forall₂_cons_left_iff, ih, eq_comm (a := bs)]

theorem exists_mapM (h : ∀ a ∈ as, ∃ b, f a = some b ∧ R a b) :
    ∃ bs, as.mapM f = some bs ∧ List.Forall₂ R as bs := by
  induction as with
  | nil => exact ⟨[], rfl, .nil⟩
  | cons a as ih =>
    obtain ⟨b, hb, hR⟩ := h a mem_cons_self
    obtain ⟨bs, hbs, hall⟩ := ih fun a' ha' => h a' (mem_cons_of_mem _ ha')
    exact ⟨b :: bs, by simp [mapM_cons, hb, hbs], .cons hR hall⟩

end Dart2Wasm.Lib
