import Mathlib.Data.List.Basic

/-!
# Arena — objects that live in a growing list

A builder keeps the objects it has created in a list, to which it only ever appends. The position
of an object is its identity: a reference to an object is its position, and the object may be
updated in place. Many builders also store the position in the object itself, as its `index`, and
write that index wherever the object is referred to; `Indexed` says that the two agree.
-/

namespace Dart2Wasm.Lib

open List

variable {α β : Type*} {index : α → Nat} {l : List α} {a : α}
variable {l' : List α}

/-! ## Indices and positions -/

/-- Every object carries its position as its index. -/
def Indexed (index : α → Nat) (l : List α) : Prop :=
  ∀ i a, l[i]? = some a → index a = i

/-- The index stored in the object a reference refers to. -/
def indexAt (index : α → Nat) (l : List α) (i : Nat) : Nat :=
  match l[i]? with
  | some a => index a
  | none => i

theorem Indexed.indexAt_eq (h : Indexed index l) (i : Nat) : indexAt index l i = i := by
  unfold indexAt
  split
  · rename_i a ha
    exact h i a ha
  · rfl

@[simp] theorem indexed_nil : Indexed index ([] : List α) := by
  intro i a h
  simp at h

theorem indexed_append_one : Indexed index (l ++ [a]) ↔ Indexed index l ∧ index a = l.length := by
  constructor
  · intro h
    refine ⟨?_, ?_⟩
    · intro i b hb
      have hi : i < l.length := (List.getElem?_eq_some_iff.1 hb).1
      exact h i b (by simpa [getElem?_append_left hi] using hb)
    · exact h l.length a (by simp)
  · rintro ⟨hl, ha⟩ i b hb
    by_cases hi : i < l.length
    · exact hl i b (by simpa [getElem?_append_left hi] using hb)
    have hb' : [a][i - l.length]? = some b := by
      simpa [getElem?_append_right (Nat.le_of_not_lt hi)] using hb
    have hzero : i - l.length = 0 := by
      have := (List.getElem?_eq_some_iff.1 hb').1
      simp at this
      omega
    have hab : a = b := by simpa [hzero] using hb'
    subst hab
    omega

/-! ## Updates in place -/

/-- What an update keeps about its object, it keeps about the list. -/
theorem map_modify_of_keeps {g : α → β} {f : α → α} {i : Nat}
    (hf : ∀ a, l[i]? = some a → g (f a) = g a) : (l.modify i f).map g = l.map g := by
  apply ext_getElem?
  intro j
  simp only [getElem?_map, getElem?_modify]
  by_cases hij : i = j
  · subst hij
    cases hb : l[i]? with
    | none => rfl
    | some b => simp [hf b hb]
  · simp [hij]

theorem indexed_of_map_eq (h : l'.map index = l.map index) :
    Indexed index l' ↔ Indexed index l := by
  have key : ∀ {l₁ l₂ : List α}, l₁.map index = l₂.map index → Indexed index l₁ →
      Indexed index l₂ := by
    intro l₁ l₂ heq h₁ i a ha
    have hmap : (l₁.map index)[i]? = some (index a) := by
      simp [heq, ha]
    rcases getElem?_map .. ▸ hmap with hmap'
    rcases Option.map_eq_some_iff.1 hmap' with ⟨b, hb, hba⟩
    exact hba ▸ h₁ i b hb
  exact ⟨key h, key h.symm⟩

/-! ## Evolution of a list of objects -/

/-- One use of the builder either keeps the objects apart from updates that leave `key` alone, or
appends one object. -/
inductive Evolves (key : α → β) (fits : α → Prop) (l : List α) : List α → Prop
  | keep {l' : List α} (h : l'.map key = l.map key) : Evolves key fits l l'
  | add (a : α) (h : fits a) : Evolves key fits l (l ++ [a])

theorem Evolves.modify {key : α → β} {fits : α → Prop} {f : α → α} {i : Nat}
    (hf : ∀ a, l[i]? = some a → key (f a) = key a) : Evolves key fits l (l.modify i f) :=
  .keep (map_modify_of_keeps hf)

/-- Appending objects that carry the next position keeps the list indexed. -/
theorem Evolves.indexed (h : Evolves index (fun a => index a = l.length) l l')
    (hl : Indexed index l) : Indexed index l' := by
  cases h with
  | keep hmap => exact (indexed_of_map_eq hmap).2 hl
  | add a ha => exact indexed_append_one.2 ⟨hl, ha⟩

/-- An object that is out of place stays out of place. -/
theorem Evolves.indexed_before {fits : α → Prop} (h : Evolves index fits l l')
    (hl' : Indexed index l') : Indexed index l := by
  cases h with
  | keep hmap => exact (indexed_of_map_eq hmap).1 hl'
  | add a ha => exact (indexed_append_one.1 hl').1

end Dart2Wasm.Lib
