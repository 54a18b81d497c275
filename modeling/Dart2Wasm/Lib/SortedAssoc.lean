import Mathlib.Data.List.Basic

/-!
# SortedAssoc — association lists in the order of a comparator

A comparator returns a number whose sign orders its arguments; keys that compare as zero are taken
for the same key. The operations are given on any list. Their values on a list that is cut at a key,
into the entries before it, possibly one with the key, and the entries after it, determine them on
sorted lists.
-/

namespace Dart2Wasm.Lib

open List

variable {K V : Type*} {compare : K → K → Int}

/-- The comparator is a total preorder. -/
structure LawfulCompare (compare : K → K → Int) : Prop where
  swap : ∀ a b, compare a b < 0 ↔ 0 < compare b a
  trans : ∀ a b c, compare a b ≤ 0 → compare b c ≤ 0 → compare a c ≤ 0

namespace LawfulCompare

theorem swap_zero (h : LawfulCompare compare) {a b : K} (hab : compare a b = 0) :
    compare b a = 0 := by
  have h₁ := h.swap a b
  have h₂ := h.swap b a
  omega

theorem lt_of_le_of_lt (h : LawfulCompare compare) {a b c : K} (hab : compare a b ≤ 0)
    (hbc : compare b c < 0) : compare a c < 0 := by
  have hac := h.trans a b c hab (by omega)
  rcases Int.lt_or_eq_of_le hac with hlt | heq
  · exact hlt
  · -- with `c ≤ a ≤ b` the second comparison could not be negative
    have hcb := h.trans c a b (Int.le_of_eq (h.swap_zero heq)) hab
    have := (h.swap b c).1 hbc
    omega

theorem lt_of_lt_of_le (h : LawfulCompare compare) {a b c : K} (hab : compare a b < 0)
    (hbc : compare b c ≤ 0) : compare a c < 0 := by
  have hac := h.trans a b c (by omega) hbc
  rcases Int.lt_or_eq_of_le hac with hlt | heq
  · exact hlt
  · have hba := h.trans b c a hbc (Int.le_of_eq (h.swap_zero heq))
    have := (h.swap a b).1 hab
    omega

end LawfulCompare

/-! ## Entries before and after a key -/

def AllBefore (compare : K → K → Int) (key : K) (l : List (K × V)) : Prop :=
  ∀ e ∈ l, compare e.1 key < 0

def AllAfter (compare : K → K → Int) (key : K) (l : List (K × V)) : Prop :=
  ∀ e ∈ l, 0 < compare e.1 key

def Sorted (compare : K → K → Int) (l : List (K × V)) : Prop :=
  l.Pairwise fun e e' => compare e.1 e'.1 < 0

section Cut

variable {key k : K} {v : V} {a b : List (K × V)}

theorem AllBefore.append (ha : AllBefore compare key a) (hb : AllBefore compare key b) :
    AllBefore compare key (a ++ b) := fun e he =>
  (List.mem_append.1 he).elim (ha e) (hb e)

theorem AllAfter.append (ha : AllAfter compare key a) (hb : AllAfter compare key b) :
    AllAfter compare key (a ++ b) := fun e he =>
  (List.mem_append.1 he).elim (ha e) (hb e)

theorem AllBefore.cons (hk : compare k key < 0) (ha : AllBefore compare key a) :
    AllBefore compare key ((k, v) :: a) := fun e he =>
  (List.mem_cons.1 he).elim (fun heq => heq ▸ hk) (ha e)

theorem AllAfter.cons (hk : 0 < compare k key) (ha : AllAfter compare key a) :
    AllAfter compare key ((k, v) :: a) := fun e he =>
  (List.mem_cons.1 he).elim (fun heq => heq ▸ hk) (ha e)

section

variable (h : LawfulCompare compare) (hs : Sorted compare (a ++ (k, v) :: b))
include h hs

/-- In a sorted list, what stands before a key that is not after `key` is before `key`. -/
theorem Sorted.before (hk : compare k key ≤ 0) : AllBefore compare key a := by
  intro e he
  have hek := (pairwise_append.1 hs).2.2 e he (k, v) (mem_cons_self ..)
  exact h.lt_of_lt_of_le hek hk

theorem Sorted.after (hk : 0 ≤ compare k key) : AllAfter compare key b := by
  intro e he
  have hke := rel_of_pairwise_cons (pairwise_append.1 hs).2.1 he
  have hkey : compare key k ≤ 0 := by
    have h₁ := h.swap k key
    have h₂ := h.swap key k
    omega
  exact (h.swap key e.1).1 (h.lt_of_le_of_lt hkey hke)

end

theorem sorted_cut_iff (h : LawfulCompare compare) :
    Sorted compare (a ++ (k, v) :: b) ↔
      Sorted compare a ∧ Sorted compare b ∧ AllBefore compare k a ∧ AllAfter compare k b := by
  rw [Sorted, pairwise_append, pairwise_cons]
  constructor
  · rintro ⟨ha, ⟨hkb, hb⟩, hab⟩
    exact ⟨ha, hb, fun e he => hab e he (k, v) (mem_cons_self ..),
      fun e he => (h.swap k e.1).1 (hkb e he)⟩
  · rintro ⟨ha, hb, hbefore, hafter⟩
    have hkb : ∀ e ∈ b, compare k e.1 < 0 := fun e he => (h.swap k e.1).2 (hafter e he)
    refine ⟨ha, ⟨hkb, hb⟩, fun e he e' he' => ?_⟩
    rcases mem_cons.1 he' with rfl | he'
    · exact hbefore e he
    · exact h.lt_of_lt_of_le (hbefore e he) (by have := hkb e' he'; omega)

end Cut

/-! ## Operations -/

def lookup (compare : K → K → Int) (key : K) (l : List (K × V)) : Option (K × V) :=
  l.find? fun e => compare e.1 key == 0

/-- Sets the value of a key. The key that is already there stays. -/
def put (compare : K → K → Int) (key : K) (value : V) : List (K × V) → List (K × V)
  | [] => [(key, value)]
  | e :: l =>
    if compare e.1 key < 0 then e :: put compare key value l
    else if compare e.1 key = 0 then (e.1, value) :: l
    else (key, value) :: e :: l

def erase (compare : K → K → Int) (key : K) (l : List (K × V)) : List (K × V) :=
  l.filter fun e => compare e.1 key != 0

def lastBefore (compare : K → K → Int) (key : K) (l : List (K × V)) : Option (K × V) :=
  (l.filter fun e => compare e.1 key < 0).getLast?

def firstAfter (compare : K → K → Int) (key : K) (l : List (K × V)) : Option (K × V) :=
  (l.filter fun e => 0 < compare e.1 key).head?

section Values

variable {key k : K} {v value : V} {a b : List (K × V)}

section

variable (ha : AllBefore compare key a)
include ha

theorem lookup_absent (hb : AllAfter compare key b) : lookup compare key (a ++ b) = none := by
  refine find?_eq_none.2 fun e he => ?_
  rw [beq_iff_eq]
  rcases mem_append.1 he with he | he
  · exact Int.ne_of_lt (ha e he)
  · exact (Int.ne_of_lt (hb e he)).symm

theorem lookup_present (hk : compare k key = 0) :
    lookup compare key (a ++ (k, v) :: b) = some (k, v) := by
  have hnone : a.find? (fun e => compare e.1 key == 0) = none := by
    have := lookup_absent ha (b := []) (fun e he => nomatch he)
    rwa [append_nil] at this
  rw [lookup, find?_append, hnone, Option.none_or, find?_cons_of_pos]
  rw [hk]
  rfl

theorem put_absent (hb : AllAfter compare key b) :
    put compare key value (a ++ b) = a ++ (key, value) :: b := by
  induction a with
  | nil =>
    cases b with
    | nil => rfl
    | cons e b =>
      have := hb e (mem_cons_self ..)
      rw [nil_append, put, if_neg (by omega), if_neg (by omega), nil_append]
  | cons e a ih =>
    rw [cons_append, put, if_pos (ha e (mem_cons_self ..)),
      ih (fun e' he' => ha e' (mem_cons_of_mem _ he')), cons_append]

theorem put_present (hk : compare k key = 0) :
    put compare key value (a ++ (k, v) :: b) = a ++ (k, value) :: b := by
  induction a with
  | nil =>
    have hle : ¬ compare k key < 0 := by omega
    rw [nil_append, put, if_neg hle, if_pos hk, nil_append]
  | cons e a ih =>
    rw [cons_append, put, if_pos (ha e (mem_cons_self ..)),
      ih (fun e' he' => ha e' (mem_cons_of_mem _ he')), cons_append]

theorem erase_absent (hb : AllAfter compare key b) : erase compare key (a ++ b) = a ++ b := by
  refine filter_eq_self.2 fun e he => ?_
  rw [bne_iff_ne]
  rcases mem_append.1 he with he | he
  · exact Int.ne_of_lt (ha e he)
  · exact (Int.ne_of_lt (hb e he)).symm

theorem erase_present (hk : compare k key = 0)
    (hb : AllAfter compare key b) : erase compare key (a ++ (k, v) :: b) = a ++ b := by
  have hrest := erase_absent ha hb
  rw [erase, filter_append] at hrest ⊢
  rw [filter_cons_of_neg (by rw [hk]; decide), hrest]

theorem filter_before (hb : ∀ e ∈ b, 0 ≤ compare e.1 key) :
    (a ++ b).filter (fun e => compare e.1 key < 0) = a := by
  rw [filter_append, filter_eq_self.2 (fun e he => decide_eq_true (ha e he)),
    filter_eq_nil_iff.2 (fun e he => ?_), append_nil]
  have := hb e he
  rw [decide_eq_true_eq]
  omega

end

theorem filter_after (ha : ∀ e ∈ a, compare e.1 key ≤ 0) (hb : AllAfter compare key b) :
    (a ++ b).filter (fun e => 0 < compare e.1 key) = b := by
  rw [filter_append, filter_eq_self.2 (fun e he => decide_eq_true (hb e he)),
    filter_eq_nil_iff.2 (fun e he => ?_), nil_append]
  have := ha e he
  rw [decide_eq_true_eq]
  omega

end Values

end Dart2Wasm.Lib
