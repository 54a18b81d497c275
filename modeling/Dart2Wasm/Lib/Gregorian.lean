import Mathlib

/-!
# Gregorian — the proleptic Gregorian calendar

Days are numbered from 1 January 1970 by counting year and month lengths, in both directions. The
count is the specification; its closed form and the uniqueness of the date with a given number are
derived from it.
-/

namespace Dart2Wasm.Lib.Gregorian

open Finset

/-- Every fourth year, but of the centuries only every fourth. -/
def IsLeap (y : Int) : Prop := y % 4 = 0 ∧ (y % 100 ≠ 0 ∨ y % 400 = 0)

instance (y : Int) : Decidable (IsLeap y) :=
  inferInstanceAs (Decidable (_ ∧ _))

def yearLength (y : Int) : Int := if IsLeap y then 366 else 365

/-- The length of month `m` (January is 1) in year `y`. -/
def monthLength (y m : Int) : Int :=
  if m = 2 then (if IsLeap y then 29 else 28)
  else if m = 4 ∨ m = 6 ∨ m = 9 ∨ m = 11 then 30 else 31

/-- The days from 1 January 1970 to 1 January of year `y`. -/
def daysBeforeYear (y : Int) : Int :=
  if 1970 ≤ y then ∑ i ∈ Finset.range (y - 1970).toNat, yearLength (1970 + i)
  else -∑ i ∈ Finset.range (1970 - y).toNat, yearLength (y + i)

/-- The days from 1 January to the first of month `m` of year `y`. -/
def daysBeforeMonth (y m : Int) : Int :=
  ∑ i ∈ Finset.range (m - 1).toNat, monthLength y (i + 1)

/-- Month and day exist in year `y`. -/
structure ValidDate (y m d : Int) : Prop where
  month_pos : 1 ≤ m
  month_le : m ≤ 12
  day_pos : 1 ≤ d
  day_le : d ≤ monthLength y m

/-- The number of the day `y`-`m`-`d`; 1 January 1970 has number 0. -/
def dayNumber (y m d : Int) : Int := daysBeforeYear y + daysBeforeMonth y m + (d - 1)

/-- The ISO weekday (Monday is 1) of the day with number `n`; 1 January 1970 was a Thursday. -/
def isoWeekday (n : Int) : Int := (n + 3) % 7 + 1

/-! ## Years -/

theorem daysBeforeYear_succ (y : Int) :
    daysBeforeYear (y + 1) = daysBeforeYear y + yearLength y := by
  by_cases hy : 1970 ≤ y
  · have hcount : (y + 1 - 1970).toNat = (y - 1970).toNat + 1 := by omega
    have hlast : (1970 : Int) + ((y - 1970).toNat : Nat) = y := by omega
    rw [daysBeforeYear, daysBeforeYear, if_pos (by omega), if_pos hy, hcount, sum_range_succ, hlast]
  · -- before 1970 the sum starts at `y`, so its first term is the one that drops out
    have hcount : (1970 - y).toNat = (1970 - (y + 1)).toNat + 1 := by omega
    have hshift : ∀ i : Nat, y + ((i + 1 : Nat) : Int) = y + 1 + i := by
      intro i
      omega
    have hnow : daysBeforeYear y
        = -(∑ i ∈ range (1970 - (y + 1)).toNat, yearLength (y + 1 + i)) - yearLength y := by
      rw [daysBeforeYear, if_neg hy, hcount, sum_range_succ']
      simp only [hshift, Nat.cast_zero, add_zero]
      omega
    by_cases hlast : 1970 ≤ y + 1
    · obtain rfl : y = 1969 := by omega
      rw [hnow]
      simp [daysBeforeYear]
    · rw [hnow, daysBeforeYear, if_neg hlast]
      omega

/-- Leap years counted by floored divisions. -/
theorem daysBeforeYear_eq (y : Int) :
    daysBeforeYear y
      = 365 * (y - 1970) + (y - 1969) / 4 - (y - 1901) / 100 + (y - 1601) / 400 := by
  have hstep : ∀ y : Int, yearLength y
      = (365 * (y + 1 - 1970) + (y + 1 - 1969) / 4 - (y + 1 - 1901) / 100 + (y + 1 - 1601) / 400)
        - (365 * (y - 1970) + (y - 1969) / 4 - (y - 1901) / 100 + (y - 1601) / 400) := by
    intro y
    by_cases hleap : IsLeap y
    · rw [yearLength, if_pos hleap]
      unfold IsLeap at hleap
      omega
    · rw [yearLength, if_neg hleap]
      unfold IsLeap at hleap
      omega
  induction y using Int.inductionOn' (b := 1970) with
  | zero => rfl
  | succ k _ ih =>
    have := hstep k
    rw [daysBeforeYear_succ]
    omega
  | pred k _ ih =>
    have hprev := daysBeforeYear_succ (k - 1)
    have := hstep (k - 1)
    rw [Int.sub_add_cancel] at hprev this
    omega

theorem yearLength_pos (y : Int) : 0 < yearLength y := by
  unfold yearLength
  split <;> decide

theorem daysBeforeYear_monotone : Monotone daysBeforeYear := by
  apply monotone_int_of_le_succ
  intro y
  have := yearLength_pos y
  rw [daysBeforeYear_succ]
  omega

/-! ## Months -/

theorem monthLength_pos (y m : Int) : 0 < monthLength y m := by
  unfold monthLength
  split
  · split <;> decide
  · split <;> decide

theorem daysBeforeMonth_succ (y : Int) {m : Int} (hm : 1 ≤ m) :
    daysBeforeMonth y (m + 1) = daysBeforeMonth y m + monthLength y m := by
  have hcount : (m + 1 - 1).toNat = (m - 1).toNat + 1 := by omega
  have hlast : ((m - 1).toNat : Int) + 1 = m := by omega
  rw [daysBeforeMonth, daysBeforeMonth, hcount, sum_range_succ, hlast]

theorem daysBeforeMonth_monotone (y : Int) : Monotone (daysBeforeMonth y) := by
  apply monotone_int_of_le_succ
  intro m
  by_cases hm : 1 ≤ m
  · have := monthLength_pos y m
    rw [daysBeforeMonth_succ y hm]
    omega
  · have hcount : (m - 1).toNat = (m + 1 - 1).toNat := by omega
    rw [daysBeforeMonth, daysBeforeMonth, hcount]

/-- The twelve months make up the year. -/
theorem daysBeforeMonth_thirteen (y : Int) : daysBeforeMonth y 13 = yearLength y := by
  have hcount : ((13 : Int) - 1).toNat = 12 := rfl
  rw [daysBeforeMonth, hcount, yearLength]
  by_cases hleap : IsLeap y <;> simp [sum_range_succ, monthLength, hleap]

theorem daysBeforeMonth_one (y : Int) : daysBeforeMonth y 1 = 0 := rfl

/-! ## The date with a given number -/

/-- A monotone sequence is between two neighbouring values at one place only. -/
theorem eq_of_between {f : Int → Int} (hf : Monotone f) {n a b : Int} (ha : f a ≤ n)
    (ha' : n < f (a + 1)) (hb : f b ≤ n) (hb' : n < f (b + 1)) : a = b := by
  rcases lt_trichotomy a b with h | h | h
  · have := hf (show a + 1 ≤ b by omega)
    omega
  · exact h
  · have := hf (show b + 1 ≤ a by omega)
    omega

variable {y m d y' m' d' : Int}

theorem ValidDate.dayOfYear_between (h : ValidDate y m d) :
    daysBeforeMonth y m ≤ daysBeforeMonth y m + (d - 1) ∧
      daysBeforeMonth y m + (d - 1) < daysBeforeMonth y (m + 1) := by
  have hpos := h.day_pos
  have hle := h.day_le
  rw [daysBeforeMonth_succ y h.month_pos]
  omega

theorem ValidDate.dayNumber_between (h : ValidDate y m d) :
    daysBeforeYear y ≤ dayNumber y m d ∧ dayNumber y m d < daysBeforeYear (y + 1) := by
  have hday := h.dayOfYear_between
  have hfirst : daysBeforeMonth y 1 ≤ daysBeforeMonth y m := daysBeforeMonth_monotone y h.month_pos
  have hlast : daysBeforeMonth y (m + 1) ≤ daysBeforeMonth y 13 :=
    daysBeforeMonth_monotone y (by have := h.month_le; omega)
  rw [daysBeforeMonth_one] at hfirst
  rw [daysBeforeMonth_thirteen] at hlast
  rw [daysBeforeYear_succ, dayNumber]
  omega

/-- A day has one date. -/
theorem ValidDate.eq_of_dayNumber_eq (h : ValidDate y m d) (h' : ValidDate y' m' d')
    (heq : dayNumber y m d = dayNumber y' m' d') : y = y' ∧ m = m' ∧ d = d' := by
  have hyear : y = y' := by
    have hb := h.dayNumber_between
    have hb' := h'.dayNumber_between
    rw [← heq] at hb'
    exact eq_of_between daysBeforeYear_monotone hb.1 hb.2 hb'.1 hb'.2
  subst hyear
  have hday : daysBeforeMonth y m + (d - 1) = daysBeforeMonth y m' + (d' - 1) := by
    unfold dayNumber at heq
    omega
  have hmonth : m = m' := by
    have hb := h.dayOfYear_between
    have hb' := h'.dayOfYear_between
    rw [← hday] at hb'
    exact eq_of_between (daysBeforeMonth_monotone y) hb.1 hb.2 hb'.1 hb'.2
  subst hmonth
  exact ⟨rfl, rfl, by omega⟩

end Dart2Wasm.Lib.Gregorian
