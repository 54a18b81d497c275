import Mathlib

/-!
# MachineInt — when 64-bit arithmetic is exact

The operations of `Int64` wrap around. A program that keeps its values inside the range computes
as over the integers; the lemmas below say so for one operation at a time, under a bound on the
exact result.
-/

namespace Dart2Wasm.Lib.MachineInt

variable {a b : Int64}

section Exact

variable {m n : Int} (ha : a.toInt = m) (hb : b.toInt = n)
include ha hb

theorem toInt_add_eq (h : -2 ^ 63 ≤ m + n ∧ m + n < 2 ^ 63) : (a + b).toInt = m + n := by
  rw [Int64.toInt_add, ha, hb]
  exact Int.bmod_eq_of_le h.1 h.2

theorem toInt_sub_eq (h : -2 ^ 63 ≤ m - n ∧ m - n < 2 ^ 63) : (a - b).toInt = m - n := by
  rw [Int64.toInt_sub, ha, hb]
  exact Int.bmod_eq_of_le h.1 h.2

theorem toInt_mul_eq (h : -2 ^ 63 ≤ m * n ∧ m * n < 2 ^ 63) : (a * b).toInt = m * n := by
  rw [Int64.toInt_mul, ha, hb]
  exact Int.bmod_eq_of_le h.1 h.2

end Exact

theorem toInt_neg_of_bounds (hlow : -2 ^ 63 < a.toInt) : (-a).toInt = -a.toInt := by
  have hlt := Int64.toInt_lt a
  rw [Int64.toInt_neg]
  apply Int.bmod_eq_of_le
  · show -2 ^ 63 ≤ -a.toInt
    omega
  · show -a.toInt < 2 ^ 63
    omega

/-- Division truncates; by a positive number it cannot overflow. -/
theorem toInt_div_of_pos (hb : 0 < b.toInt) : (a / b).toInt = a.toInt.tdiv b.toInt := by
  apply Int64.toInt_div_of_ne_right
  rintro rfl
  exact absurd hb (by decide)

end Dart2Wasm.Lib.MachineInt
