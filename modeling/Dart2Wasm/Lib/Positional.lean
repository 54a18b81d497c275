import Mathlib

/-!
# Positional — the value of a sequence of digits

Digits come most significant first. A long numeral is read block by block; the lemmas relate the
value of the whole to the values of its blocks, and a bound on the whole to bounds on the blocks.
-/

namespace Dart2Wasm.Lib.Positional

open List Nat

/-- The number that the digits `ds` denote in base `b`. -/
def value (b : Nat) (ds : List Nat) : Nat := ds.foldl (fun acc d => b * acc + d) 0

variable {b : Nat}

theorem foldl_eq_value (acc : Nat) (ds : List Nat) :
    ds.foldl (fun acc d => b * acc + d) acc = acc * b ^ ds.length + value b ds := by
  unfold value
  induction ds generalizing acc with
  | nil => simp
  | cons d ds ih =>
    rw [foldl_cons, foldl_cons, ih, ih (b * 0 + d), length_cons]
    ring

theorem value_append (xs ys : List Nat) :
    value b (xs ++ ys) = value b xs * b ^ ys.length + value b ys := by
  rw [value, foldl_append, foldl_eq_value]
  rfl

/-- Reading one more digit behind the value `acc`. -/
theorem value_step (acc d : Nat) (ds : List Nat) :
    (b * acc + d) * b ^ ds.length + value b ds
      = acc * b ^ (d :: ds).length + value b (d :: ds) := by
  rw [← foldl_eq_value, ← foldl_eq_value, foldl_cons]

theorem value_lt {ds : List Nat} (hds : ∀ d ∈ ds, d < b) : value b ds < b ^ ds.length := by
  induction ds using reverseRecOn with
  | nil => exact one_pos
  | append_singleton ds d ih =>
    have hinit : value b ds + 1 ≤ b ^ ds.length :=
      ih fun d' hd' => hds d' (mem_append_left _ hd')
    have hlast : d < b := hds d (mem_append_right _ mem_cons_self)
    have hvalue : value b [d] = d := by simp [value]
    rw [value_append, hvalue, length_append, length_singleton, pow_add, pow_one]
    calc
      value b ds * b + d < value b ds * b + b := Nat.add_lt_add_left hlast _
      _ = (value b ds + 1) * b := by ring
      _ ≤ b ^ ds.length * b := mul_le_mul_right b hinit

theorem value_mul_le_append (xs ys : List Nat) :
    value b xs * b ^ ys.length ≤ value b (xs ++ ys) := by
  rw [value_append]
  exact le_add_right _ _

/-- A number below `m` behind `N` stays below a limit as the quotient and the remainder of the limit
allow. -/
theorem mul_add_le_iff {m K N B : Nat} (hB : B < m) :
    N * m + B ≤ K ↔ N < K / m ∨ (N = K / m ∧ B ≤ K % m) := by
  have hK : m * (K / m) + K % m = K := div_add_mod K m
  have hmod : K % m < m := mod_lt K (zero_lt_of_lt hB)
  rcases lt_trichotomy N (K / m) with h | rfl | h
  · have hle : m * (N + 1) ≤ m * (K / m) := mul_le_mul_left m h
    rw [mul_succ, mul_comm m N] at hle
    exact ⟨fun _ => .inl h, fun _ => by omega⟩
  · rw [mul_comm] at hK
    exact ⟨fun _ => .inr ⟨rfl, by omega⟩, fun _ => by omega⟩
  · have hgt : m * (K / m + 1) ≤ m * N := mul_le_mul_left m h
    rw [mul_succ, mul_comm m N] at hgt
    exact ⟨fun _ => by omega, fun h' => by omega⟩

end Dart2Wasm.Lib.Positional
