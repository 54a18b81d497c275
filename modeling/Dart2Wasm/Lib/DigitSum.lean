import Mathlib

/-!
# DigitSum — numbers given by a function of digits

A sequence of digits is a function, least significant digit first, and `digitSum b f n` is the
number that its first `n` digits denote in base `b`. A loop that computes digit by digit with a
carry satisfies one equation per digit; `digitSum_carry` adds these equations up.

In a base that is a power of two the bits of the number are the bits of its digits.
-/

namespace Dart2Wasm.Lib

open Finset Nat

/-- The number with the digits `f 0, ..., f (n - 1)`. -/
def digitSum (b : Nat) (f : Nat → Nat) (n : Nat) : Nat := ∑ k ∈ range n, f k * b ^ k

variable {b : Nat} {f g : Nat → Nat} {n m : Nat}

@[simp]
theorem digitSum_zero : digitSum b f 0 = 0 := rfl

theorem digitSum_succ : digitSum b f (n + 1) = digitSum b f n + f n * b ^ n :=
  sum_range_succ _ _

theorem digitSum_congr (h : ∀ k < n, f k = g k) : digitSum b f n = digitSum b g n := by
  apply sum_congr rfl
  intro k hk
  rw [h k (mem_range.1 hk)]

theorem digitSum_add : digitSum b f (n + m) =
    digitSum b f n + b ^ n * digitSum b (fun k => f (n + k)) m := by
  induction m with
  | zero => simp
  | succ m ih =>
    rw [← add_assoc, digitSum_succ, ih, digitSum_succ, pow_add]
    ring

theorem digitSum_of_zero (h : ∀ k < n, f k = 0) : digitSum b f n = 0 := by
  apply sum_eq_zero
  intro k hk
  rw [h k (mem_range.1 hk), zero_mul]

theorem digitSum_extend (h : ∀ k, n ≤ k → k < n + m → f k = 0) :
    digitSum b f (n + m) = digitSum b f n := by
  have hzero : digitSum b (fun k => f (n + k)) m = 0 :=
    digitSum_of_zero fun k hk => h (n + k) (by omega) (by omega)
  rw [digitSum_add, hzero, mul_zero, add_zero]

theorem digitSum_lt (h : ∀ k < n, f k < b) : digitSum b f n < b ^ n := by
  induction n with
  | zero => simp
  | succ n ih =>
    have hlow := ih fun k hk => h k (by omega)
    have htop : f n + 1 ≤ b := h n (by omega)
    rw [digitSum_succ, pow_succ]
    calc
      digitSum b f n + f n * b ^ n < b ^ n + f n * b ^ n := by omega
      _ = b ^ n * (f n + 1) := by ring
      _ ≤ b ^ n * b := mul_le_mul_left _ htop

theorem le_digitSum (h : f n ≠ 0) : b ^ n ≤ digitSum b f (n + 1) := by
  rw [digitSum_succ]
  have hpos : 1 ≤ f n := one_le_iff_ne_zero.2 h
  calc
    b ^ n = 1 * b ^ n := (one_mul _).symm
    _ ≤ f n * b ^ n := mul_le_mul_right _ hpos
    _ ≤ digitSum b f n + f n * b ^ n := le_add_left _ _

theorem digit_unique (hf : ∀ k < n, f k < b) (hg : ∀ k < n, g k < b)
    (h : digitSum b f n = digitSum b g n) : ∀ k < n, f k = g k := by
  induction n with
  | zero => nofun
  | succ n ih =>
    have hlow := digitSum_lt fun k hk => hf k (lt_succ_of_lt hk)
    have hlow' := digitSum_lt fun k hk => hg k (lt_succ_of_lt hk)
    have hpos : 0 < b ^ n := zero_lt_of_lt hlow
    rw [digitSum_succ, digitSum_succ] at h
    have htop : f n = g n := by
      have hdiv := congrArg (· / b ^ n) h
      simpa [add_mul_div_right _ _ hpos, div_eq_of_lt hlow, div_eq_of_lt hlow']
        using hdiv
    rw [htop] at h
    intro k hk
    rcases Nat.lt_succ_iff_lt_or_eq.1 hk with hk | rfl
    · exact ih (fun j hj => hf j (by omega)) (fun j hj => hg j (by omega)) (by omega) k hk
    · exact htop

/-- A difference in the top digit decides. -/
theorem digitSum_lt_of_top (hf : ∀ k < n, f k < b) (h : f n < g n) :
    digitSum b f (n + 1) < digitSum b g (n + 1) := by
  have hlow := digitSum_lt hf
  rw [digitSum_succ, digitSum_succ]
  calc
    digitSum b f n + f n * b ^ n < b ^ n + f n * b ^ n := by omega
    _ = (f n + 1) * b ^ n := by ring
    _ ≤ g n * b ^ n := mul_le_mul_right _ h
    _ ≤ digitSum b g n + g n * b ^ n := le_add_left _ _

/-- A number with more digits is larger. -/
theorem digitSum_lt_of_length (hf : ∀ k < n, f k < b) (hb : 0 < b) (hnm : n < m)
    (hg : g (m - 1) ≠ 0) : digitSum b f n < digitSum b g m := by
  obtain ⟨m, rfl⟩ : ∃ m', m = m' + 1 := ⟨m - 1, by omega⟩
  calc
    digitSum b f n < b ^ n := digitSum_lt hf
    _ ≤ b ^ m := Nat.pow_le_pow_right hb (by omega)
    _ ≤ digitSum b g (m + 1) := le_digitSum hg

/-! ## Carries -/

/-- The equations of the digits of a loop with a carry add up. -/
theorem digitSum_carry {c t : Nat → Int} (h : ∀ k < n, (f k : Int) + b * c (k + 1) = t k + c k) :
    (digitSum b f n : Int) + b ^ n * c n = ∑ k ∈ range n, t k * (b : Int) ^ k + c 0 := by
  induction n with
  | zero => simp
  | succ n ih =>
    have hstep := h n (by omega)
    have hrest := ih fun k hk => h k (by omega)
    rw [digitSum_succ, sum_range_succ]
    push_cast
    calc
      (digitSum b f n : Int) + f n * b ^ n + b ^ (n + 1) * c (n + 1)
          = digitSum b f n + b ^ n * (f n + b * c (n + 1)) := by ring
      _ = digitSum b f n + b ^ n * c n + t n * b ^ n := by
            rw [hstep]
            ring
      _ = ∑ k ∈ range n, t k * (b : Int) ^ k + t n * b ^ n + c 0 := by
            rw [hrest]
            ring

theorem cast_digitSum (b : Nat) (f : Nat → Nat) (n : Nat) :
    (digitSum b f n : Int) = ∑ k ∈ range n, (f k : Int) * (b : Int) ^ k := by
  rw [digitSum]
  push_cast
  rfl

/-! ## Moving the boundaries of digits -/

theorem digitSum_eq_zero_iff (hb : 0 < b) : digitSum b f n = 0 ↔ ∀ k < n, f k = 0 := by
  rw [digitSum, sum_eq_zero_iff]
  constructor
  · intro h k hk
    exact (Nat.mul_eq_zero.1 (h k (mem_range.2 hk))).resolve_right (Nat.pow_pos hb).ne'
  · intro h k hk
    rw [h k (mem_range.1 hk), zero_mul]

/-- A digit of `p` times the number joins the parts of two digits. -/
theorem digitSum_times {p q : Nat} (hfirst : f 0 = p * (g 0 % q))
    (hf : ∀ k < n, f (k + 1) = g k / q + p * (g (k + 1) % q)) :
    digitSum (p * q) f (n + 1) = p * digitSum (p * q) g n + (p * q) ^ n * (p * (g n % q)) := by
  induction n with
  | zero => simp [digitSum_succ, hfirst]
  | succ n ih =>
    have hdigit : q * (g n / q) + g n % q = g n := div_add_mod _ _
    rw [digitSum_succ, ih fun k hk => hf k (by omega), hf n (by omega), digitSum_succ]
    calc
      p * digitSum (p * q) g n + (p * q) ^ n * (p * (g n % q)) +
            (g n / q + p * (g (n + 1) % q)) * (p * q) ^ (n + 1)
          = p * (digitSum (p * q) g n + (q * (g n / q) + g n % q) * (p * q) ^ n) +
            (p * q) ^ (n + 1) * (p * (g (n + 1) % q)) := by ring
      _ = _ := by rw [hdigit]

/-- A digit of the number over `p` joins the parts of two digits. -/
theorem digitSum_over {p q : Nat} (hf : ∀ k < n, f k = q * (g (k + 1) % p) + g k / p) :
    p * digitSum (p * q) f n + g 0 % p = digitSum (p * q) g n + (p * q) ^ n * (g n % p) := by
  induction n with
  | zero => simp
  | succ n ih =>
    have hdigit : p * (g n / p) + g n % p = g n := div_add_mod _ _
    rw [digitSum_succ, digitSum_succ, hf n (by omega)]
    calc
      p * (digitSum (p * q) f n + (q * (g (n + 1) % p) + g n / p) * (p * q) ^ n) + g 0 % p
          = (p * digitSum (p * q) f n + g 0 % p) + p * (g n / p) * (p * q) ^ n +
            (p * q) ^ (n + 1) * (g (n + 1) % p) := by ring
      _ = digitSum (p * q) g n + (p * (g n / p) + g n % p) * (p * q) ^ n +
            (p * q) ^ (n + 1) * (g (n + 1) % p) := by
            rw [ih fun k hk => hf k (by omega)]
            ring
      _ = _ := by rw [hdigit]

/-! ## Bits -/

/-- The bits of the digits are the bits of the number. -/
theorem testBit_digitSum {w : Nat} (hw : 0 < w) (hf : ∀ k < n, f k < 2 ^ w) (i : Nat) :
    (digitSum (2 ^ w) f n).testBit i = (decide (i / w < n) && (f (i / w)).testBit (i % w)) := by
  induction n with
  | zero => simp
  | succ n ih =>
    have hlow := ih fun k hk => hf k (by omega)
    have hlt : digitSum (2 ^ w) f n < 2 ^ (w * n) := by
      rw [pow_mul]
      exact digitSum_lt fun k hk => hf k (by omega)
    have hsum : digitSum (2 ^ w) f (n + 1) =
        2 ^ (w * n) * f n + digitSum (2 ^ w) f n := by
      rw [digitSum_succ, ← pow_mul]
      ring
    rw [hsum, testBit_two_pow_mul_add _ hlt, hlow]
    have hdiv := div_add_mod i w
    by_cases hi : i < w * n
    · have hk : i / w < n := Nat.div_lt_of_lt_mul hi
      simp [hi, hk, lt_succ_of_lt hk]
    have hge : n ≤ i / w := (le_div_iff_mul_le hw).2 (by rw [mul_comm]; omega)
    rw [if_neg hi]
    by_cases hk : i / w = n
    · have hrest : i - w * n = i % w := by
        rw [← hk]
        omega
      simp [hk, hrest]
    · have hbig : w ≤ i - w * n := by
        have : w * (n + 1) ≤ i := by
          calc
            w * (n + 1) ≤ w * (i / w) := mul_le_mul_left _ (by omega)
            _ ≤ i := mul_div_le i w
        rw [mul_succ] at this
        omega
      have hzero : (f n).testBit (i - w * n) = false :=
        testBit_lt_two_pow (lt_of_lt_of_le (hf n (by omega))
          (Nat.pow_le_pow_right (by decide) hbig))
      have hout : ¬ i / w < n + 1 := by omega
      simp [hzero, hout]

end Dart2Wasm.Lib
