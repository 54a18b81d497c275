import Dart2Wasm.CoreLibrary.BigIntDigits

/-!
# BigIntArithmetic — magnitudes are added, subtracted, compared and multiplied

The carry of an addition or a subtraction stays between -1 and 1, and the carry of a multiplication
below the base, so no intermediate result leaves the 64-bit range. The last carry is what the sizes
of the operands allow.
-/

namespace Dart2Wasm.BigIntImpl

open Lib BigInt List Nat Finset Int

variable {k n i j m : Nat} {c a : Int} {isNegative : Bool}

/-! ## Addition and subtraction -/

/-- What a loop over `n` digits from `k` on with the terms `t` and the carry `c` leaves. -/
structure Adds (R R' : List Nat) (k n : Nat) (t : Nat → Int) (c c' : Int) : Prop where
  length : R'.length = R.length
  outside : ∀ j, j < k ∨ k + n ≤ j → digit R' j = digit R j
  small : ∀ j, k ≤ j → j < k + n → digit R' j < digitBase
  carry : -1 ≤ c' ∧ c' ≤ 1
  sum : (digitSum digitBase (fun m => digit R' (k + m)) n : Int) + digitBase ^ n * c' =
    ∑ m ∈ Finset.range n, t m * (digitBase : Int) ^ m + c

variable {h : Heap} {R : List Nat}

/-- The loops of `absAdd` and `absSub`: the terms have the right size. -/
theorem adds_segment (hlength : k + n ≤ R.length) (body : Heap → Nat → Int → Option (Int × Int))
    (t : Nat → Int) (ht : ∀ m < n, -(digitBase : Int) < t m ∧ t m ≤ 2 * (digitBase - 1))
    (hbody : ∀ m < n, ∀ c R', -1 ≤ c ∧ c ≤ 1 → body (h ++ [R']) (k + m) c =
      some (land (c + t m) digitMask, (c + t m) >>> digitBits)) (hc : -1 ≤ c ∧ c ≤ 1) :
    ∃ R' c', forDigits body h.length (fun i => i) n k c (h ++ [R]) = some (c', h ++ [R']) ∧
      Adds R R' k n t c c' := by
  obtain ⟨R', hloop, hsame, hrest, hsmall, hsum⟩ := carry_segment body (fun i => i) t
    (fun m => land (carries t c m + t m) digitMask) c (fun m _ => rfl) hlength
    (fun m _ => digit_of_land _) (fun m hm R' _ => by
      rw [hbody m hm _ R' (carries_bounds hc ht m (by omega)), shiftRight_digit]
      rfl)
  exact ⟨R', _, hloop, hsame, hrest, hsmall, carries_bounds hc ht n (le_refl n), hsum⟩

theorem wrap_term {t : Int} (hc : -1 ≤ c ∧ c ≤ 1)
    (ht : -(digitBase : Int) < t ∧ t ≤ 2 * (digitBase - 1)) : wrap (c + wrap t) = c + t := by
  rw [base_eq] at ht
  rw [wrap_of_bounds (n := t) (by omega) (by omega), wrap_of_bounds (by omega) (by omega)]

variable {x : BigInt}

theorem rest_adds (hx : Normal h x)
    (hk : k ≤ x.used) (hlength : x.used ≤ R.length) (hc : -1 ≤ c ∧ c ≤ 1) :
    ∃ R' c', forDigits (restBody x.digits) h.length (fun i => i) (x.used - k) k c (h ++ [R]) =
        some (c', h ++ [R']) ∧
      Adds R R' k (x.used - k) (fun m => (digitOf h x (k + m) : Int)) c c' := by
  have ht : ∀ m < x.used - k, -(digitBase : Int) < (digitOf h x (k + m) : Int) ∧
      (digitOf h x (k + m) : Int) ≤ 2 * (digitBase - 1) := by
    intro m _
    have := hx.small_int (k + m)
    rw [base_eq]
    omega
  refine adds_segment (by omega) _ _ ht (fun m hm c R' hc => ?_) hc
  have hsmall := hx.small_int (k + m)
  rw [restBody, hx.read (show k + m < x.used by omega) R', some_bind,
    wrap_of_bounds (by omega) (by omega)]

variable {x y : BigInt}

section

variable (hx : Normal h x) (hy : Normal h y)
include hx hy

/-- Both loops, one after the other, add the second operand with the sign `s`. -/
theorem adds_both (hxy : y.used ≤ x.used) (hn : x.used ≤ n)
    (body : Heap → Nat → Int → Option (Int × Int)) {s : Int} (hs : s = 1 ∨ s = -1)
    (hbody : ∀ m < y.used, ∀ c R, body (h ++ [R]) m c =
      let t := wrap (c + wrap (digitOf h x m + s * digitOf h y m))
      some (land t digitMask, t >>> digitBits)) :
    ∃ R₁ c₁ R c₂,
      forDigits body h.length (fun i => i) y.used 0 0 (h ++ [replicate n 0]) =
        some (c₁, h ++ [R₁]) ∧
      forDigits (restBody x.digits) h.length (fun i => i) (x.used - y.used) y.used c₁ (h ++ [R₁]) =
        some (c₂, h ++ [R]) ∧
      (-1 ≤ c₂ ∧ c₂ ≤ 1) ∧ R.length = n ∧ (∀ j, x.used ≤ j → digit R j = 0) ∧
      (∀ j < x.used, digit R j < digitBase) ∧
      (digitSum digitBase (digit R) x.used : Int) + digitBase ^ x.used * c₂ =
        magnitude h x + s * magnitude h y := by
  have hreplicate : (replicate n 0).length = n := length_replicate
  have ht : ∀ m, -(digitBase : Int) < digitOf h x m + s * digitOf h y m ∧
      digitOf h x m + s * digitOf h y m ≤ 2 * ((digitBase : Int) - 1) := by
    intro m
    have hxm := hx.small_int m
    have hym := hy.small_int m
    rw [base_eq]
    rcases hs with rfl | rfl <;> omega
  obtain ⟨R₁, c₁, hloop₁, h₁⟩ := adds_segment (k := 0)
    (show 0 + y.used ≤ (replicate n 0).length by omega) body _
    (fun m _ => ht m) (fun m hm c R' hc => by rw [zero_add, hbody m hm, wrap_term hc (ht m)])
    (show -1 ≤ (0 : Int) ∧ (0 : Int) ≤ 1 by decide)
  have hlength₁ := h₁.length
  obtain ⟨R, c₂, hloop₂, h₂⟩ := rest_adds hx hxy (show x.used ≤ R₁.length by omega) h₁.carry
  have hlength₂ := h₂.length
  refine ⟨R₁, c₁, R, c₂, hloop₁, hloop₂, h₂.carry, by omega, ?_, ?_, ?_⟩
  · intro j hj
    rw [h₂.outside j (by omega), h₁.outside j (by omega), digit_replicate]
  · intro j hj
    by_cases hjn : j < y.used
    · rw [h₂.outside j (by omega)]
      exact h₁.small j (by omega) (by omega)
    · exact h₂.small j (by omega) (by omega)
  · obtain ⟨l, hl⟩ := Nat.exists_eq_add_of_le hxy
    have hlow : digitSum digitBase (digit R) y.used =
        digitSum digitBase (fun m => digit R₁ (0 + m)) y.used := by
      apply digitSum_congr
      intro k hk
      rw [zero_add, h₂.outside k (by omega)]
    have hterms : ∑ m ∈ range y.used,
          (digitOf h x m + s * digitOf h y m) * (digitBase : Int) ^ m =
        digitSum digitBase (digitOf h x) y.used + s * magnitude h y := by
      rw [magnitude, cast_digitSum, cast_digitSum, mul_sum, ← sum_add_distrib]
      exact sum_congr rfl fun m _ => by ring
    have hsum₁ := h₁.sum
    have hsum₂ := h₂.sum
    rw [hterms] at hsum₁
    rw [show x.used - y.used = l by omega, ← cast_digitSum] at hsum₂
    rw [magnitude, hl, digitSum_add, digitSum_add, hlow, pow_add]
    push_cast
    linear_combination hsum₁ + (digitBase : Int) ^ y.used * hsum₂

theorem absAdd_spec (hxy : y.used ≤ x.used) (hn : x.used < n) :
    ∃ R, absAdd (h ++ [replicate n 0]) x.digits x.used y.digits y.used h.length =
        some (h ++ [R]) ∧
      Fills n R (x.used + 1) (magnitude h x + magnitude h y) := by
  obtain ⟨R₁, c₁, R₂, c₂, hloop₁, hloop₂, hbounds, hsame, habove, hsmall, hsum⟩ :=
    adds_both hx hy hxy (le_of_lt hn) (addBody x.digits y.digits) (.inl rfl)
      (fun m hm c R' => by
        rw [addBody, hx.read (show m < x.used by omega), hy.read hm, one_mul]
        rfl)
  -- the last carry is a digit
  have hlt : (digitSum digitBase (digit R₂) x.used : Int) < (digitBase : Int) ^ x.used := by
    exact_mod_cast digitSum_lt hsmall
  have hcarry : 0 ≤ c₂ := by
    by_contra hneg
    have hle : (digitBase : Int) ^ x.used * c₂ ≤ (digitBase : Int) ^ x.used * (-1) :=
      mul_le_mul_of_nonneg_left (by omega) (pow_nonneg (natCast_nonneg _) _)
    linarith
  have hdigit : (c₂ % digitBase).toNat = c₂.toNat := by
    rw [base_eq, emod_eq_of_lt hcarry (by omega)]
  have hroom : x.used < R₂.length := by rw [hsame]; exact hn
  refine ⟨R₂.set x.used c₂.toNat, ?_, ?_, ?_, ?_, ?_⟩
  · rw [absAdd, hloop₁]
    simp only [some_bind]
    rw [hloop₂]
    simp only [some_bind]
    rw [writeDigit_snoc h hroom, hdigit]
  · rw [length_set, hsame]
  · intro j hj
    rcases Nat.lt_succ_iff_lt_or_eq.1 hj with hlow | rfl
    · rw [digit_set_ne (by omega)]
      exact hsmall j hlow
    · rw [digit_set_self hroom]
      have := base_eq
      omega
  · intro j hj
    rw [digit_set_ne (by omega), habove j (by omega)]
  · have hlow : digitSum digitBase (digit (R₂.set x.used c₂.toNat)) x.used =
        digitSum digitBase (digit R₂) x.used :=
      digitSum_congr fun k hk => digit_set_ne (by omega) _
    rw [digitSum_succ, hlow, digit_set_self hroom]
    zify
    rw [toNat_of_nonneg hcarry]
    linear_combination hsum

theorem absSub_spec (hle : magnitude h y ≤ magnitude h x)
    (hxy : y.used ≤ x.used) (hn : x.used ≤ n) :
    ∃ R, absSub (h ++ [replicate n 0]) x.digits x.used y.digits y.used h.length =
        some (h ++ [R]) ∧
      Fills n R x.used (magnitude h x - magnitude h y) := by
  obtain ⟨R₁, c₁, R₂, c₂, hloop₁, hloop₂, hbounds, hsame, habove, hsmall, hsum⟩ :=
    adds_both hx hy hxy hn (subBody x.digits y.digits) (.inr rfl)
      (fun m hm c R' => by
        rw [subBody, hx.read (show m < x.used by omega), hy.read hm, neg_one_mul, ← sub_eq_add_neg]
        rfl)
  -- there is no last carry
  have hlt : (digitSum digitBase (digit R₂) x.used : Int) < (digitBase : Int) ^ x.used := by
    exact_mod_cast digitSum_lt hsmall
  have hltx : (magnitude h x : Int) < (digitBase : Int) ^ x.used := by
    exact_mod_cast hx.magnitude_lt
  have hcarry : c₂ = 0 := by
    obtain rfl | rfl | rfl : c₂ = -1 ∨ c₂ = 0 ∨ c₂ = 1 := by omega
    · linarith
    · rfl
    · linarith
  refine ⟨R₂, ?_, hsame, hsmall, habove, ?_⟩
  · rw [absSub, hloop₁]
    simp only [some_bind]
    rw [hloop₂]
    rfl
  · rw [hcarry] at hsum
    omega

end

/-! ## Signs -/

/-- The heap has the arrays of the constants. -/
structure Prepared (h : Heap) : Prop where
  zeroArray : h[zeroDigits]? = some [0, 0]
  oneArray : h[oneDigits]? = some [1, 0]

theorem Prepared.mono {h h' : Heap} (hh : h <+: h') (hp : Prepared h) : Prepared h' := by
  obtain ⟨t, rfl⟩ := hh
  constructor
  · rw [List.getElem?_append_left (List.getElem?_eq_some_iff.1 hp.zeroArray).1, hp.zeroArray]
  · rw [List.getElem?_append_left (List.getElem?_eq_some_iff.1 hp.oneArray).1, hp.oneArray]

theorem Prepared.normal_zero (hp : Prepared h) : Normal h zero := by
  have harray : arrayOf h zero = [0, 0] := by
    rw [arrayOf, zero, hp.zeroArray]
    rfl
  refine ⟨?_, ?_, ?_, ?_, ?_, ?_, fun _ => rfl⟩ <;> simp only [digitOf, harray]
  · exact hp.zeroArray
  · intro k
    have hzero : digit [0, 0] k = 0 := digit_replicate 2 k
    rw [hzero]
    exact base_pos
  · exact zero_le _
  · rfl
  · intro h
    cases h
  · exact fun h => absurd rfl h

theorem Prepared.array_one (hp : Prepared h) : arrayOf h one = [1, 0] := by
  rw [arrayOf, one, hp.oneArray]
  rfl

theorem Prepared.normal_one (hp : Prepared h) : Normal h one := by
  refine ⟨?_, ?_, ?_, ?_, ?_, ?_, nofun⟩ <;> simp only [digitOf, hp.array_one]
  · exact hp.oneArray
  · intro k
    match k with
    | 0 => norm_num [digit, digitBase]
    | 1 => exact base_pos
    | k + 2 => exact base_pos
  · decide
  · rfl
  · exact fun _ => rfl
  · exact fun _ => by decide

theorem Prepared.magnitude_one (hp : Prepared h) : magnitude h one = 1 := by
  rw [magnitude, digitOf, hp.array_one, show one.used = 0 + 1 from rfl, digitSum_succ,
    digitSum_zero]
  rfl

theorem arrayOf_neg (h : Heap) (x : BigInt) : arrayOf h x.neg = arrayOf h x := by
  rw [neg]
  split <;> rfl

theorem used_neg (x : BigInt) : x.neg.used = x.used := by
  rw [neg]
  split <;> rfl

theorem digits_neg (x : BigInt) : x.neg.digits = x.digits := by
  rw [neg]
  split <;> rfl

theorem magnitude_neg (h : Heap) (x : BigInt) : magnitude h x.neg = magnitude h x := by
  rw [magnitude, digitOf, arrayOf_neg, used_neg, magnitude]

theorem isNegative_neg (hx : x.used ≠ 0) : x.neg.isNegative = !x.isNegative := by
  rw [neg, if_neg hx]

theorem Normal.neg (hx : Normal h x) : Normal h x.neg := by
  refine ⟨?_, ?_, ?_, ?_, ?_, ?_, ?_⟩
  · rw [digits_neg, arrayOf_neg]
    exact hx.array
  · rw [digitOf, arrayOf_neg]
    exact hx.small
  · rw [arrayOf_neg, used_neg]
    exact hx.fits
  · rw [arrayOf_neg]
    exact hx.even
  · rw [digitOf, arrayOf_neg, used_neg]
    exact hx.padded
  · rw [digitOf, arrayOf_neg, used_neg]
    exact hx.leading
  · intro hzero
    rw [used_neg] at hzero
    rw [BigInt.neg, if_pos hzero]
    exact hx.sign hzero

theorem yields_self (hx : Normal h x) (hne : x.used ≠ 0) (isNegative : Bool) :
    Yields h (magnitude h x) isNegative
      (some (if x.isNegative = isNegative then x else x.neg, h)) := by
  by_cases hsign : x.isNegative = isNegative
  · exact ⟨x, h, by rw [if_pos hsign], prefix_rfl, hx, rfl, fun _ => hsign⟩
  · refine ⟨x.neg, h, by rw [if_neg hsign], prefix_rfl, hx.neg, magnitude_neg h x, fun _ => ?_⟩
    rw [isNegative_neg hne]
    cases hn : x.isNegative <;> cases isNegative <;> simp_all

theorem yields_zero (hp : Prepared h) (isNegative : Bool) :
    Yields h 0 isNegative (some (zero, h)) :=
  ⟨zero, h, rfl, prefix_rfl, hp.normal_zero, rfl, fun h => absurd rfl h⟩

theorem magnitude_of_used (hx : x.used = 0) : magnitude h x = 0 := by
  rw [magnitude, hx]
  rfl

theorem absAddLonger_yields (hp : Prepared h) (hx : Normal h x)
    (hy : Normal h y) (hxy : y.used ≤ x.used) (isNegative : Bool) :
    Yields h (magnitude h x + magnitude h y) isNegative (absAddLonger x y isNegative h) := by
  rw [absAddLonger]
  by_cases hx0 : x.used = 0
  · rw [if_pos hx0, magnitude_of_used hx0, magnitude_of_used (by omega)]
    exact yields_zero hp isNegative
  by_cases hy0 : y.used = 0
  · rw [if_neg hx0, if_pos hy0, magnitude_of_used hy0]
    exact yields_self hx hx0 isNegative
  rw [if_neg hx0, if_neg hy0]
  exact yields_of_fill isNegative (fun h' => absAdd h' x.digits x.used y.digits y.used h.length)
    (le_refl _) (absAdd_spec hx hy hxy (by omega))

theorem absAddSetSign_yields (hp : Prepared h) (hx : Normal h x)
    (hy : Normal h y) (isNegative : Bool) :
    Yields h (magnitude h x + magnitude h y) isNegative (x.absAddSetSign y isNegative h) := by
  rw [absAddSetSign]
  by_cases hlt : x.used < y.used
  · rw [if_pos hlt, add_comm]
    exact absAddLonger_yields hp hy hx (le_of_lt hlt) isNegative
  · rw [if_neg hlt]
    exact absAddLonger_yields hp hx hy (Nat.le_of_not_lt hlt) isNegative

theorem used_le_of_magnitude (hx : Normal h x) (hy : Normal h y)
    (hle : magnitude h y ≤ magnitude h x) : y.used ≤ x.used := by
  by_contra hlt
  have hmore := digitSum_lt_of_length (fun k _ => hx.small k) base_pos (Nat.lt_of_not_le hlt)
    (hy.leading (by omega))
  exact absurd hle (Nat.not_le_of_lt hmore)

theorem absSubSetSign_yields (hp : Prepared h) (hx : Normal h x)
    (hy : Normal h y) (hle : magnitude h y ≤ magnitude h x) (isNegative : Bool) :
    Yields h (magnitude h x - magnitude h y) isNegative (x.absSubSetSign y isNegative h) := by
  have hxy := used_le_of_magnitude hx hy hle
  rw [absSubSetSign]
  by_cases hx0 : x.used = 0
  · rw [if_pos hx0, magnitude_of_used hx0, Nat.zero_sub]
    exact yields_zero hp isNegative
  by_cases hy0 : y.used = 0
  · rw [if_neg hx0, if_pos hy0, magnitude_of_used hy0, Nat.sub_zero]
    exact yields_self hx hx0 isNegative
  rw [if_neg hx0, if_neg hy0]
  exact yields_of_fill isNegative (fun h' => absSub h' x.digits x.used y.digits y.used h.length)
    (le_refl _) (absSub_spec hx hy hle hxy (by omega))

/-! ## Comparison -/

def Compares (result : Int) (a b : Int) : Prop :=
  (result < 0 ↔ a < b) ∧ (result = 0 ↔ a = b) ∧ (0 < result ↔ b < a)

section

variable (hx : Normal h x) (hy : Normal h y)
include hx hy

theorem compareLoop_spec (hnx : n ≤ x.used) (hny : n ≤ y.used) :
    ∃ result, compareLoop h x.digits y.digits n = some result ∧
      Compares result (digitSum digitBase (digitOf h x) n)
        (digitSum digitBase (digitOf h y) n) := by
  induction n with
  | zero => exact ⟨0, rfl, by simp [Compares]⟩
  | succ n ih =>
    have hxn := hx.small_int n
    have hyn := hy.small_int n
    rw [compareLoop, hx.read' (show n < x.used by omega), hy.read' (show n < y.used by omega)]
    simp only [some_bind]
    rw [wrap_of_bounds (by omega) (by omega)]
    rcases lt_trichotomy (digitOf h x n) (digitOf h y n) with hlt | heq | hgt
    · have hsum := digitSum_lt_of_top (fun k _ => hx.small k) hlt
      refine ⟨_, if_pos (by omega), ?_⟩
      simp only [Compares]
      omega
    · obtain ⟨result, hresult, hcompares⟩ := ih (by omega) (by omega)
      refine ⟨result, by rw [if_neg (by omega)]; exact hresult, ?_⟩
      rw [digitSum_succ, digitSum_succ, heq]
      simp only [Compares] at hcompares ⊢
      omega
    · have hsum := digitSum_lt_of_top (fun k _ => hy.small k) hgt
      refine ⟨_, if_pos (by omega), ?_⟩
      simp only [Compares]
      omega

theorem absCompare_spec :
    ∃ result, x.absCompare y h = some result ∧ Compares result (magnitude h x) (magnitude h y) := by
  rw [absCompare, compareDigits]
  rcases lt_trichotomy x.used y.used with hlt | heq | hgt
  · have hsum := digitSum_lt_of_length (fun k _ => hx.small k) base_pos hlt
      (hy.leading (by omega))
    refine ⟨_, if_neg (by omega), ?_⟩
    simp only [Compares, magnitude]
    omega
  · have hloop := compareLoop_spec hx hy (le_refl _) (le_of_eq heq)
    rw [if_pos (by omega), magnitude, magnitude, ← heq]
    exact hloop
  · have hsum := digitSum_lt_of_length (fun k _ => hy.small k) base_pos hgt
      (hx.leading (by omega))
    refine ⟨_, if_neg (by omega), ?_⟩
    simp only [Compares, magnitude]
    omega

theorem compareTo_spec :
    ∃ result, x.compareTo y h = some result ∧ Compares result (toInt h x) (toInt h y) := by
  obtain ⟨result, hresult, hcompares⟩ := absCompare_spec hx hy
  have hxpos := hx.magnitude_ne_zero
  have hypos := hy.magnitude_ne_zero
  have hxsign := hx.sign
  have hysign := hy.sign
  rw [compareTo, toInt, toInt]
  cases hxn : x.isNegative <;> cases hyn : y.isNegative
  · refine ⟨result, by simp [hresult], ?_⟩
    simpa using hcompares
  · -- the second one is negative
    rw [hyn] at hysign
    have hne : magnitude h y ≠ 0 := hypos.2 fun hzero => Bool.noConfusion (hysign hzero)
    refine ⟨1, by simp, ?_⟩
    simp only [Compares, Bool.false_eq_true, if_false, if_true]
    omega
  · rw [hxn] at hxsign
    have hne : magnitude h x ≠ 0 := hxpos.2 fun hzero => Bool.noConfusion (hxsign hzero)
    refine ⟨-1, by simp, ?_⟩
    simp only [Compares, Bool.false_eq_true, if_false, if_true]
    omega
  · refine ⟨0 - result, by simp [hresult], ?_⟩
    simp only [Compares, if_true] at hcompares ⊢
    omega

end

/-! ## Multiplication -/

theorem mul_bound {b : Int} (ha : 0 ≤ a ∧ a < 65536) (hb : 0 ≤ b ∧ b < 65536) :
    0 ≤ a * b ∧ a * b ≤ 4294836225 := by
  constructor
  · exact mul_nonneg ha.1 hb.1
  · calc
      a * b ≤ 65535 * 65535 := mul_le_mul (by omega) (by omega) hb.1 (by omega)
      _ = 4294836225 := by norm_num

theorem half_digits {x : Int} (hx : 0 ≤ x ∧ x < 4294967296) :
    ∃ xl xh, land x halfDigitMask = xl ∧ x >>> halfDigitBits = xh ∧ (0 ≤ xl ∧ xl < 65536) ∧
      (0 ≤ xh ∧ xh < 65536) ∧ x = xl + 65536 * xh := by
  refine ⟨x % 65536, x / 65536, land_mask x 16, shiftRight_eq_div_pow x 16, ?_, ?_, ?_⟩ <;> omega

theorem mulBody_spec {md ad : Ref} {x d : Int} (hx : 0 ≤ x ∧ x < 4294967296)
    (hd : 0 ≤ d ∧ d < 4294967296) (ha : 0 ≤ a ∧ a < 4294967296) (hc : 0 ≤ c ∧ c < 4294967296)
    (hmd : readDigit h md (i + k) = some d) (had : readDigit h ad (j + k) = some a) :
    mulBody (Int.land x halfDigitMask) (x >>> halfDigitBits) md i ad j h k c =
      some ((c + (x * d + a)) % digitBase, (c + (x * d + a)) / digitBase) := by
  obtain ⟨xl, xh, hxl, hxh, hxlb, hxhb, hxeq⟩ := half_digits hx
  obtain ⟨dl, dh, hdl, hdh, hdlb, hdhb, hdeq⟩ := half_digits hd
  have hp1 := mul_bound hxhb hdlb
  have hp2 := mul_bound hdhb hxlb
  have hp3 := mul_bound hxlb hdlb
  have hp4 := mul_bound hxhb hdhb
  have hphl : Int.land (xh * dl + dh * xl) halfDigitMask = (xh * dl + dh * xl) % 65536 :=
    land_mask _ 16
  have hphh : (xh * dl + dh * xl) >>> halfDigitBits = (xh * dl + dh * xl) / 65536 :=
    Int.shiftRight_eq_div_pow _ 16
  have hprod : x * d = xl * dl + 65536 * (xh * dl + dh * xl) + 4294967296 * (xh * dh) := by
    rw [hxeq, hdeq]
    ring
  rw [mulBody, hmd, had, hxl, hxh]
  simp only [some_bind, hdl, hdh]
  rw [wrap_of_bounds (n := xh * dl) (by omega) (by omega),
    wrap_of_bounds (n := dh * xl) (by omega) (by omega),
    wrap_of_bounds (n := xh * dl + dh * xl) (by omega) (by omega),
    wrap_of_bounds (n := xl * dl) (by omega) (by omega),
    wrap_of_bounds (n := xh * dh) (by omega) (by omega), hphl, hphh, Int.shiftLeft_eq]
  have hpow : (2 : Int) ^ halfDigitBits = 65536 := by norm_num
  have hph : 0 ≤ xh * dl + dh * xl ∧ xh * dl + dh * xl ≤ 8589672450 := by omega
  rw [hpow, hprod]
  clear hphl hphh hp1 hp2 hprod
  generalize xh * dl + dh * xl = ph at *
  generalize xl * dl = p at *
  generalize xh * dh = q at *
  rw [wrap_of_bounds (n := ph % 65536 * 65536) (by omega) (by omega),
    wrap_of_bounds (n := p + ph % 65536 * 65536) (by omega) (by omega),
    wrap_of_bounds (n := p + ph % 65536 * 65536 + a) (by omega) (by omega),
    wrap_of_bounds (n := p + ph % 65536 * 65536 + a + c) (by omega) (by omega), shiftRight_digit]
  have hdigit : Int.land (p + ph % 65536 * 65536 + a + c) digitMask =
      (p + ph % 65536 * 65536 + a + c) % 4294967296 := land_mask _ 32
  rw [hdigit, base_eq, wrap_of_bounds (n := _ / 4294967296 + ph / 65536) (by omega) (by omega),
    wrap_of_bounds (by omega) (by omega)]
  congr 2 <;> omega

theorem product_carries {t : Nat → Int}
    (ht : ∀ m < n, 0 ≤ t m ∧ t m ≤ 4294967295 * 4294967295 + 4294967295) :
    ∀ m ≤ n, 0 ≤ carries t 0 m ∧ carries t 0 m < 4294967296 := by
  intro m hm
  induction m with
  | zero => exact ⟨le_refl 0, by simp [carries]⟩
  | succ m ih =>
    have hterm := ht m (by omega)
    simp only [carries, base_eq]
    omega

/-- The last carry is stored in a digit that was zero. -/
theorem carryLoop_spec (hj : j < R.length) (hzero : digit R j = 0) (hc : 0 ≤ c ∧ c < 4294967296) :
    ∃ R', carryLoop h.length (R.length - j) j c (h ++ [R]) = some (h ++ [R']) ∧
      R'.length = R.length ∧ (digit R' j : Int) = c ∧ ∀ k, k ≠ j → digit R' k = digit R k := by
  obtain ⟨fuel, hfuel⟩ : ∃ fuel, R.length - j = fuel + 1 := ⟨R.length - j - 1, by omega⟩
  rw [hfuel, carryLoop]
  by_cases hc0 : c = 0
  · rw [if_pos hc0]
    exact ⟨R, rfl, rfl, by rw [hzero, hc0]; rfl, fun _ _ => rfl⟩
  have hread : readDigit (h ++ [R]) h.length j = some 0 := by
    rw [readDigit_of (getElem?_snoc_last h R) hj, hzero]
    rfl
  have hdigit : (land c digitMask % digitBase).toNat = c.toNat := by
    rw [digit_of_land, base_eq, emod_eq_of_lt hc.1 hc.2]
  have hdone : c >>> digitBits = 0 := by
    rw [shiftRight_digit, base_eq]
    omega
  refine ⟨R.set j c.toNat, ?_, length_set, ?_, fun k hk => digit_set_ne (Ne.symm hk) _⟩
  · rw [if_neg hc0, hread]
    simp only [some_bind]
    rw [zero_add, wrap_of_bounds (by omega) (by omega), writeDigit_snoc h hj, hdigit, hdone]
    cases fuel <;> rfl
  · rw [digit_set_self hj, toNat_of_nonneg hc.1]

theorem mulAdd_spec (hx : Normal h x) (hy : Normal h y)
    (hi : i < y.used) (hn : i + x.used < n) (hR : Fills n R (i + x.used) m) :
    ∃ R', mulAdd (h ++ [R]) y.digits i x.digits 0 h.length i x.used = some (1, h ++ [R']) ∧
      Fills n R' (i + x.used + 1) (m + digitOf h y i * digitBase ^ i * magnitude h x) := by
  have hlength := hR.length
  have habove := hR.above
  rw [mulAdd, hy.read hi R]
  simp only [some_bind]
  by_cases hzero : digitOf h y i = 0
  · refine ⟨R, by rw [hzero]; rfl, hlength, fun j _ => hR.digit_lt j,
      fun j hj => habove j (by omega), ?_⟩
    rw [digitSum_succ, habove _ (le_refl _), hR.sum, hzero]
    ring
  rw [if_neg (by exact_mod_cast hzero)]
  have hyi := hy.small_int i
  have hRint : ∀ j, 0 ≤ (digit R j : Int) ∧ (digit R j : Int) < 4294967296 := by
    intro j
    have := hR.digit_lt j
    rw [← base_eq]
    omega
  let t : Nat → Int := fun m =>
    (digitOf h y i : Int) * digitOf h x m + digit R (i + m)
  have ht : ∀ m < x.used, 0 ≤ t m ∧ t m ≤ 4294967295 * 4294967295 + 4294967295 := by
    intro m _
    have hxm := hx.small_int m
    have hRm := hRint (i + m)
    have hprod : (digitOf h y i : Int) * digitOf h x m ≤ 4294967295 * 4294967295 :=
      mul_le_mul (by omega) (by omega) hxm.1 (by omega)
    have hnonneg : 0 ≤ (digitOf h y i : Int) * digitOf h x m :=
      mul_nonneg hyi.1 hxm.1
    simp only [t]
    omega
  have hcarries := product_carries ht
  obtain ⟨R₁, hloop, hsame, hout, hsmall, hsum⟩ := carry_segment
    (mulBody (land (digitOf h y i) halfDigitMask)
      ((digitOf h y i : Int) >>> halfDigitBits) x.digits 0 h.length i) (fun k => i + k) t
    (fun m => (carries t 0 m + t m) % digitBase) 0 (fun m _ => by rw [zero_add])
    (show i + x.used ≤ R.length by omega) (fun m _ => emod_emod _ _)
    (fun m hm R' hR' => by
      -- the accumulator's digit has not been written yet
      have hacc : digit R' (i + (0 + m)) = digit R (i + m) := by
        rw [zero_add]
        exact hR'.2 (i + m) fun l hl => show i + (0 + l) ≠ i + m by omega
      have hread : readDigit (h ++ [R']) h.length (i + (0 + m)) = some (digit R (i + m) : Int) := by
        rw [readDigit_of (getElem?_snoc_last h R') (by rw [hR'.1]; omega), hacc]
      have hbody := mulBody_spec (i := 0) (k := 0 + m) hyi (hx.small_int m) (hRint (i + m))
        (hcarries m (by omega))
        (by rw [zero_add, zero_add]; exact hx.read hm R') hread
      exact hbody)
  have hcarry := hcarries x.used (le_refl _)
  obtain ⟨R₂, hlast, hsame₂, hdigit, hrest⟩ := carryLoop_spec (h := h) (R := R₁) (j := i + x.used)
    (by omega) (by rw [hout _ (Or.inr (le_refl _)), habove _ (le_refl _)]) hcarry
  refine ⟨R₂, ?_, by rw [hsame₂, hsame, hlength], ?_, ?_, ?_⟩
  · rw [hloop]
    simp only [some_bind]
    rw [getElem?_snoc_last, some_bind, hlast]
    rfl
  · intro j _
    by_cases hj : j = i + x.used
    · have := base_eq
      rw [hj]
      omega
    · rw [hrest j hj]
      by_cases hin : i ≤ j ∧ j < i + x.used
      · exact hsmall j hin.1 hin.2
      · rw [hout j (by omega)]
        exact hR.digit_lt j
  · intro j hj
    rw [hrest j (by omega), hout j (by omega), habove j (by omega)]
  · have hlow : digitSum digitBase (digit R₂) i = digitSum digitBase (digit R) i :=
      digitSum_congr fun k hk => by rw [hrest k (by omega), hout k (by omega)]
    have hmid : digitSum digitBase (fun m => digit R₂ (i + m)) x.used =
        digitSum digitBase (fun m => digit R₁ (i + m)) x.used :=
      digitSum_congr fun k hk => hrest _ (by omega)
    have hterms : ∑ m ∈ range x.used, t m * (digitBase : Int) ^ m =
        (digitOf h y i : Int) * magnitude h x +
          digitSum digitBase (fun m => digit R (i + m)) x.used := by
      rw [magnitude, cast_digitSum, cast_digitSum, mul_sum, ← sum_add_distrib]
      exact sum_congr rfl fun m _ => by simp only [t]; ring
    rw [hterms] at hsum
    rw [digitSum_succ, ← hR.sum, digitSum_add, digitSum_add, hlow, hmid]
    zify
    rw [hdigit]
    linear_combination (digitBase : Int) ^ i * hsum

theorem mulLoop_spec {l : Nat} (hx : Normal h x) (hy : Normal h y) (hn : i + n = y.used)
    (hl : x.used + y.used ≤ l)
    (hR : Fills l R (i + x.used) (magnitude h x * digitSum digitBase (digitOf h y) i)) :
    ∃ R', mulLoop x.digits x.used y.digits y.used h.length n i (h ++ [R]) = some (h ++ [R']) ∧
      Fills l R' (x.used + y.used) (magnitude h x * magnitude h y) := by
  induction n generalizing i R with
  | zero =>
    obtain rfl : i = y.used := by omega
    rw [add_comm] at hR
    exact ⟨R, by rw [mulLoop, if_neg (lt_irrefl _)], hR⟩
  | succ n ih =>
    obtain ⟨R₁, hrow, hR₁⟩ := mulAdd_spec hx hy (show i < y.used by omega) (by omega) hR
    obtain ⟨R₂, hloop, hR₂⟩ := ih (i := i + 1) (R := R₁) (by omega) (by
      rw [add_right_comm, digitSum_succ]
      convert hR₁ using 1
      ring)
    refine ⟨R₂, ?_, hR₂⟩
    rw [mulLoop, if_pos (by omega), hrow]
    exact hloop

theorem mul_yields (hp : Prepared h) (hx : Normal h x) (hy : Normal h y) :
    Yields h (magnitude h x * magnitude h y) (x.isNegative != y.isNegative) (x.mul y h) := by
  rw [mul]
  by_cases hzero : x.used = 0 ∨ y.used = 0
  · rw [if_pos hzero]
    have hprod : magnitude h x * magnitude h y = 0 := by
      rcases hzero with hx0 | hy0
      · rw [magnitude_of_used hx0, zero_mul]
      · rw [magnitude_of_used hy0, mul_zero]
    rw [hprod]
    exact yields_zero hp _
  rw [if_neg hzero]
  refine yields_of_fill _ (fun h' => mulLoop x.digits x.used y.digits y.used h.length y.used 0 h')
    (le_refl _) (mulLoop_spec hx hy (zero_add _) (by omega) ⟨length_replicate, ?_, ?_, ?_⟩)
  · intro j _
    rw [digit_replicate]
    exact base_pos
  · exact fun j _ => digit_replicate _ j
  · rw [digitSum_zero, mul_zero]
    exact digitSum_of_zero fun k _ => digit_replicate _ k

/-! ## Operators -/

/-- A step has made a big integer that denotes an integer. -/
def Returns (h : Heap) (v : Int) (o : Result) : Prop :=
  ∃ r h', o = some (r, h') ∧ h <+: h' ∧ Normal h' r ∧ toInt h' r = v

def signedInt (isNegative : Bool) (m : Nat) : Int := if isNegative then -(m : Int) else m

variable {o : Result}

theorem Yields.returns (ho : Yields h m isNegative o) : Returns h (signedInt isNegative m) o := by
  obtain ⟨r, h', hr, hh, hnormal, rfl, hsign⟩ := ho
  refine ⟨r, h', hr, hh, hnormal, ?_⟩
  by_cases hzero : magnitude h' r = 0
  · simp [toInt, signedInt, hzero]
  · rw [toInt, hsign hzero, signedInt]

theorem returns_self (hx : Normal h x) : Returns h (toInt h x) (some (x, h)) :=
  ⟨x, h, rfl, prefix_rfl, hx, rfl⟩

theorem Yields.mono {h h' : Heap} (hh : h <+: h')
    (ho : Yields h' m isNegative o) : Yields h m isNegative o := by
  obtain ⟨r, h'', hr, hh', hrest⟩ := ho
  exact ⟨r, h'', hr, hh.trans hh', hrest⟩

theorem Returns.mono {h h' : Heap} (hh : h <+: h') {v : Int}
    (ho : Returns h' v o) : Returns h v o := by
  obtain ⟨r, h'', hr, hh', hrest⟩ := ho
  exact ⟨r, h'', hr, hh.trans hh', hrest⟩

theorem Yields.bind {m' : Nat} {isNegative' : Bool} (ho : Yields h m isNegative o)
    {next : BigInt × Heap → Result} (hnext : ∀ r h', h <+: h' → Normal h' r → magnitude h' r = m →
      Yields h' m' isNegative' (next (r, h'))) : Yields h m' isNegative' (o.bind next) := by
  obtain ⟨r, h', rfl, hh, hnormal, hmag, -⟩ := ho
  exact (hnext r h' hh hnormal hmag).mono hh

theorem toInt_of_isZero (hx : x.isZero = true) : toInt h x = 0 := by
  have hused : x.used = 0 := by simpa [isZero] using hx
  simp [toInt, magnitude_of_used hused]

/-- The operators of the two integers that treat zeros apart; zero on the right changes nothing. -/
theorem returns_unless_zero {f : Int → Int → Int} {first rest : Result}
    (hx : Normal h x) (hfirst : Returns h (f 0 (toInt h y)) first)
    (hzero : f (toInt h x) 0 = toInt h x) (hrest : Returns h (f (toInt h x) (toInt h y)) rest) :
    Returns h (f (toInt h x) (toInt h y))
      (if x.isZero then first else if y.isZero then some (x, h) else rest) := by
  split
  case isTrue hx0 => rwa [toInt_of_isZero hx0]
  split
  case isTrue hy0 =>
    rw [toInt_of_isZero hy0, hzero]
    exact returns_self hx
  case isFalse => exact hrest

theorem neg_returns (hx : Normal h x) : Returns h (-toInt h x) (some (x.neg, h)) := by
  refine ⟨x.neg, h, rfl, prefix_rfl, hx.neg, ?_⟩
  rw [toInt, toInt, magnitude_neg]
  by_cases hzero : x.used = 0
  · simp [magnitude_of_used hzero]
  · rw [isNegative_neg hzero]
    cases x.isNegative <;> simp

section

variable (hp : Prepared h) (hx : Normal h x) (hy : Normal h y)
include hp hx hy

theorem subMagnitudes_returns :
    Returns h (if x.isNegative then (magnitude h y : Int) - magnitude h x
      else (magnitude h x : Int) - magnitude h y) (subMagnitudes x y h) := by
  obtain ⟨result, hresult, hless, hequal, hgreater⟩ := absCompare_spec hx hy
  rw [subMagnitudes, hresult]
  simp only [some_bind]
  by_cases hge : result ≥ 0
  · rw [if_pos hge]
    have hle : magnitude h y ≤ magnitude h x := by omega
    have hreturns := (absSubSetSign_yields hp hx hy hle x.isNegative).returns
    convert hreturns using 1
    cases x.isNegative <;> simp only [signedInt, Bool.false_eq_true, if_false, if_true] <;> omega
  · rw [if_neg hge]
    have hle : magnitude h x ≤ magnitude h y := by omega
    have hreturns := (absSubSetSign_yields hp hy hx hle (!x.isNegative)).returns
    convert hreturns using 1
    cases x.isNegative <;>
      simp only [signedInt, Bool.not_false, Bool.not_true, Bool.false_eq_true, if_false,
        if_true] <;>
      omega

theorem add_returns : Returns h (toInt h x + toInt h y) (x.add y h) := by
  rw [add]
  refine returns_unless_zero hx ?_ (add_zero _) ?_
  · rw [zero_add]
    exact returns_self hy
  by_cases hsign : x.isNegative = y.isNegative
  · rw [if_pos hsign]
    convert (absAddSetSign_yields hp hx hy x.isNegative).returns using 1
    rw [toInt, toInt, ← hsign]
    cases x.isNegative <;> simp only [signedInt, Bool.false_eq_true, if_false, if_true] <;> omega
  · rw [if_neg hsign]
    convert subMagnitudes_returns hp hx hy using 1
    rw [toInt, toInt]
    cases hxn : x.isNegative <;> cases hyn : y.isNegative <;>
      simp only [hxn, hyn, not_true_eq_false] at hsign ⊢ <;>
      simp only [Bool.false_eq_true, if_false, if_true] <;> omega

theorem sub_returns : Returns h (toInt h x - toInt h y) (x.sub y h) := by
  rw [sub]
  refine returns_unless_zero hx ?_ (sub_zero _) ?_
  · rw [zero_sub]
    exact neg_returns hy
  by_cases hsign : x.isNegative ≠ y.isNegative
  · rw [if_pos hsign]
    convert (absAddSetSign_yields hp hx hy x.isNegative).returns using 1
    rw [toInt, toInt]
    cases hxn : x.isNegative <;> cases hyn : y.isNegative <;>
      simp only [hxn, hyn, ne_eq, not_true_eq_false] at hsign ⊢ <;>
      simp only [signedInt, Bool.false_eq_true, if_false, if_true] <;> omega
  · rw [if_neg hsign]
    convert subMagnitudes_returns hp hx hy using 1
    rw [toInt, toInt, ← not_not.1 hsign]
    split
    · omega
    · rfl

theorem mul_returns : Returns h (toInt h x * toInt h y) (x.mul y h) := by
  convert (mul_yields hp hx hy).returns using 1
  rw [toInt, toInt]
  cases x.isNegative <;> cases y.isNegative <;> simp [signedInt]

end

end Dart2Wasm.BigIntImpl
