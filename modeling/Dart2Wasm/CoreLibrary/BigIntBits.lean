import Dart2Wasm.CoreLibrary.BigIntArithmetic

/-!
# BigIntBits — the bitwise operators

The digits of a result are computed from the digits of the operands, so its bits are computed from
the bits of the magnitudes (`digitSum_bitwise`). A negative number `-(m + 1)` has the bits that `m`
does not have; each operator rewrites its operands to magnitudes with this identity.
-/

namespace Dart2Wasm.BigIntImpl

open Lib Nat Yields

variable {x p n : BigInt} {R : List Nat} {op : Int → Int → Int} {m : Nat}

/-! ## Digitwise loops -/

/-- The digits of a magnitude; there are only zeros above the used ones. -/
def usedDigit (h : Heap) (x : BigInt) (k : Nat) : Nat :=
  if k < x.used then digitOf h x k else 0

variable {h : Heap}

theorem usedDigit_lt (hx : Normal h x) (k : Nat) : usedDigit h x k < digitBase := by
  rw [usedDigit]
  split
  · exact hx.small k
  · exact base_pos

theorem magnitude_testBit (hx : Normal h x) (i : Nat) :
    (magnitude h x).testBit i = (usedDigit h x (i / 32)).testBit (i % 32) := by
  rw [magnitude, digitBase, testBit_digitSum (by decide) (fun k _ => hx.small k), usedDigit]
  by_cases hi : i / 32 < x.used <;> simp [hi]

variable {x y x : BigInt} {f : Bool → Bool → Bool}

theorem usedDigit_min (h : Heap) {k : Nat} (hk : min x.used y.used ≤ k) :
    usedDigit h x k = 0 ∨ usedDigit h y k = 0 := by
  rw [usedDigit, usedDigit, ite_eq_right_iff, ite_eq_right_iff]
  omega

theorem digitSum_bitwise (hx : Normal h x) (hy : Normal h y) (hf : f false false = false)
    {used : Nat} (hdigits : ∀ k < used, digit R k = bitwise f (usedDigit h x k) (usedDigit h y k))
    (hrest : ∀ k, used ≤ k → bitwise f (usedDigit h x k) (usedDigit h y k) = 0) :
    digitSum digitBase (digit R) used = bitwise f (magnitude h x) (magnitude h y) := by
  have hsmall : ∀ k < used, digit R k < 2 ^ 32 := by
    intro k hk
    rw [hdigits k hk]
    exact bitwise_lt_two_pow (usedDigit_lt hx k) (usedDigit_lt hy k)
  apply eq_of_testBit_eq
  intro i
  rw [testBit_bitwise hf, magnitude_testBit hx, magnitude_testBit hy, ← testBit_bitwise hf,
    digitBase, testBit_digitSum (by decide) hsmall]
  by_cases hi : i / 32 < used
  · rw [hdigits _ hi]
    simp [hi]
  · rw [hrest _ (Nat.le_of_not_lt hi)]
    simp [hi]

theorem zipDigits_spec (hx : Normal h x) (hy : Normal h y)
    (hop : ∀ a b : Nat, op a b = (bitwise f a b : Nat))
    (hmx : m ≤ x.used) (hmy : m ≤ y.used) (hlength : m ≤ R.length) :
    ∃ R', zipDigits op (h ++ [R]) x.digits y.digits h.length m = some (h ++ [R']) ∧
      R'.length = R.length ∧ (∀ j, m ≤ j → digit R' j = digit R j) ∧
      ∀ k < m, digit R' k = bitwise f (usedDigit h x k) (usedDigit h y k) := by
  obtain ⟨R', hloop, hsame, hout, hin⟩ := fill_segment (zipBody op x.digits y.digits) (h := h)
    (R := R) (fun i => i) (k := 0) (n := m)
    (fun k => bitwise f (digitOf h x k) (digitOf h y k))
    (fun k _ => bitwise_lt_two_pow (hx.small k) (hy.small k))
    (fun k hk => by omega) (fun k _ k' _ heq => by omega)
    (fun k hk R' => by
      rw [zipBody, zero_add, hx.read (by omega), hy.read (by omega)]
      simp only [some_bind, hop])
  refine ⟨R', by rw [zipDigits, hloop]; rfl, hsame, fun j hj => hout j fun k hk => by omega, ?_⟩
  intro k hk
  have hdigit := hin k hk
  rw [zero_add] at hdigit
  rw [hdigit, usedDigit, usedDigit, if_pos (by omega), if_pos (by omega)]

theorem copyDigits_spec (hx : Normal h x) (hm : m ≤ x.used) (hlength : x.used ≤ R.length) :
    ∃ R', copyDigits (h ++ [R]) x.digits h.length m x.used = some (h ++ [R']) ∧
      R'.length = R.length ∧ (∀ j, j < m ∨ x.used ≤ j → digit R' j = digit R j) ∧
      ∀ k, m ≤ k → k < x.used → digit R' k = usedDigit h x k := by
  obtain ⟨R', hloop, hsame, hout, hin⟩ := fill_segment (copyBody x.digits (fun i => i)) (h := h)
    (R := R) (fun i => i) (k := m) (n := x.used - m) (fun k => digitOf h x (m + k))
    (fun k _ => hx.small _) (fun k hk => by omega) (fun k _ k' _ heq => by omega)
    (fun k hk R' => by
      rw [copyBody, hx.read (by omega)]
      rfl)
  refine ⟨R', by rw [copyDigits, hloop]; rfl, hsame, fun j hj => hout j fun k hk => by omega, ?_⟩
  intro k hlow hhigh
  have hdigit := hin (k - m) (by omega)
  rw [show m + (k - m) = k by omega] at hdigit
  rw [hdigit, usedDigit, if_pos hhigh]

/-- The common digits are combined and the rest of one operand is copied. -/
theorem zipCopy_spec {y l : BigInt} {n : Nat} (hx : Normal h x) (hy : Normal h y)
    (hl : Normal h l) (op : Int → Int → Int) (hop : ∀ a b : Nat, op a b = (bitwise f a b : Nat))
    (hmx : m ≤ x.used) (hmy : m ≤ y.used) (hml : m ≤ l.used) (hn : l.used ≤ n)
    (hrest : ∀ k, m ≤ k → usedDigit h l k = bitwise f (usedDigit h x k) (usedDigit h y k))
    (hf : f false false = false) :
    ∃ R, ((zipDigits op (h ++ [List.replicate n 0]) x.digits y.digits h.length m).bind fun h' =>
        copyDigits h' l.digits h.length m l.used) = some (h ++ [R]) ∧
      Fills n R l.used (bitwise f (magnitude h x) (magnitude h y)) := by
  have hlength : (List.replicate n 0).length = n := List.length_replicate
  obtain ⟨R₁, hzip, hsame₁, hout₁, hin₁⟩ := zipDigits_spec hx hy hop hmx hmy
    (show m ≤ (List.replicate n 0).length by omega)
  obtain ⟨R₂, hcopy, hsame₂, hout₂, hin₂⟩ := copyDigits_spec hl (R := R₁) hml (by omega)
  have hdigits : ∀ k < l.used,
      digit R₂ k = bitwise f (usedDigit h x k) (usedDigit h y k) := by
    intro k hk
    by_cases hkm : k < m
    · rw [hout₂ k (Or.inl hkm), hin₁ k hkm]
    · rw [hin₂ k (by omega) hk, hrest k (by omega)]
  refine ⟨R₂, by rw [hzip, Option.bind_some, hcopy], by omega, ?_, ?_, ?_⟩
  · intro k hk
    rw [hdigits k hk]
    exact bitwise_lt_two_pow (usedDigit_lt hx k) (usedDigit_lt hy k)
  · intro k hk
    rw [hout₂ k (Or.inr hk), hout₁ k (by omega), digit_replicate]
  · refine digitSum_bitwise hx hy hf hdigits fun k hk => ?_
    rw [← hrest k (by omega), usedDigit, if_neg (by omega)]

/-! ## Operations on magnitudes -/

section

variable (hx : Normal h x) (hy : Normal h y)
include hx hy

theorem absAndSetSign_yields (isNegative : Bool) :
    Yields h (magnitude h x &&& magnitude h y) isNegative (x.absAndSetSign y isNegative h) := by
  refine yields_of_fill isNegative
    (fun h' => zipDigits Int.land h' x.digits y.digits h.length (min x.used y.used)) (le_refl _) ?_
  obtain ⟨R, hzip, hsame, hout, hin⟩ :=
    zipDigits_spec (f := and) hx hy (fun _ _ => Int.land.eq_1 _ _)
    (R := List.replicate (min x.used y.used + min x.used y.used % 2) 0)
    (min_le_left _ _) (min_le_right _ _) (by rw [List.length_replicate]; omega)
  rw [List.length_replicate] at hsame
  refine ⟨R, hzip, hsame, ?_, ?_, ?_⟩
  · intro k hk
    rw [hin k hk]
    exact bitwise_lt_two_pow (usedDigit_lt hx k) (usedDigit_lt hy k)
  · intro k hk
    rw [hout k hk, digit_replicate]
  · refine digitSum_bitwise hx hy rfl hin fun k hk => ?_
    -- one of the operands has no such digit
    rcases usedDigit_min h hk with hzero | hzero <;> simp [hzero]

theorem absAndNotSetSign_yields (isNegative : Bool) :
    Yields h (ldiff (magnitude h x) (magnitude h y)) isNegative
      (x.absAndNotSetSign y isNegative h) := by
  rw [BigInt.absAndNotSetSign]
  simp only [Option.bind_eq_bind]
  rw [← Option.bind_assoc]
  refine yields_of_fill isNegative (fun h' =>
    (zipDigits (fun a b => Int.land a (Int.lnot b)) h' x.digits y.digits h.length
      (min x.used y.used)).bind fun h' =>
        copyDigits h' x.digits h.length (min x.used y.used) x.used) (le_refl _) ?_
  refine zipCopy_spec hx hy hx _ (fun _ _ => rfl) (min_le_left _ _) (min_le_right _ _)
    (min_le_left _ _) (by omega) (fun k hk => ?_) rfl
  rcases usedDigit_min h hk with hzero | hzero <;> simp [hzero]

theorem absLongerSetSign_yields
    (hop : ∀ a b : Nat, op a b = (bitwise f a b : Nat)) (hff : f false false = false)
    (hft : f false true = true) (htf : f true false = true) (isNegative : Bool) :
    Yields h (bitwise f (magnitude h x) (magnitude h y)) isNegative
      (absLongerSetSign op x y isNegative h) := by
  have hleft : ∀ a, bitwise f a 0 = a := fun a => by simp [htf]
  have hright : ∀ b, bitwise f 0 b = b := fun b => by simp [hft]
  rw [absLongerSetSign]
  simp only [Option.bind_eq_bind]
  rw [← Option.bind_assoc]
  by_cases hlt : x.used < y.used
  · rw [if_pos hlt, max_eq_right (le_of_lt hlt)]
    refine yields_of_fill isNegative (fun h' =>
      (zipDigits op h' x.digits y.digits h.length x.used).bind fun h' =>
        copyDigits h' y.digits h.length x.used y.used) (le_refl _) ?_
    refine zipCopy_spec hx hy hy op hop (le_refl _) (le_of_lt hlt) (le_of_lt hlt)
      (by omega) (fun k hk => ?_) hff
    have hzero : usedDigit h x k = 0 := if_neg (by omega)
    rw [hzero, hright]
  · rw [if_neg hlt, max_eq_left (Nat.le_of_not_lt hlt)]
    refine yields_of_fill isNegative (fun h' =>
      (zipDigits op h' x.digits y.digits h.length y.used).bind fun h' =>
        copyDigits h' x.digits h.length y.used x.used) (le_refl _) ?_
    refine zipCopy_spec hx hy hx op hop (Nat.le_of_not_lt hlt) (le_refl _) (Nat.le_of_not_lt hlt)
      (by omega) (fun k hk => ?_) hff
    have hzero : usedDigit h y k = 0 := if_neg (by omega)
    rw [hzero, hleft]

theorem absOrSetSign_yields (isNegative : Bool) :
    Yields h (magnitude h x ||| magnitude h y) isNegative (x.absOrSetSign y isNegative h) :=
  absLongerSetSign_yields hx hy (fun _ _ => rfl) rfl rfl rfl isNegative

theorem absXorSetSign_yields (isNegative : Bool) :
    Yields h (magnitude h x ^^^ magnitude h y) isNegative (x.absXorSetSign y isNegative h) :=
  absLongerSetSign_yields hx hy (fun _ _ => rfl) rfl rfl rfl isNegative

end

/-! ## Two's complement -/

theorem toInt_nonneg (hsign : x.isNegative = false) : toInt h x = Int.ofNat (magnitude h x) := by
  rw [toInt, hsign]
  rfl

theorem signedInt_succ (m : Nat) : signedInt true (m + 1) = Int.negSucc m := rfl

theorem toInt_negative (hx : Normal h x) (hsign : x.isNegative = true) :
    1 ≤ magnitude h x ∧ toInt h x = Int.negSucc (magnitude h x - 1) := by
  have hused : x.used ≠ 0 := fun hzero => by
    rw [hx.sign hzero] at hsign
    cases hsign
  have hpos : 1 ≤ magnitude h x := one_le_iff_ne_zero.2 (hx.magnitude_ne_zero.2 hused)
  refine ⟨hpos, ?_⟩
  rw [toInt, hsign, ← signedInt_succ, Nat.sub_add_cancel hpos]
  rfl

theorem pred_yields (hp : Prepared h) (hx : Normal h x)
    (hsign : x.isNegative = true) (isNegative : Bool) :
    Yields h (magnitude h x - 1) isNegative (x.absSubSetSign one isNegative h) := by
  have hle : magnitude h one ≤ magnitude h x := by
    rw [hp.magnitude_one]
    exact (toInt_negative hx hsign).1
  have hyields := absSubSetSign_yields hp hx hp.normal_one hle isNegative
  rw [hp.magnitude_one] at hyields
  exact hyields

theorem succ_yields (hp : Prepared h) (hx : Normal h x) (isNegative : Bool) :
    Yields h (magnitude h x + 1) isNegative (x.absAddSetSign one isNegative h) := by
  have hyields := absAddSetSign_yields hp hx hp.normal_one isNegative
  rw [hp.magnitude_one] at hyields
  exact hyields

variable {o : Result}

theorem Yields.succ (hp : Prepared h) (ho : Yields h m true o) :
    Yields h (m + 1) true (o.bind fun r => r.1.absAddSetSign one true r.2) := by
  refine ho.bind fun r h' hh hr hm => ?_
  rw [← hm]
  exact succ_yields (hp.mono hh) hr true

theorem Yields.complement (ho : Yields h (m + 1) true o) : Returns h (Int.negSucc m) o :=
  ho.returns

/-- Both operands are negative: the magnitudes of their complements are combined. -/
theorem complements_bind (hp : Prepared h) (hx : Normal h x)
    (hy : Normal h y) (hxn : x.isNegative = true) (hyn : y.isNegative = true)
    {isNegative : Bool} (next : BigInt → BigInt → Heap → Result)
    (hnext : ∀ x1 y1 h', Prepared h' → Normal h' x1 → Normal h' y1 →
      magnitude h' x1 = magnitude h x - 1 → magnitude h' y1 = magnitude h y - 1 →
      Yields h' m isNegative (next x1 y1 h')) :
    Yields h m isNegative ((x.absSubSetSign one true h).bind fun r =>
      (y.absSubSetSign one true r.2).bind fun r' => next r.1 r'.1 r'.2) := by
  refine (pred_yields hp hx hxn true).bind fun x1 h1 hh hx1 hmx => ?_
  refine (pred_yields (hp.mono hh) (hy.mono hh) hyn true).bind fun y1 h2 hh' hy1 hmy => ?_
  refine hnext x1 y1 h2 (hp.mono (hh.trans hh')) (hx1.mono hh') hy1 ?_ ?_
  · rw [magnitude_mono hh' hx1, hmx]
  · rw [hmy, magnitude_mono hh hy]

theorem land_zero (a : Int) : Int.land 0 a = 0 ∧ Int.land a 0 = 0 := by
  cases a <;> simp [Int.land, ldiff]

theorem lor_zero (a : Int) : Int.lor 0 a = a ∧ Int.lor a 0 = a := by
  cases a <;> simp [Int.lor, ldiff]

theorem xor_zero (a : Int) : Int.xor 0 a = a ∧ Int.xor a 0 = a := by
  cases a <;> simp [Int.xor]

/-- Every operator distinguishes the signs of its operands; `mixed` is given the positive one
first. -/
theorem returns_of_signs {f : Int → Int → Int} {negative positive : Result}
    (mixed : BigInt → BigInt → Result) (hx : Normal h x) (hy : Normal h y)
    (hneg : x.isNegative = true → y.isNegative = true →
      Returns h (f (.negSucc (magnitude h x - 1)) (.negSucc (magnitude h y - 1))) negative)
    (hpos : Returns h (f (.ofNat (magnitude h x)) (.ofNat (magnitude h y))) positive)
    (hright : y.isNegative = true →
      Returns h (f (.ofNat (magnitude h x)) (.negSucc (magnitude h y - 1))) (mixed x y))
    (hleft : x.isNegative = true →
      Returns h (f (.negSucc (magnitude h x - 1)) (.ofNat (magnitude h y))) (mixed y x)) :
    Returns h (f (toInt h x) (toInt h y))
      (if x.isNegative = y.isNegative then if x.isNegative then negative else positive
      else mixed (signed x y).1 (signed x y).2) := by
  cases hxn : x.isNegative with
  | false =>
    rw [toInt_nonneg hxn, signed, hxn]
    cases hyn : y.isNegative with
    | false =>
      rw [toInt_nonneg hyn]
      exact hpos
    | true =>
      rw [(toInt_negative hy hyn).2]
      exact hright hyn
  | true =>
    rw [(toInt_negative hx hxn).2, signed, hxn]
    cases hyn : y.isNegative with
    | false =>
      rw [toInt_nonneg hyn]
      exact hleft hxn
    | true =>
      rw [(toInt_negative hy hyn).2]
      exact hneg hxn hyn

section

variable (hp : Prepared h)
include hp

theorem andMixed_returns (hpn : Normal h p) (hn : Normal h n) (hneg : n.isNegative = true) :
    Returns h (Int.ofNat (ldiff (magnitude h p) (magnitude h n - 1)))
      ((n.absSubSetSign one false h).bind fun r => p.absAndNotSetSign r.1 false r.2) := by
  have hyields : Yields h (ldiff (magnitude h p) (magnitude h n - 1)) false
      ((n.absSubSetSign one false h).bind fun r => p.absAndNotSetSign r.1 false r.2) := by
    refine (pred_yields hp hn hneg false).bind fun n1 h' hh hn1 hm => ?_
    have hand := absAndNotSetSign_yields (hpn.mono hh) hn1 false
    rw [magnitude_mono hh hpn, hm] at hand
    exact hand
  exact hyields.returns

theorem and_returns (hx : Normal h x)
    (hy : Normal h y) : Returns h (Int.land (toInt h x) (toInt h y)) (x.and y h) := by
  rw [BigInt.and]
  by_cases hzero : (x.isZero || y.isZero) = true
  · rw [if_pos hzero]
    have hland : Int.land (toInt h x) (toInt h y) = 0 := by
      rcases Bool.or_eq_true_iff.1 hzero with hx0 | hy0
      · rw [toInt_of_isZero hx0, (land_zero _).1]
      · rw [toInt_of_isZero hy0, (land_zero _).2]
    rw [hland]
    exact (yields_zero hp false).returns
  rw [if_neg hzero]
  refine returns_of_signs (fun p n => (n.absSubSetSign one false h).bind fun r =>
      p.absAndNotSetSign r.1 false r.2) hx hy (fun hxn hyn => ?_)
    (absAndSetSign_yields hx hy false).returns (andMixed_returns hp hx hy)
    (andMixed_returns hp hy hx)
  refine complement (complements_bind hp hx hy hxn hyn (fun x1 y1 h =>
    (x1.absOrSetSign y1 true h).bind fun r => r.1.absAddSetSign one true r.2) ?_)
  intro x1 y1 h' hp' hx1 hy1 hmx hmy
  have hor := absOrSetSign_yields hx1 hy1 true
  rw [hmx, hmy] at hor
  exact hor.succ hp'

theorem orMixed_returns (hpn : Normal h p) (hn : Normal h n) (hneg : n.isNegative = true) :
    Returns h (Int.negSucc (ldiff (magnitude h n - 1) (magnitude h p)))
      ((n.absSubSetSign one true h).bind fun r =>
        (r.1.absAndNotSetSign p true r.2).bind fun r' => r'.1.absAddSetSign one true r'.2) := by
  refine complement ((pred_yields hp hn hneg true).bind fun n1 h' hh hn1 hm => ?_)
  have hand := absAndNotSetSign_yields hn1 (hpn.mono hh) true
  rw [hm, magnitude_mono hh hpn] at hand
  exact hand.succ (hp.mono hh)

theorem or_returns (hx : Normal h x)
    (hy : Normal h y) : Returns h (Int.lor (toInt h x) (toInt h y)) (x.or y h) := by
  rw [BigInt.or]
  refine returns_unless_zero hx ?_ (lor_zero _).2 ?_
  · rw [(lor_zero _).1]
    exact returns_self hy
  refine returns_of_signs (fun p n => (n.absSubSetSign one true h).bind fun r =>
      (r.1.absAndNotSetSign p true r.2).bind fun r' => r'.1.absAddSetSign one true r'.2) hx hy
    (fun hxn hyn => ?_) (absOrSetSign_yields hx hy false).returns (orMixed_returns hp hx hy)
    (orMixed_returns hp hy hx)
  refine complement (complements_bind hp hx hy hxn hyn (fun x1 y1 h =>
    (x1.absAndSetSign y1 true h).bind fun r => r.1.absAddSetSign one true r.2) ?_)
  intro x1 y1 h' hp' hx1 hy1 hmx hmy
  have hand := absAndSetSign_yields hx1 hy1 true
  rw [hmx, hmy] at hand
  exact hand.succ hp'

theorem xorMixed_returns (hpn : Normal h p) (hn : Normal h n) (hneg : n.isNegative = true) :
    Returns h (Int.negSucc (magnitude h p ^^^ (magnitude h n - 1)))
      ((n.absSubSetSign one true h).bind fun r =>
        (p.absXorSetSign r.1 true r.2).bind fun r' => r'.1.absAddSetSign one true r'.2) := by
  refine complement ((pred_yields hp hn hneg true).bind fun n1 h' hh hn1 hm => ?_)
  have hxor := absXorSetSign_yields (hpn.mono hh) hn1 true
  rw [hm, magnitude_mono hh hpn] at hxor
  exact hxor.succ (hp.mono hh)

theorem xor_returns (hx : Normal h x)
    (hy : Normal h y) : Returns h (Int.xor (toInt h x) (toInt h y)) (x.xor y h) := by
  rw [BigInt.xor]
  refine returns_unless_zero hx ?_ (xor_zero _).2 ?_
  · rw [(xor_zero _).1]
    exact returns_self hy
  refine returns_of_signs (fun p n => (n.absSubSetSign one true h).bind fun r =>
      (p.absXorSetSign r.1 true r.2).bind fun r' => r'.1.absAddSetSign one true r'.2) hx hy
    (fun hxn hyn => ?_) (absXorSetSign_yields hx hy false).returns (xorMixed_returns hp hx hy)
    fun hxn => ?_
  · have hyields := complements_bind hp hx hy hxn hyn
      (m := (magnitude h x - 1) ^^^ (magnitude h y - 1))
      (fun x1 y1 h => x1.absXorSetSign y1 false h) fun x1 y1 h' hp' hx1 hy1 hmx hmy => by
        have hxor := absXorSetSign_yields hx1 hy1 false
        rw [hmx, hmy] at hxor
        exact hxor
    exact hyields.returns
  · have hcomm := xorMixed_returns hp hy hx hxn
    rw [Nat.xor_comm] at hcomm
    exact hcomm

theorem not_returns (hx : Normal h x) : Returns h (Int.lnot (toInt h x)) (x.not h) := by
  rw [BigInt.not]
  by_cases hx0 : x.isZero = true
  · have hone := neg_returns hp.normal_one
    have hvalue : -toInt h one = Int.lnot (toInt h x) := by
      rw [toInt_of_isZero hx0, toInt_nonneg rfl, hp.magnitude_one]
      rfl
    rw [if_pos hx0, ← hvalue]
    exact hone
  rw [if_neg hx0]
  by_cases hneg : x.isNegative = true
  · rw [if_pos hneg, (toInt_negative hx hneg).2]
    exact (pred_yields hp hx hneg false).returns
  · rw [if_neg hneg, toInt_nonneg (Bool.eq_false_of_not_eq_true hneg)]
    exact (succ_yields hp hx true).complement

end

end Dart2Wasm.BigIntImpl
