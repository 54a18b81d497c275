import Dart2Wasm.Lib.MachineInt
import Dart2Wasm.Lib.Run

/-!
# Integer — the arithmetic of `int`

A Dart `int` is a 64-bit integer: sums, differences and products wrap around, and `~/` is the
truncating division of the machine. `int.dart` builds the other operations from these; the model
follows it, and the lemmas say which integer operation each one is.
-/

namespace Dart2Wasm.Integer

open Lib.MachineInt Int
open Int64 hiding mul_one one_mul

/-- `_BoxedInt._modulo`, the operator `%` -/
def modulo (a b : Int64) : Int64 :=
  let rem := a - (a / b) * b
  if rem < 0 then
    if b < 0 then rem - b else rem + b
  else rem

def remainder (a b : Int64) : Int64 := a - (a / b) * b

/-- `_BoxedInt.abs`: the least integer has no absolute value and stays as it is. -/
def abs (a : Int64) : Int64 := if a < 0 then -a else a

def isEven (a : Int64) : Bool := a &&& 1 == 0

def isOdd (a : Int64) : Bool := a &&& 1 != 0

variable {a b : Int64}

theorem remainder_toInt (hb : 0 < b.toInt) : (remainder a b).toInt = a.toInt.tmod b.toInt := by
  have hdiv : (a / b).toInt = a.toInt.tdiv b.toInt := toInt_div_of_pos hb
  have hexact : a.toInt - a.toInt.tdiv b.toInt * b.toInt = a.toInt.tmod b.toInt := by
    have := mul_tdiv_add_tmod a.toInt b.toInt
    rw [mul_comm] at this
    omega
  -- only the final difference has to stay in range: the product may be wrapped in between
  have hwrap : remainder a b = ofInt (a.toInt.tmod b.toInt) := by
    rw [← hexact, ofInt_sub, ofInt_mul, ofInt_toInt, ← hdiv, ofInt_toInt, ofInt_toInt, remainder]
  have hlt := tmod_lt_of_pos a.toInt hb
  have hgt := lt_tmod_of_pos a.toInt hb
  have hmax := toInt_lt b
  rw [hwrap, toInt_ofInt_of_le]
  · omega
  · omega

theorem modulo_toInt (hb : 0 < b.toInt) : (modulo a b).toInt = a.toInt % b.toInt := by
  have hrem : (a - (a / b) * b).toInt = a.toInt.tmod b.toInt := remainder_toInt hb
  have hlt := tmod_lt_of_pos a.toInt hb
  have hgt := lt_tmod_of_pos a.toInt hb
  have hmax := toInt_lt b
  have hneg : ¬ b < 0 := by
    rw [lt_iff_toInt_lt]
    exact not_lt.2 (le_of_lt hb)
  have hmod : (a.toInt.tmod b.toInt) % b.toInt = a.toInt % b.toInt := by
    rw [tmod_def, sub_mul_emod_self_left]
  by_cases hsign : a - (a / b) * b < 0
  · have hsign' : a.toInt.tmod b.toInt < 0 := by
      rw [← hrem]
      exact lt_iff_toInt_lt.1 hsign
    rw [modulo, if_pos hsign, if_neg hneg, toInt_add_eq hrem rfl (by omega), ← hmod,
      ← add_emod_right (a.toInt.tmod b.toInt), emod_eq_of_lt]
    · omega
    · omega
  · have hsign' : 0 ≤ a.toInt.tmod b.toInt := by
      rw [← hrem]
      exact not_lt.1 fun h => hsign (lt_iff_toInt_lt.2 h)
    rw [modulo, if_neg hsign, hrem, ← hmod, emod_eq_of_lt hsign' hlt]

theorem abs_toInt (ha : -2 ^ 63 < a.toInt) : (abs a).toInt = a.toInt.natAbs := by
  by_cases hneg : a < 0
  · have hneg' : a.toInt < 0 := lt_iff_toInt_lt.1 hneg
    rw [abs, if_pos hneg, toInt_neg_of_bounds ha]
    omega
  · have hneg' : 0 ≤ a.toInt := not_lt.1 fun h => hneg (lt_iff_toInt_lt.2 h)
    rw [abs, if_neg hneg]
    omega

theorem shiftRight_one_toInt (a : Int64) : (a >>> 1).toInt = a.toInt / 2 := by
  rw [← Int64.toInt_toBitVec, Int64.toBitVec_shiftRight]
  exact BitVec.toInt_sshiftRight.trans (shiftRight_eq_div_pow a.toInt 1)

theorem isEven_iff : isEven a = true ↔ a.toInt % 2 = 0 := by
  have hbits : (a &&& 1).toBitVec.toNat = a.toBitVec.toNat % 2 := by
    rw [Int64.toBitVec_and, BitVec.toNat_and]
    exact Nat.and_one_is_mod _
  rw [isEven, beq_iff_eq, ← toBitVec_inj, ← BitVec.toNat_inj, hbits, ← toInt_toBitVec,
    BitVec.toInt_eq_toNat_cond]
  show _ = 0 ↔ _
  split <;> omega

theorem isOdd_eq : isOdd a = !isEven a := rfl

/-! ## Modular powers -/

inductive Failure
  -- `RangeError.range` without an upper limit
  | rangeError (value minValue : Int64) (name : String)
  -- only of a multiplication that checks its result
  | overflow
  deriving DecidableEq

/-- The multiplication of the machine. -/
def wrappingMul (a b : Int64) : Except Failure Int64 := .ok (a * b)

def checkedMul (a b : Int64) : Except Failure Int64 :=
  if (a * b).toInt = a.toInt * b.toInt then .ok (a * b) else .error .overflow

section ModPow

variable (mul : Int64 → Int64 → Except Failure Int64) (m : Int64)

def modPowLoop (b e r : Int64) : Except Failure Int64 :=
  if 0 < e then do
    let r ← (if isOdd e then (modulo · m) <$> mul r b else .ok r)
    let square ← mul b b
    modPowLoop (modulo square m) (e >>> 1) r
  else .ok r
  termination_by e.toInt.toNat
  decreasing_by
    have hpos : 0 < e.toInt := Int64.lt_iff_toInt_lt.1 ‹0 < e›
    rw [shiftRight_one_toInt]
    omega

/-- `_BoxedInt.modPow`, with `bigModPow` for the computation by `BigInt` -/
def modPow (bigModPow : Int64 → Int64 → Int64 → Int64) (b e : Int64) : Except Failure Int64 :=
  if e < 0 then .error (.rangeError e 0 "exponent")
  else if m ≤ 0 then .error (.rangeError m 1 "modulus")
  else if e = 0 then .ok 1
  else if 3037000499 < m then .ok (bigModPow b e m)
  else modPowLoop mul m (if b < 0 || m < b then modulo b m else b) e 1

variable {mul m} (hmul : mul = wrappingMul ∨ mul = checkedMul) (hm : 0 < m.toInt)
  (hmax : m.toInt ≤ 3037000499)

include hmul hm hmax

/-- Numbers up to the modulus can be multiplied: their product is in range. -/
theorem mul_modulo {x y : Int64} (hx : 0 ≤ x.toInt ∧ x.toInt ≤ m.toInt)
    (hy : 0 ≤ y.toInt ∧ y.toInt ≤ m.toInt) :
    ∃ p, mul x y = .ok p ∧ (modulo p m).toInt = x.toInt * y.toInt % m.toInt := by
  have hle : x.toInt * y.toInt ≤ 3037000499 * 3037000499 :=
    mul_le_mul (by omega) (by omega) hy.1 (by decide)
  have hnonneg := mul_nonneg hx.1 hy.1
  have hexact : (x * y).toInt = x.toInt * y.toInt := toInt_mul_eq rfl rfl (by omega)
  refine ⟨x * y, ?_, by rw [modulo_toInt hm, hexact]⟩
  rcases hmul with rfl | rfl
  · rfl
  · rw [checkedMul, if_pos hexact]

/-- `r * b ^ e` keeps its remainder. -/
theorem modPowLoop_eq (b e r : Int64) (he : 0 ≤ e.toInt) (hb : 0 ≤ b.toInt ∧ b.toInt ≤ m.toInt)
    (hr : 0 ≤ r.toInt ∧ r.toInt ≤ m.toInt) (hlt : r.toInt < m.toInt ∨ 0 < e.toInt) :
    ∃ r', modPowLoop mul m b e r = .ok r' ∧
      r'.toInt = r.toInt * b.toInt ^ e.toInt.toNat % m.toInt := by
  fun_induction modPowLoop mul m b e r with
  | case1 b e r hpos ih =>
    have hpos' : 0 < e.toInt := lt_iff_toInt_lt.1 hpos
    have hhalf : (e >>> 1).toInt = e.toInt / 2 := shiftRight_one_toInt e
    have hm0 : m.toInt ≠ 0 := ne_of_gt hm
    obtain ⟨square, hsquare, hvalue⟩ := mul_modulo hmul hm hmax hb hb
    have hb' : 0 ≤ (modulo square m).toInt ∧ (modulo square m).toInt ≤ m.toInt := by
      rw [hvalue]
      exact ⟨emod_nonneg _ hm0, le_of_lt (emod_lt_of_pos _ hm)⟩
    have hpow : (b.toInt * b.toInt % m.toInt) ^ (e.toInt / 2).toNat ≡
        (b.toInt * b.toInt) ^ (e.toInt / 2).toNat [ZMOD m.toInt] := (mod_modEq _ _).pow _
    by_cases heven : isEven e = true
    · have hparity := isEven_iff.1 heven
      obtain ⟨r', hrun, hr'⟩ := ih r square (by omega) hb' hr (.inr (by omega))
      refine ⟨r', by simpa [isOdd_eq, heven, hsquare, bind, Except.bind] using hrun, ?_⟩
      rw [hr', hvalue, hhalf, show e.toInt.toNat = 2 * (e.toInt / 2).toNat by omega, pow_mul, sq]
      exact hpow.mul_left _
    · have hparity := mt isEven_iff.2 heven
      obtain ⟨p, hp, hpvalue⟩ := mul_modulo hmul hm hmax hr hb
      have hlt' := emod_lt_of_pos (r.toInt * b.toInt) hm
      obtain ⟨r', hrun, hr'⟩ := ih (modulo p m) square (by omega) hb'
        ⟨hpvalue ▸ emod_nonneg _ hm0, by omega⟩ (.inl (by omega))
      refine ⟨r', by simpa [isOdd_eq, heven, hsquare, hp, bind, Except.bind] using hrun, ?_⟩
      rw [hr', hvalue, hpvalue, hhalf,
        show e.toInt.toNat = 2 * (e.toInt / 2).toNat + 1 by omega, pow_succ', pow_mul, sq,
        ← mul_assoc]
      exact (mod_modEq _ _).mul hpow
  | case2 b e r hpos =>
    have hzero : e.toInt = 0 := by
      have hpos' : ¬ 0 < e.toInt := fun h => hpos (lt_iff_toInt_lt.2 h)
      omega
    refine ⟨r, rfl, ?_⟩
    rw [hzero, toNat_zero, pow_zero, mul_one, emod_eq_of_lt hr.1]
    omega

/-- Past the checks of its arguments, `modPow` computes the power unless the exponent is 0. -/
theorem modPow_eq (bigModPow : Int64 → Int64 → Int64 → Int64) (b : Int64) {e : Int64}
    (he : 0 ≤ e.toInt) :
    ∃ r, modPow mul m bigModPow b e = .ok r ∧
      r.toInt = if e = 0 then 1 else b.toInt ^ e.toInt.toNat % m.toInt := by
  have hnonneg : ¬ e < 0 := fun h => not_lt.2 he (Int64.lt_iff_toInt_lt.1 h)
  have hpos : ¬ m ≤ 0 := fun h => not_lt.2 (Int64.le_iff_toInt_le.1 h) hm
  have hsmall : ¬ 3037000499 < m := fun h => not_lt.2 hmax (Int64.lt_iff_toInt_lt.1 h)
  rw [modPow, if_neg hnonneg, if_neg hpos, if_neg hsmall]
  by_cases hzero : e = 0
  · exact ⟨1, if_pos hzero, (if_pos hzero).symm⟩
  rw [if_neg hzero, if_neg hzero]
  have hmod : (modulo b m).toInt = b.toInt % m.toInt := modulo_toInt hm
  have hbase : ∃ b', (if b < 0 || m < b then modulo b m else b) = b' ∧
      (0 ≤ b'.toInt ∧ b'.toInt ≤ m.toInt) ∧ b'.toInt ≡ b.toInt [ZMOD m.toInt] := by
    refine ⟨_, rfl, ?_⟩
    split
    · rw [hmod]
      exact ⟨⟨emod_nonneg _ (ne_of_gt hm), le_of_lt (emod_lt_of_pos _ hm)⟩, mod_modEq _ _⟩
    · rename_i h
      simp only [Bool.or_eq_true, decide_eq_true_eq, not_or, Int64.not_lt,
        Int64.le_iff_toInt_le] at h
      exact ⟨h, .rfl⟩
  obtain ⟨b', hb', hbounds, hcongr⟩ := hbase
  have hne : e.toInt ≠ 0 := fun h => hzero (Int64.toInt_inj.1 h)
  obtain ⟨r, hrun, hr⟩ := modPowLoop_eq hmul hm hmax b' e 1 he hbounds ⟨by decide, hm⟩
    (.inr (by omega))
  refine ⟨r, hb' ▸ hrun, hr.trans ?_⟩
  rw [Int64.toInt_one, one_mul]
  exact hcongr.pow _

omit hmul in
theorem modPow_correct_iff (bigModPow : Int64 → Int64 → Int64 → Int64) (b e : Int64)
    (he : 0 ≤ e.toInt) :
    (∃ r, modPow wrappingMul m bigModPow b e = .ok r ∧ modPow checkedMul m bigModPow b e = .ok r ∧
      0 ≤ r.toInt ∧ r.toInt < m.toInt ∧ r.toInt ≡ b.toInt ^ e.toInt.toNat [ZMOD m.toInt]) ↔
    ¬ (e = 0 ∧ m = 1) := by
  obtain ⟨r, hr, hvalue⟩ := modPow_eq (.inl rfl) hm hmax bigModPow b he
  obtain ⟨r', hr', hvalue'⟩ := modPow_eq (.inr rfl) hm hmax bigModPow b he
  obtain rfl : r = r' := toInt_inj.1 (hvalue.trans hvalue'.symm)
  by_cases hzero : e = 0
  · rw [if_pos hzero] at hvalue
    constructor
    · rintro ⟨_, h, -, -, hlt, -⟩ ⟨-, rfl⟩
      cases hr.symm.trans h
      exact absurd hlt (hvalue ▸ by decide)
    · intro h
      have hm1 : m.toInt ≠ 1 := fun hone => h ⟨hzero, toInt_inj.1 hone⟩
      refine ⟨r, hr, hr', by omega, by omega, ?_⟩
      rw [hvalue, hzero, toInt_zero, toNat_zero, pow_zero]
  · rw [if_neg hzero] at hvalue
    refine iff_of_true ⟨r, hr, hr', ?_⟩ fun h => hzero h.1
    rw [hvalue]
    exact ⟨emod_nonneg _ (ne_of_gt hm), emod_lt_of_pos _ hm, mod_modEq _ _⟩

end ModPow

theorem modPow_seven : (∃ r, modPow wrappingMul 13 (fun _ _ _ => 0) (-7) 5 = .ok r ∧
    modPow checkedMul 13 (fun _ _ _ => 0) (-7) 5 = .ok r ∧ 0 ≤ r.toInt ∧
    r.toInt < Int64.toInt 13 ∧
    r.toInt ≡ Int64.toInt (-7) ^ (Int64.toInt 5).toNat [ZMOD Int64.toInt 13]) ↔
    ¬ ((5 : Int64) = 0 ∧ (13 : Int64) = 1) :=
  modPow_correct_iff (by decide) (by decide) _ (-7) 5 (by decide)

theorem modPow_zero_one : modPow wrappingMul 1 (fun _ _ _ => 0) 5 0 = .ok 1 ∧
    ¬ Int64.toInt 1 < Int64.toInt 1 := by decide

/-! ## Greatest common divisors -/

/-- `u` with its coefficients `a` and `b`, or `v` with `c` and `d` -/
structure Row where
  value : Int64
  first : Int64
  second : Int64

theorem isEven_eq_false_iff : isEven a = false ↔ Odd a.toInt := by
  rw [← Bool.not_eq_true, isEven_iff, odd_iff]
  omega

theorem natAbs_half (h : isEven a = true) : (a >>> 1).toInt.natAbs = a.toInt.natAbs / 2 := by
  have := isEven_iff.1 h
  rw [shiftRight_one_toInt]
  omega

theorem natAbs_pos (h : a ≠ 0) : 0 < a.toInt.natAbs :=
  Int.natAbs_pos.2 fun hzero => h (toInt_inj.1 hzero)

section BinaryGcd

variable (x y : Int64)

/-- A round of `while (u.isEven)`, or of `while (v.isEven)` -/
def Row.halve (r : Row) : Row where
  value := r.value >>> 1
  first :=
    if isEven x then (if !isEven r.first || !isEven r.second then r.first + y else r.first) >>> 1
    else r.first
  second :=
    (if isEven x && !isEven r.first || !isEven r.second then r.second - x else r.second) >>> 1

def Row.sub (r r' : Row) : Row :=
  ⟨r.value - r'.value, if isEven x then r.first - r'.first else r.first, r.second - r'.second⟩

/-- The loop; it does not end at 0. -/
def halveAll (r : Row) : Option Row :=
  if r.value = 0 then none
  else if isEven r.value then halveAll (r.halve x y)
  else some r
  termination_by r.value.toInt.natAbs
  decreasing_by
    have hhalf := natAbs_half ‹isEven r.value = true›
    have hpos := natAbs_pos ‹¬ r.value = 0›
    show (r.value >>> 1).toInt.natAbs < _
    omega

/-- The `do` loop, which ends with the row of `v` -/
def gcdLoop : Nat → Row → Row → Option Row
  | 0, _, _ => none
  | fuel + 1, u, v => do
    let u ← halveAll x y u
    let v ← halveAll x y v
    let (u, v) := if v.value ≤ u.value then (u.sub x v, v) else (u, v.sub x u)
    if u.value ≠ 0 then gcdLoop fuel u v else some v

end BinaryGcd

/-- The first loop of `_binaryGcd`, and the exchange after it -/
def shiftBoth (x y s : Int64) : Option (Int64 × Int64 × Int64) :=
  if x = 0 ∧ y = 0 then none
  else if isEven x && isEven y then shiftBoth (x >>> 1) (y >>> 1) (s + 1)
  else if isOdd y then some (y, x, s)
  else some (x, y, s)
  termination_by x.toInt.natAbs + y.toInt.natAbs
  decreasing_by
    obtain ⟨hx, hy⟩ := Bool.and_eq_true_iff.1 ‹(isEven x && isEven y) = true›
    have hpos : 0 < x.toInt.natAbs ∨ 0 < y.toInt.natAbs :=
      (not_and_or.1 ‹_›).imp natAbs_pos natAbs_pos
    rw [natAbs_half hx, natAbs_half hy]
    omega

/-- `_BoxedInt._binaryGcd`; there is no result if the loops do not end, within `fuel` rounds of
the outer one. The error is the text of the exception. -/
def binaryGcd (fuel : Nat) (x y : Int64) (inv : Bool) : Option (Except String Int64) := do
  let (x, y, s) ← if inv then some (x, y, 0) else shiftBoth x y 0
  let v ← gcdLoop x y fuel ⟨x, 1, 0⟩ ⟨y, 0, 1⟩
  let d := v.second
  if !inv then some (.ok (v.value <<< s))
  else if v.value ≠ 1 then some (.error "Not coprime")
  else if d < 0 then some (.ok (if d + x < 0 then d + x + x else d + x))
  else if x < d then some (.ok (if x < d - x then d - x - x else d - x))
  else some (.ok d)

def gcd (fuel : Nat) (a b : Int64) : Option (Except String Int64) :=
  let x := abs a
  let y := abs b
  if x = 0 then some (.ok y)
  else if y = 0 then some (.ok x)
  else if x = 1 || y = 1 then some (.ok 1)
  else binaryGcd fuel x y false

/-- What is left of `i` without the factors of 2 -/
structure OddPart (i j : Int) : Prop where
  odd : Odd j
  shifted : ∃ k : Nat, i = 2 ^ k * j

section OddPart

variable {i i' j j' : Int}

theorem OddPart.gcd_left (h : OddPart i i') (hj : Odd j) : Int.gcd i j = Int.gcd i' j := by
  obtain ⟨k, rfl⟩ := h.shifted
  have htwo : Int.gcd 2 j = 1 := Int.isCoprime_iff_gcd_eq_one.1 (Int.isCoprime_two_left.2 hj)
  exact gcd_mul_right_left_of_gcd_eq_one (gcd_pow_left_of_gcd_eq_one htwo)

theorem OddPart.gcd (h : OddPart i i') (h' : OddPart j j') (hodd : Odd i ∨ Odd j) :
    Int.gcd i j = Int.gcd i' j' := by
  rcases hodd with hi | hj
  · rw [gcd_comm, h'.gcd_left hi, gcd_comm, h.gcd_left h'.odd]
  · rw [h.gcd_left hj, gcd_comm, h'.gcd_left h.odd, gcd_comm]

theorem OddPart.pos (h : OddPart i j) (hi : 0 < i) : 0 < j ∧ j ≤ i := by
  obtain ⟨k, rfl⟩ := h.shifted
  have hpow : (1 : Int) ≤ 2 ^ k := one_le_pow₀ one_le_two
  have hj := Int.pos_of_mul_pos_right hi hpow
  exact ⟨hj, le_mul_of_one_le_left (le_of_lt hj) hpow⟩

theorem OddPart.neg (h : OddPart i j) (hi : i < 0) (hdvd : i ∣ 2 ^ 63) : j = -1 := by
  obtain ⟨k, rfl⟩ := h.shifted
  have hunit := (isCoprime_two_right.2 h.odd).pow_right.isUnit_of_dvd
    ((dvd_mul_left j _).trans hdvd)
  rcases isUnit_iff.1 hunit with rfl | rfl
  · have : (0 : Int) < 2 ^ k := by positivity
    omega
  · rfl

end OddPart

section Values

variable {x y : Int64} {r r' u v w : Row} {fuel : Nat}

theorem halveAll_spec (x y : Int64) (hne : r.value.toInt ≠ 0) :
    ∃ r', halveAll x y r = some r' ∧ OddPart r.value.toInt r'.value.toInt := by
  fun_induction halveAll x y r with
  | case1 r hzero => exact absurd (congrArg toInt hzero) hne
  | case2 r hzero heven ih =>
    have hhalf : (r.halve x y).value.toInt = r.value.toInt / 2 := shiftRight_one_toInt _
    have hparity := isEven_iff.1 heven
    obtain ⟨r', hrun, hodd, k, hk⟩ := ih (by omega)
    refine ⟨r', hrun, hodd, k + 1, ?_⟩
    rw [pow_succ', mul_assoc, ← hk]
    omega
  | case3 r hzero heven =>
    exact ⟨r, rfl, isEven_eq_false_iff.1 (Bool.not_eq_true _ ▸ heven), 0, (one_mul _).symm⟩

theorem gcdLoop_pos (hu : 0 < u.value.toInt) (hv : 0 < v.value.toInt)
    (hodd : Odd u.value.toInt ∨ Odd v.value.toInt) (hfuel : u.value.toInt + v.value.toInt ≤ fuel) :
    ∃ w, gcdLoop x y fuel u v = some w ∧
      w.value.toInt = Int.gcd u.value.toInt v.value.toInt := by
  induction fuel generalizing u v with
  | zero => omega
  | succ fuel ih =>
    obtain ⟨u', hrun, hpart⟩ := halveAll_spec x y (ne_of_gt hu)
    obtain ⟨v', hrun', hpart'⟩ := halveAll_spec x y (ne_of_gt hv)
    have hpos := hpart.pos hu
    have hpos' := hpart'.pos hv
    have hmax := toInt_lt u'.value
    have hmax' := toInt_lt v'.value
    simp only [gcdLoop, hrun, hrun', Lib.some_bind]
    rw [hpart.gcd hpart' hodd]
    by_cases hge : v'.value ≤ u'.value
    · have hge' := le_iff_toInt_le.1 hge
      have hsub : (u'.sub x v').value.toInt = u'.value.toInt - v'.value.toInt :=
        toInt_sub_eq rfl rfl (by omega)
      rw [if_pos hge, ← gcd_sub_self_left, ← hsub]
      by_cases hzero : (u'.sub x v').value = 0
      · refine ⟨v', if_neg (not_not.2 hzero), ?_⟩
        rw [hzero, toInt_zero, gcd_zero_left]
        omega
      · have hne : (u'.sub x v').value.toInt ≠ 0 := fun h => hzero (toInt_inj.1 h)
        obtain ⟨w, hloop, hw⟩ := ih (u := u'.sub x v') (by omega) hpos'.1 (.inr hpart'.odd)
          (by omega)
        exact ⟨w, (if_pos hzero).trans hloop, hw⟩
    · have hlt : u'.value.toInt < v'.value.toInt :=
        Int64.lt_iff_toInt_lt.1 (Int64.not_le.1 hge)
      have hsub : (v'.sub x u').value.toInt = v'.value.toInt - u'.value.toInt :=
        toInt_sub_eq rfl rfl (by omega)
      have hne : u'.value ≠ 0 := fun h => ne_of_gt hpos.1 (congrArg toInt h)
      obtain ⟨w, hloop, hw⟩ := ih (v := v'.sub x u') hpos.1 (by omega) (.inl hpart.odd) (by omega)
      rw [if_neg hge, ← gcd_sub_self_right, ← hsub]
      exact ⟨w, (if_pos hne).trans hloop, hw⟩

/-- Once the row of `v` is negative it is -1, and it is what the loop ends with. -/
theorem gcdLoop_neg (hu : 0 < u.value.toInt ∨ u.value.toInt = -2 ^ 63) (hneg : v.value.toInt < 0)
    (hdvd : v.value.toInt ∣ 2 ^ 63) (h : gcdLoop x y fuel u v = some w) : w.value.toInt = -1 := by
  induction fuel generalizing u v with
  | zero => cases h
  | succ fuel ih =>
    obtain ⟨u', hrun, hpart⟩ := halveAll_spec x y (r := u) (by omega)
    obtain ⟨v', hrun', hpart'⟩ := halveAll_spec x y (r := v) (by omega)
    simp only [gcdLoop, hrun, hrun', Lib.some_bind] at h
    have hv' := hpart'.neg hneg hdvd
    have hu' : 0 < u'.value.toInt ∨ u'.value.toInt = -1 := by
      refine hu.imp (fun hpos => (hpart.pos hpos).1) fun hmin => hpart.neg (by omega) ?_
      rw [hmin]
      decide
    rw [if_pos (le_iff_toInt_le.2 (by omega))] at h
    have hsub : (u'.sub x v').value.toInt = (u'.value.toInt - v'.value.toInt).bmod (2 ^ 64) :=
      toInt_sub _ _
    split at h
    · rename_i hne
      have hne' : (u'.sub x v').value.toInt ≠ 0 := fun h => hne (toInt_inj.1 h)
      have hmax := toInt_lt u'.value
      rw [bmod_def] at hsub
      have hu'' : 0 < (u'.sub x v').value.toInt ∨ (u'.sub x v').value.toInt = -2 ^ 63 := by omega
      exact ih hu'' (hv' ▸ by decide) (hv' ▸ by decide) h
    · cases h
      exact hv'

theorem shiftBoth_spec (s : Int64) (hx : x.toInt ≠ 0) :
    ∃ (k : Nat) (u v : Int64), shiftBoth x y s = some (u, v, s + Int64.ofNat k) ∧ Odd u.toInt ∧
      ((x.toInt = 2 ^ k * u.toInt ∧ y.toInt = 2 ^ k * v.toInt) ∨
        (x.toInt = 2 ^ k * v.toInt ∧ y.toInt = 2 ^ k * u.toInt)) := by
  fun_induction shiftBoth x y s with
  | case1 x y s hzero => exact absurd (congrArg toInt hzero.1) hx
  | case2 x y s hzero heven ih =>
    rw [Bool.and_eq_true, isEven_iff, isEven_iff] at heven
    rw [shiftRight_one_toInt, shiftRight_one_toInt] at ih
    obtain ⟨k, u, v, hrun, hodd, hk⟩ := ih (by omega)
    refine ⟨k + 1, u, v, ?_, hodd, ?_⟩
    · rw [hrun, Nat.add_comm k, Int64.ofNat_add, ← Int64.add_assoc]
      rfl
    · rw [pow_succ', mul_assoc, mul_assoc]
      omega
  | case3 x y s hzero heven hodd =>
    rw [isOdd_eq, Bool.not_eq_true'] at hodd
    exact ⟨0, y, x, by simp, isEven_eq_false_iff.1 hodd, by simp⟩
  | case4 x y s hzero heven hodd =>
    have hx : isEven x = false := by
      rw [isOdd_eq] at hodd
      simp_all
    exact ⟨0, x, y, by simp, isEven_eq_false_iff.1 hx, by simp⟩

theorem shiftLeft_ofNat (a : Int64) {k : Nat} (hk : k < 64) :
    a <<< Int64.ofNat k = Int64.ofInt (2 ^ k * a.toInt) := by
  have hcount : ∀ k : Fin 64, ((Int64.ofNat k).toBitVec.smod 64).toNat = k := by decide
  have hpow : ∀ k : Fin 64, BitVec.twoPow 64 k = BitVec.ofInt 64 (2 ^ k.val) := by decide
  rw [← Int64.toBitVec_inj, Int64.toBitVec_shiftLeft, BitVec.shiftLeft_eq', hcount ⟨k, hk⟩,
    ← BitVec.twoPow_mul_eq_shiftLeft, hpow ⟨k, hk⟩, toBitVec_ofInt, BitVec.ofInt_mul,
    ← toInt_toBitVec, BitVec.ofInt_toInt]

theorem lt_of_pow_mul_lt {i : Int} {k n : Nat} (hpos : 0 < 2 ^ k * i) (hlt : 2 ^ k * i < 2 ^ n) :
    0 < i ∧ k < n := by
  have hpow : (0 : Int) < 2 ^ k := by positivity
  have hi : 0 < i := Int.pos_of_mul_pos_right hpos hpow
  have hle := le_mul_of_one_le_right (le_of_lt hpow) hi
  exact ⟨hi, (pow_lt_pow_iff_right₀ (one_lt_two : (1 : Int) < 2)).1 (hle.trans_lt hlt)⟩

theorem binaryGcd_pos (hx : 0 < x.toInt) (hy : 0 < y.toInt) :
    ∃ fuel, binaryGcd fuel x y false =
      some (.ok (Int64.ofInt (Int.gcd x.toInt y.toInt))) := by
  have hmax := toInt_lt x
  have hmax' := toInt_lt y
  obtain ⟨k, u, v, hshift, hodd, hk⟩ := shiftBoth_spec (y := y) 0 (Int.ne_of_gt hx)
  obtain ⟨hu, hklt⟩ := lt_of_pow_mul_lt (k := k) (i := u.toInt) (n := 64) (by omega) (by omega)
  obtain ⟨hv, -⟩ := lt_of_pow_mul_lt (k := k) (i := v.toInt) (n := 64) (by omega) (by omega)
  have hgcd : (Int.gcd x.toInt y.toInt : Int) = 2 ^ k * Int.gcd u.toInt v.toInt := by
    have hmul : (Int.gcd (2 ^ k * u.toInt) (2 ^ k * v.toInt) : Int) =
        2 ^ k * Int.gcd u.toInt v.toInt := by
      rw [Int.gcd_mul_left, Int.natAbs_pow]
      rfl
    rcases hk with ⟨h, h'⟩ | ⟨h, h'⟩
    · rw [h, h', hmul]
    · rw [h, h', Int.gcd_comm, hmul]
  obtain ⟨w, hloop, hw⟩ := gcdLoop_pos (x := u) (y := v) (u := ⟨u, 1, 0⟩) (v := ⟨v, 0, 1⟩) hu hv
    (.inl hodd) (Int.self_le_toNat _)
  refine ⟨(u.toInt + v.toInt).toNat, ?_⟩
  simp only [binaryGcd, Bool.false_eq_true, if_false, hshift, hloop, Lib.some_bind,
    Bool.not_false, if_true]
  rw [Int64.zero_add, shiftLeft_ofNat _ hklt, hw, hgcd]

/-- With the least integer as one of two operands the result is negative, if there is one. -/
theorem binaryGcd_min {n : Nat}
    (hmin : x.toInt = -2 ^ 63 ∧ 0 < y.toInt ∨ y.toInt = -2 ^ 63 ∧ 0 < x.toInt) (hn : n < 2 ^ 63) :
    binaryGcd fuel x y false ≠ some (.ok (ofInt n)) := by
  intro h
  have hmax := toInt_lt x
  have hmax' := toInt_lt y
  obtain ⟨k, u, v, hshift, hodd, hk⟩ := shiftBoth_spec (x := x) (y := y) 0 (by omega)
  simp only [binaryGcd, Bool.false_eq_true, if_false, hshift, Option.bind_eq_bind, Option.bind_some,
    Option.bind_eq_some_iff, Bool.not_false, if_true, Option.some.injEq, Except.ok.injEq] at h
  obtain ⟨w, hloop, hresult⟩ := h
  have hneg : ∀ {i : Int}, 2 ^ k * i = -2 ^ 63 → i < 0 ∧ i ∣ 2 ^ 63 := by
    intro i hi
    have hpow : (0 : Int) < 2 ^ k := by positivity
    refine ⟨neg_of_mul_neg_right (by omega) (le_of_lt hpow), -2 ^ k, ?_⟩
    rw [mul_neg, mul_comm, hi, neg_neg]
  have huv : 2 ^ k * v.toInt = -2 ^ 63 ∧ 0 < 2 ^ k * u.toInt ∧ 2 ^ k * u.toInt < 2 ^ 63 := by
    by_cases hu : 2 ^ k * u.toInt = -2 ^ 63
    · -- the other operand would be a multiple of the least integer
      have hone := OddPart.neg ⟨hodd, 0, (one_mul _).symm⟩ (hneg hu).1 (hneg hu).2
      rw [hone] at hu
      rw [show (2 : Int) ^ k = 2 ^ 63 by omega] at hk
      omega
    · omega
  obtain ⟨hv, hpos, hlt⟩ := huv
  obtain ⟨hu, hklt⟩ := lt_of_pow_mul_lt hpos hlt
  have hw : w.value.toInt = -1 := by
    refine gcdLoop_neg (.inl ?_) ?_ ?_ hloop
    · exact hu
    · exact (hneg hv).1
    · exact (hneg hv).2
  have hpow : (0 : Int) < 2 ^ k := by positivity
  have hle : (2 : Int) ^ k ≤ 2 ^ 63 := pow_le_pow_right₀ one_le_two (Nat.le_of_lt hklt)
  have hvalue := congrArg toInt hresult
  rw [Int64.zero_add, shiftLeft_ofNat _ (by omega), hw, toInt_ofInt_of_le (by omega) (by omega),
    toInt_ofInt_of_le (by omega) (by omega)] at hvalue
  omega

end Values

theorem abs_cases (a : Int64) :
    a = minValue ∧ abs a = a ∨ a ≠ minValue ∧ (abs a).toInt = a.toInt.natAbs := by
  have hle := le_toInt a
  by_cases hmin : a = minValue
  · exact .inl ⟨hmin, by rw [hmin]; decide⟩
  · refine .inr ⟨hmin, abs_toInt ?_⟩
    have hne : a.toInt ≠ -2 ^ 63 := fun h => hmin (toInt_inj.1 h)
    omega

theorem abs_eq_ofInt (a : Int64) : abs a = ofInt a.toInt.natAbs := by
  rcases abs_cases a with ⟨rfl, -⟩ | ⟨-, h⟩
  · decide
  · rw [← h, ofInt_toInt]

theorem abs_eq_iff (a : Int64) :
    (abs a = 0 ↔ a.toInt.natAbs = 0) ∧ (abs a = 1 ↔ a.toInt.natAbs = 1) := by
  rcases abs_cases a with ⟨rfl, -⟩ | ⟨-, h⟩
  · decide
  · rw [← toInt_inj, ← toInt_inj, h]
    exact ⟨ofNat_inj, ofNat_inj⟩

theorem gcd_eq (fuel : Nat) (a b : Int64) :
    gcd fuel a b =
      if 1 < a.toInt.natAbs ∧ 1 < b.toInt.natAbs then binaryGcd fuel (abs a) (abs b) false
      else some (.ok (Int64.ofInt (Int.gcd a.toInt b.toInt))) := by
  simp only [gcd, abs_eq_iff, Bool.or_eq_true, decide_eq_true_eq]
  split
  · rename_i ha
    rw [if_neg (by omega), abs_eq_ofInt, Int.gcd, ha, Nat.gcd_zero_left]
  split
  · rename_i hb
    rw [if_neg (by omega), abs_eq_ofInt, Int.gcd, hb, Nat.gcd_zero_right]
  split
  · rename_i h
    rw [if_neg (by omega), Int.gcd]
    rcases h with ha | hb
    · rw [ha, Nat.gcd_one_left]
      rfl
    · rw [hb, Nat.gcd_one_right]
      rfl
  · rw [if_pos (by omega)]

/-- The loops end with the greatest common divisor, unless the least integer, which has no absolute
value, meets another integer than 0, 1, -1 and itself. -/
theorem gcd_correct_iff (a b : Int64) :
    (∃ fuel, gcd fuel a b = some (.ok (Int64.ofInt (Int.gcd a.toInt b.toInt)))) ↔
    ¬ (1 < a.toInt.natAbs ∧ 1 < b.toInt.natAbs ∧
      Xor (a = Int64.minValue) (b = Int64.minValue)) := by
  simp only [gcd_eq, ← and_assoc]
  by_cases hlt : 1 < a.toInt.natAbs ∧ 1 < b.toInt.natAbs
  swap
  · exact iff_of_true ⟨0, if_neg hlt⟩ fun h => hlt h.1
  simp only [if_pos hlt, and_iff_right hlt]
  have hle : Int.gcd a.toInt b.toInt ≤ a.toInt.natAbs := Nat.gcd_le_left _ (by omega)
  have hle' : Int.gcd a.toInt b.toInt ≤ b.toInt.natAbs := Nat.gcd_le_right _ (by omega)
  have hmin : minValue.toInt = -2 ^ 63 := rfl
  rcases abs_cases a with ⟨rfl, hx⟩ | ⟨ha, hx⟩ <;> rcases abs_cases b with ⟨rfl, hy⟩ | ⟨hb, hy⟩
  · exact iff_of_true ⟨1, by decide +kernel⟩ (by simp)
  · refine iff_of_false ?_ (by simp [hb])
    rintro ⟨fuel, h⟩
    have hmax := toInt_lt (abs b)
    exact binaryGcd_min (.inl ⟨hx ▸ hmin, by omega⟩) (by omega) h
  · refine iff_of_false ?_ (by simp [ha])
    rintro ⟨fuel, h⟩
    have hmax := toInt_lt (abs a)
    exact binaryGcd_min (.inr ⟨hy ▸ hmin, by omega⟩) (by omega) h
  · refine iff_of_true ?_ (by simp [ha, hb])
    have hpos := binaryGcd_pos (x := abs a) (y := abs b) (by omega) (by omega)
    rw [hx, hy] at hpos
    exact hpos

theorem gcd_min_max : gcd 2 Int64.minValue Int64.maxValue = some (.ok (-1)) := by decide +kernel

end Dart2Wasm.Integer
