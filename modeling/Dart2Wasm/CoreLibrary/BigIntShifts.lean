import Dart2Wasm.CoreLibrary.BigIntBits

/-!
# BigIntShifts — the shift operators

A shift by `n` bits moves whole digits and then joins parts of neighbouring digits. A left shift
multiplies the magnitude by `2 ^ n` and a right shift divides it; for a negative number the right
shift subtracts one when a bit is lost, which is rounding down.
-/

namespace Dart2Wasm.BigIntImpl

open Lib List Nat Option

variable {b w low d k carry n i : Nat} {R : List Nat}

/-! ## Parts of digits -/

theorem two_pow_split (n : Nat) : 2 ^ n = digitBase ^ (n / 32) * 2 ^ (n % 32) := by
  rw [digitBase, ← pow_mul, ← pow_add, div_add_mod]

theorem base_split (hb : b < 32) : digitBase = 2 ^ b * 2 ^ (32 - b) := by
  rw [digitBase, ← pow_add, Nat.add_sub_cancel' (Nat.le_of_lt hb)]

theorem shiftMask (d w : Nat) : Int.land d ((1 : Int) <<< w - 1) = (d % 2 ^ w : Nat) := by
  rw [Int.shiftLeft_eq, one_mul, land_mask]
  simp

theorem shiftRight_natCast (d w : Nat) : (d : Int) >>> w = (d / 2 ^ w : Nat) := by
  rw [Int.shiftRight_eq_div_pow]
  rfl

theorem lor_parts (hlow : low < 2 ^ w) (high : Nat) :
    Int.lor (2 ^ w * high : Nat) low = (2 ^ w * high + low : Nat) := by
  rw [two_pow_add_eq_or_of_lt hlow]
  rfl

theorem lor_parts' (hlow : low < 2 ^ w) (high : Nat) :
    Int.lor low (2 ^ w * high : Nat) = (2 ^ w * high + low : Nat) := by
  rw [Nat.two_pow_add_eq_or_of_lt hlow, Nat.or_comm]
  rfl

theorem parts_lt {v high : Nat} (hhigh : high < 2 ^ v) (hlow : low < 2 ^ w) :
    2 ^ w * high + low < 2 ^ w * 2 ^ v := by
  calc
    2 ^ w * high + low < 2 ^ w * high + 2 ^ w := by omega
    _ = 2 ^ w * (high + 1) := by ring
    _ ≤ 2 ^ w * 2 ^ v := mul_le_mul_left _ hhigh

theorem wrap_digit (hd : d < digitBase) : wrap (d : Int) = d := by
  have hlt : (d : Int) < 4294967296 := by
    exact_mod_cast hd
  exact wrap_of_bounds (by omega) (by omega)

theorem digit_mod (hd : d < digitBase) : ((d : Int) % digitBase).toNat = d := by
  rw [Int.emod_eq_of_lt (Int.natCast_nonneg _) (by exact_mod_cast hd), Int.toNat_natCast]

theorem magnitude_usedDigit (h : Heap) (x : BigInt) :
    magnitude h x = digitSum digitBase (usedDigit h x) x.used :=
  digitSum_congr fun _ hk => (if_pos hk).symm

variable {x : BigInt} {h : Heap}

theorem Normal.readUsed (hx : Normal h x) (hk : k < x.used)
    (R : List Nat) : readDigit (h ++ [R]) x.digits k = some (usedDigit h x k : Int) := by
  rw [hx.read hk, usedDigit, if_pos hk]

/-! ## Left shift -/

theorem dlShift_yields (hp : Prepared h) (hx : Normal h x) (n : Nat) :
    Yields h (magnitude h x * digitBase ^ n) x.isNegative (x.dlShift n h) := by
  rw [BigInt.dlShift]
  by_cases hx0 : x.used = 0
  · rw [if_pos hx0, magnitude_of_used hx0, zero_mul]
    exact yields_zero hp _
  rw [if_neg hx0]
  obtain ⟨R, hloop, hsame, hout, hin⟩ := fill_segment
    (copyBody x.digits (fun k => x.used - 1 - k)) (h := h)
    (R := replicate (x.used + n + (x.used + n) % 2) 0) (fun k => x.used - 1 - k + n)
    (k := 0) (n := x.used) (fun k => digitOf h x (x.used - 1 - k)) (fun k _ => hx.small _)
    (fun k hk => by rw [length_replicate]; omega) (fun k _ k' _ heq => by omega)
    (fun k hk R' => by
      rw [copyBody, zero_add, hx.read (by omega)]
      rfl)
  rw [length_replicate] at hsame
  have hzero : ∀ j, j < n ∨ x.used + n ≤ j → digit R j = 0 := by
    intro j hj
    rw [hout j fun k hk => by omega, digit_replicate]
  have hcopy : ∀ k < x.used, digit R (n + k) = digitOf h x k := by
    intro k hk
    have hdigit := hin (x.used - 1 - k) (by omega)
    rw [show x.used - 1 - (0 + (x.used - 1 - k)) + n = n + k by omega,
      show x.used - 1 - (x.used - 1 - k) = k by omega] at hdigit
    exact hdigit
  change Yields h _ _ ((forDigits _ h.length _ _ _ _ (h ++ [_])).bind _)
  rw [hloop, bind_some]
  refine make_yields x.isNegative ⟨hsame, ?_, fun j hj => hzero j (Or.inr hj), ?_⟩
    (le_refl (x.used + n))
  · intro j hj
    by_cases hlow : j < n
    · rw [hzero j (Or.inl hlow)]
      exact base_pos
    · obtain ⟨k, rfl⟩ : ∃ k, j = n + k := ⟨j - n, by omega⟩
      rw [hcopy k (by omega)]
      exact hx.small k
  · rw [add_comm, digitSum_add, digitSum_of_zero fun k hk => hzero k (Or.inl hk),
      digitSum_congr hcopy, magnitude]
    ring

theorem joined_lt (hb : b < 32) (hd : d < digitBase) (e : Nat) :
    2 ^ b * (e % 2 ^ (32 - b)) + d / 2 ^ (32 - b) < digitBase := by
  rw [base_split hb]
  refine parts_lt (Nat.mod_lt _ (Nat.two_pow_pos _)) (Nat.div_lt_of_lt_mul ?_)
  rw [Nat.mul_comm, ← base_split hb]
  exact hd

theorem lowPart_lt (hb : b < 32) (e : Nat) : 2 ^ b * (e % 2 ^ (32 - b)) < digitBase := by
  rw [base_split hb]
  exact Nat.mul_lt_mul_of_pos_left (Nat.mod_lt _ (Nat.two_pow_pos _)) (Nat.two_pow_pos _)

/-- One round of `lsh`: the high part of a digit and the low part of the digit above. -/
theorem lshBody_spec {d : Ref} {used digit : Nat} (hb : b < 32)
    (hdigit : digit < digitBase) (hread : readDigit h d (used - 1 - k) = some (digit : Int)) :
    lshBody d used b (32 - b) h k (2 ^ b * carry : Nat) =
      some (((2 ^ b * carry + digit / 2 ^ (32 - b) : Nat) : Int),
        ((2 ^ b * (digit % 2 ^ (32 - b)) : Nat) : Int)) := by
  have hhigh : digit / 2 ^ (32 - b) < 2 ^ b := by
    apply Nat.div_lt_of_lt_mul
    rw [Nat.mul_comm, ← base_split hb]
    exact hdigit
  have hshift : ((digit % 2 ^ (32 - b) : Nat) : Int) <<< b =
      (2 ^ b * (digit % 2 ^ (32 - b)) : Nat) := by
    rw [Int.shiftLeft_eq, mul_comm]
    rfl
  rw [lshBody, hread]
  simp only [some_bind]
  rw [shiftRight_natCast, lor_parts' hhigh, shiftMask, hshift, wrap_digit (lowPart_lt hb digit)]

theorem lsh_digits (hx : Normal h x) (hlength : x.used + n / 32 < R.length) :
    ∃ R', lsh (h ++ [R]) x.digits x.used n h.length = some (h ++ [R']) ∧ R'.length = R.length ∧
      (∀ j, j < n / 32 ∨ x.used + n / 32 < j → digit R' j = digit R j) ∧
      digit R' (n / 32) = 2 ^ (n % 32) * (usedDigit h x 0 % 2 ^ (32 - n % 32)) ∧
      ∀ k < x.used, digit R' (n / 32 + (k + 1)) =
        2 ^ (n % 32) * (usedDigit h x (k + 1) % 2 ^ (32 - n % 32)) +
          usedDigit h x k / 2 ^ (32 - n % 32) := by
  have hb : n % 32 < 32 := mod_lt _ (by decide)
  -- the state is the low part of the digit above
  obtain ⟨R₁, hloop, ⟨hsame, hout⟩, hin⟩ := forDigits_spec
    (lshBody x.digits x.used (n % 32) (32 - n % 32)) (fun k => x.used - 1 - k + n / 32 + 1) (h := h)
    (R := R) (k := 0) (n := x.used)
    (fun m => ((2 ^ (n % 32) * (usedDigit h x (x.used - m) % 2 ^ (32 - n % 32)) : Nat) : Int))
    (fun m => ((2 ^ (n % 32) * (usedDigit h x (x.used - m) % 2 ^ (32 - n % 32)) +
      usedDigit h x (x.used - 1 - m) / 2 ^ (32 - n % 32) : Nat) : Int))
    (fun m hm R' _ => by
      have hread := hx.readUsed (show x.used - 1 - (0 + m) < x.used by omega) R'
      rw [lshBody_spec hb (usedDigit_lt hx _) hread, zero_add,
        show x.used - 1 - m = x.used - (m + 1) by omega])
    (fun m hm => by omega) (fun m _ m' _ heq => by omega)
  have hfirst : 2 ^ (n % 32) * (usedDigit h x (x.used - 0) % 2 ^ (32 - n % 32)) = 0 := by
    rw [Nat.sub_zero, usedDigit, if_neg (Nat.lt_irrefl _), Nat.zero_mod, Nat.mul_zero]
  rw [hfirst, Nat.sub_self] at hloop
  have hroom : n / 32 < R₁.length := by omega
  refine ⟨R₁.set (n / 32) (2 ^ (n % 32) * (usedDigit h x 0 % 2 ^ (32 - n % 32))), ?_, ?_, ?_,
    digit_set_self hroom _, ?_⟩
  · have hloop' : forDigits (lshBody x.digits x.used (n % digitBits) (digitBits - n % digitBits))
        h.length (fun k => x.used - 1 - k + n / digitBits + 1) x.used 0 0 (h ++ [R]) = _ := hloop
    rw [lsh, hloop']
    simp only [some_bind]
    rw [writeDigit_snoc h hroom, digit_mod (lowPart_lt hb _)]
  · rw [length_set, hsame]
  · intro j hj
    rw [digit_set_ne (by omega),
      hout j fun m hm => show x.used - 1 - (0 + m) + n / 32 + 1 ≠ j by omega]
  · intro k hk
    have hdigit := hin (x.used - 1 - k) (by omega)
    rw [digit_mod (joined_lt hb (usedDigit_lt hx _) _),
      show x.used - 1 - (0 + (x.used - 1 - k)) + n / 32 + 1 = n / 32 + (k + 1) by omega,
      show x.used - (x.used - 1 - k) = k + 1 by omega,
      show x.used - 1 - (x.used - 1 - k) = k by omega] at hdigit
    rw [digit_set_ne (by omega), hdigit]

theorem lsh_spec {l : Nat} (hx : Normal h x) (n : Nat) (hl : x.used + n / 32 < l) :
    ∃ R, lsh (h ++ [List.replicate l 0]) x.digits x.used n h.length = some (h ++ [R]) ∧
      Fills l R (x.used + n / 32 + 1) (magnitude h x * 2 ^ n) := by
  have hb : n % 32 < 32 := mod_lt _ (by decide)
  obtain ⟨R, hlsh, hsame, hout, hfirst, hin⟩ := lsh_digits hx (n := n) (R := replicate l 0)
    (by rw [length_replicate]; exact hl)
  rw [length_replicate] at hsame
  have hzero : ∀ j, j < n / 32 ∨ x.used + n / 32 < j → digit R j = 0 := fun j hj => by
    rw [hout j hj, digit_replicate]
  refine ⟨R, hlsh, hsame, ?_, fun j hj => hzero j (by omega), ?_⟩
  · intro j hj
    by_cases hlow : j < n / 32
    · rw [hzero j (Or.inl hlow)]
      exact base_pos
    obtain ⟨k, rfl⟩ : ∃ k, j = n / 32 + k := ⟨j - n / 32, by omega⟩
    cases k with
    | zero =>
      rw [add_zero, hfirst]
      exact lowPart_lt hb _
    | succ k =>
      rw [hin k (by omega)]
      exact joined_lt hb (usedDigit_lt hx k) _
  · rw [show x.used + n / 32 + 1 = n / 32 + (x.used + 1) by omega, digitSum_add,
      digitSum_of_zero fun k hk => hzero k (Or.inl hk)]
    have htimes := digitSum_times (f := fun k => digit R (n / 32 + k)) (g := usedDigit h x)
      (n := x.used) (p := 2 ^ (n % 32)) (q := 2 ^ (32 - n % 32)) hfirst (fun k hk => by
        rw [hin k hk, add_comm])
    have htop : usedDigit h x x.used = 0 := if_neg (lt_irrefl _)
    rw [← base_split hb, htop, ← magnitude_usedDigit] at htimes
    rw [htimes, two_pow_split n]
    simp
    ring

theorem shiftLeft_yields (hp : Prepared h) (hx : Normal h x) (n : Nat) :
    Yields h (magnitude h x * 2 ^ n) x.isNegative (x.shiftLeft n h) := by
  rw [BigInt.shiftLeft]
  by_cases hx0 : x.isZero = true
  · have hused : x.used = 0 := by simpa [BigInt.isZero] using hx0
    rw [if_pos hx0, magnitude_of_used hused, zero_mul]
    exact ⟨x, h, rfl, prefix_rfl, hx, magnitude_of_used hused, fun h => absurd rfl h⟩
  rw [if_neg hx0]
  by_cases hbits : n % digitBits = 0
  · have hyields := dlShift_yields hp hx (n / 32)
    rw [if_pos hbits, two_pow_split, hbits, pow_zero, mul_one]
    exact hyields
  rw [if_neg hbits]
  exact yields_of_fill x.isNegative (fun h' => lsh h' x.digits x.used n h.length)
    (le_succ _) (lsh_spec hx n (show _ < x.used + n / 32 + 1 + 1 + _ by omega))

/-! ## Right shift -/

theorem neg_ediv (m : Nat) (hn : 0 < n) :
    -(m : Int) / n = if m % n = 0 then -((m / n : Nat) : Int) else -((m / n : Nat) : Int) - 1 := by
  have hsign : (n : Int).sign = 1 := Int.sign_eq_one_of_pos (by exact_mod_cast hn)
  simp only [Int.neg_ediv, hsign, Int.natCast_dvd_natCast, dvd_iff_mod_eq_zero]
  split <;> simp

theorem floor_returns {h h' : Heap} (hp : Prepared h') {x r : BigInt}
    (hr : Normal h' r) (hm : magnitude h' r = magnitude h x / 2 ^ n)
    (hsign : magnitude h' r ≠ 0 → r.isNegative = x.isNegative) {lost : Bool}
    (hlost : lost = true ↔ magnitude h x % 2 ^ n ≠ 0) :
    Returns h' (toInt h x / 2 ^ n)
      (if x.isNegative && lost then r.sub one h' else some (r, h')) := by
  have hvalue : toInt h' r = signedInt x.isNegative (magnitude h x / 2 ^ n) := by
    rw [← hm]
    by_cases hzero : magnitude h' r = 0
    · simp [toInt, signedInt, hzero]
    · rw [toInt, hsign hzero, signedInt]
  have hpow : ((2 ^ n : Nat) : Int) = 2 ^ n := by push_cast; rfl
  cases hneg : x.isNegative with
  | false =>
    have hquot : toInt h x / 2 ^ n = toInt h' r := by
      rw [hvalue, hneg, toInt, hneg, ← hpow]
      rfl
    rw [hquot]
    exact returns_self hr
  | true =>
    have hfloor : toInt h x / 2 ^ n = if magnitude h x % 2 ^ n = 0 then toInt h' r
        else toInt h' r - 1 := by
      rw [hvalue, hneg, toInt, hneg, ← hpow]
      exact neg_ediv _ (Nat.two_pow_pos n)
    rw [hfloor]
    cases lost with
    | false =>
      have hzero : magnitude h x % 2 ^ n = 0 := by
        by_contra hne
        exact Bool.noConfusion (hlost.2 hne)
      rw [if_pos hzero]
      exact returns_self hr
    | true =>
      rw [if_neg (hlost.1 rfl)]
      have hsub := sub_returns hp hr hp.normal_one
      have hone : toInt h' one = 1 := by
        rw [toInt_nonneg rfl, hp.magnitude_one]
        rfl
      rw [hone] at hsub
      exact hsub

theorem anyDigit_spec (hx : Normal h x) (hn : i + n ≤ x.used) (R : List Nat) :
    ∃ lost, anyDigit (h ++ [R]) x.digits n i = some lost ∧
      (lost = true ↔ ∃ k < n, digitOf h x (i + k) ≠ 0) := by
  induction n generalizing i with
  | zero => exact ⟨false, rfl, by simp⟩
  | succ n ih =>
    rw [anyDigit, hx.read (by omega)]
    simp only [some_bind]
    by_cases hzero : digitOf h x i = 0
    · obtain ⟨lost, hlost, hiff⟩ := ih (i := i + 1) (by omega)
      refine ⟨lost, by rw [if_neg (by simp [hzero]), hlost], hiff.trans ?_⟩
      constructor
      · rintro ⟨k, hk, hne⟩
        exact ⟨k + 1, by omega, by rwa [add_right_comm] at hne⟩
      · rintro ⟨k, hk, hne⟩
        cases k with
        | zero => exact absurd hzero hne
        | succ k => exact ⟨k, by omega, by rwa [add_right_comm]⟩
    · refine ⟨true, if_pos (by exact_mod_cast hzero), ?_⟩
      exact iff_of_true rfl ⟨0, by omega, hzero⟩

/-- Whether one of the low digits is lost. -/
theorem anyDigit_low (hx : Normal h x) (hn : n ≤ x.used) (R : List Nat) :
    ∃ lost, anyDigit (h ++ [R]) x.digits n 0 = some lost ∧
      (lost = true ↔ digitSum digitBase (digitOf h x) n ≠ 0) := by
  obtain ⟨lost, hlost, hiff⟩ := anyDigit_spec hx (n := n) (i := 0) (by omega) R
  refine ⟨lost, hlost, hiff.trans ?_⟩
  rw [Ne, digitSum_eq_zero_iff base_pos]
  push Not
  simp only [zero_add]

def highDigits (h : Heap) (x : BigInt) (n : Nat) : Nat :=
  digitSum digitBase (fun k => digitOf h x (n + k)) (x.used - n)

theorem magnitude_high (hx : Normal h x) (hn : n ≤ x.used) :
    magnitude h x / digitBase ^ n = highDigits h x n ∧
      magnitude h x % digitBase ^ n = digitSum digitBase (digitOf h x) n := by
  have hsplit : magnitude h x =
      digitSum digitBase (digitOf h x) n + digitBase ^ n * highDigits h x n := by
    rw [highDigits, ← digitSum_add, Nat.add_sub_cancel' hn]
    rfl
  have hlt : digitSum digitBase (digitOf h x) n < digitBase ^ n :=
    digitSum_lt fun k _ => hx.small k
  have hpos : 0 < digitBase ^ n := Nat.pow_pos base_pos
  rw [hsplit]
  constructor
  · rw [add_mul_div_left _ _ hpos, div_eq_of_lt hlt, zero_add]
  · rw [add_mul_mod_self_left, mod_eq_of_lt hlt]

/-- A shift by all digits or more leaves the sign. -/
theorem shiftOut_returns (hp : Prepared h) (hx : Normal h x)
    (hused : x.used ≠ 0) (hlt : magnitude h x < 2 ^ n) :
    Returns h (toInt h x / 2 ^ n) (some (if x.isNegative then minusOne else zero, h)) := by
  have hlost : (true = true) ↔ magnitude h x % 2 ^ n ≠ 0 := by
    rw [mod_eq_of_lt hlt]
    exact iff_of_true rfl (hx.magnitude_ne_zero.2 hused)
  have hfloor := floor_returns hp (h := h) (x := x) (n := n) hp.normal_zero
    (div_eq_of_lt hlt).symm (fun hne => absurd rfl hne) hlost
  cases hneg : x.isNegative with
  | false | true =>
    rw [hneg] at hfloor
    exact hfloor

theorem drShift_returns (hp : Prepared h) (hx : Normal h x) (n : Nat) :
    Returns h (toInt h x / 2 ^ (32 * n)) (x.drShift n h) := by
  have hpow : 2 ^ (32 * n) = digitBase ^ n := pow_mul 2 32 n
  rw [BigInt.drShift]
  by_cases hx0 : x.used = 0
  · have hzero : toInt h x = 0 := toInt_of_isZero (by simp [BigInt.isZero, hx0])
    rw [if_pos hx0, hzero, Int.zero_ediv]
    exact (yields_zero hp false).returns
  rw [if_neg hx0]
  by_cases hall : (x.used : Int) - n ≤ 0
  · rw [if_pos hall]
    refine shiftOut_returns hp hx hx0 ?_
    rw [hpow]
    exact hx.magnitude_lt.trans_le (Nat.pow_le_pow_right base_pos (by omega))
  rw [if_neg hall]
  obtain ⟨R, hloop, hsame, hout, hin⟩ := fill_segment (copyBody x.digits (fun k => n + k)) (h := h)
    (R := replicate (x.used - n + (x.used - n) % 2) 0) (fun k => k) (k := 0) (n := x.used - n)
    (fun k => digitOf h x (n + k)) (fun k _ => hx.small _)
    (fun k hk => by rw [length_replicate]; omega) (fun k _ k' _ heq => by omega)
    (fun k hk R' => by
      rw [copyBody, zero_add, hx.read (by omega)]
      rfl)
  rw [length_replicate] at hsame
  have hcopy : ∀ k < x.used - n, digit R k = digitOf h x (n + k) := fun k hk => by
    have hdigit := hin k hk
    rwa [zero_add] at hdigit
  have hfills : Fills (x.used - n + (x.used - n) % 2) R (x.used - n) (highDigits h x n) := by
    refine ⟨hsame, fun j hj => ?_, fun j hj => ?_, digitSum_congr hcopy⟩
    · rw [hcopy j hj]
      exact hx.small _
    · rw [hout j fun k hk => show 0 + k ≠ j by omega, digit_replicate]
  obtain ⟨r, hmake, hr, hm, hsign⟩ := make_spec (h := h) x.isNegative hfills (le_refl _)
  obtain ⟨lost, hlost, hiff⟩ := anyDigit_low hx (show n ≤ x.used by omega) R
  obtain ⟨hquot, hrem⟩ := magnitude_high hx (show n ≤ x.used by omega)
  have hfloor := floor_returns (hp.mono (prefix_append h [R])) (h := h) (x := x) (n := 32 * n)
    hr (by rw [hm, hpow, hquot]) (fun hne => hsign (hm ▸ hne))
    (by rw [hiff, hpow, hrem])
  refine Returns.mono (prefix_append h [R]) ?_
  change Returns (h ++ [R]) _ ((forDigits _ h.length _ _ _ _ (h ++ [_])).bind _)
  rw [hloop, bind_some]
  change Returns (h ++ [R]) _ ((make (h ++ [R]) _ _ h.length).bind _)
  rw [hmake, bind_some]
  cases hneg : x.isNegative with
  | false =>
    rw [hneg] at hfloor
    exact hfloor
  | true =>
    rw [hneg] at hfloor
    rw [hlost]
    exact hfloor

/-- One round of `rsh`: the low part of the next digit and the high part of a digit. -/
theorem rshBody_spec {d : Ref} {ds digit : Nat} (hb : b < 32)
    (hcarry : carry < 2 ^ (32 - b)) (hread : readDigit h d (i + ds + 1) = some (digit : Int)) :
    rshBody d ds b (32 - b) h i carry =
      some (((2 ^ (32 - b) * (digit % 2 ^ b) + carry : Nat) : Int),
        ((digit / 2 ^ b : Nat) : Int)) := by
  have hshift : ((digit % 2 ^ b : Nat) : Int) <<< (32 - b) =
      (2 ^ (32 - b) * (digit % 2 ^ b) : Nat) := by
    rw [Int.shiftLeft_eq, mul_comm]
    rfl
  have hlow : 2 ^ (32 - b) * (digit % 2 ^ b) < digitBase := by
    rw [base_split hb, mul_comm]
    exact Nat.mul_lt_mul_of_pos_right (Nat.mod_lt _ (Nat.two_pow_pos _)) (Nat.two_pow_pos _)
  rw [rshBody, hread]
  simp only [some_bind]
  rw [shiftMask, hshift, wrap_digit hlow, lor_parts hcarry, shiftRight_natCast]

theorem highPart_lt (hb : b < 32) (hd : d < digitBase) : d / 2 ^ b < 2 ^ (32 - b) := by
  apply Nat.div_lt_of_lt_mul
  rw [← base_split hb]
  exact hd

theorem rsh_digits (hx : Normal h x) (hn : n / 32 < x.used) (hlength : x.used - n / 32 ≤ R.length) :
    ∃ R', rsh (h ++ [R]) x.digits x.used n h.length = some (h ++ [R']) ∧ R'.length = R.length ∧
      (∀ j, x.used - n / 32 ≤ j → digit R' j = digit R j) ∧
      digit R' (x.used - n / 32 - 1) = digitOf h x (x.used - 1) / 2 ^ (n % 32) ∧
      ∀ k < x.used - n / 32 - 1, digit R' k =
        2 ^ (32 - n % 32) * (digitOf h x (n / 32 + (k + 1)) % 2 ^ (n % 32)) +
          digitOf h x (n / 32 + k) / 2 ^ (n % 32) := by
  have hb : n % 32 < 32 := mod_lt _ (by decide)
  obtain ⟨R₁, hloop, ⟨hsame, hout⟩, hin⟩ := forDigits_spec
    (rshBody x.digits (n / 32) (n % 32) (32 - n % 32)) (fun i => i) (h := h) (R := R) (k := 0)
    (n := x.used - n / 32 - 1)
    (fun m => ((digitOf h x (n / 32 + m) / 2 ^ (n % 32) : Nat) : Int))
    (fun m => ((2 ^ (32 - n % 32) * (digitOf h x (n / 32 + (m + 1)) % 2 ^ (n % 32)) +
      digitOf h x (n / 32 + m) / 2 ^ (n % 32) : Nat) : Int))
    (fun m hm R' _ => by
      have hread := hx.read (show 0 + m + n / 32 + 1 < x.used by omega) R'
      rw [rshBody_spec hb (highPart_lt hb (hx.small _)) hread,
        show 0 + m + n / 32 + 1 = n / 32 + (m + 1) by omega])
    (fun m hm => by omega) (fun m _ m' _ heq => by omega)
  have hroom : x.used - n / 32 - 1 < R₁.length := by omega
  have htop : digitOf h x (x.used - 1) / 2 ^ (n % 32) < digitBase :=
    (div_le_self _ _).trans_lt (hx.small _)
  rw [show n / 32 + (x.used - n / 32 - 1) = x.used - 1 by omega] at hloop
  refine ⟨R₁.set (x.used - n / 32 - 1) (digitOf h x (x.used - 1) / 2 ^ (n % 32)), ?_, ?_,
    ?_, digit_set_self hroom _, ?_⟩
  · rw [rsh, show n / digitBits = n / 32 from rfl, hx.read hn]
    simp only [some_bind]
    rw [shiftRight_natCast]
    have hloop' : forDigits (rshBody x.digits (n / 32) (n % digitBits) (digitBits - n % digitBits))
        h.length (fun i => i) (x.used - n / 32 - 1) 0
        ((digitOf h x (n / 32) / 2 ^ (n % digitBits) : Nat) : Int) (h ++ [R]) = _ := hloop
    rw [hloop']
    simp only [some_bind]
    rw [writeDigit_snoc h hroom, digit_mod htop]
  · rw [length_set, hsame]
  · intro j hj
    rw [digit_set_ne (by omega), hout j fun m hm => show 0 + m ≠ j by omega]
  · intro k hk
    have hdigit := hin k hk
    rw [zero_add, digit_mod (by
      rw [base_split hb, mul_comm (2 ^ (n % 32))]
      exact parts_lt (Nat.mod_lt _ (Nat.two_pow_pos _)) (highPart_lt hb (hx.small _)))] at hdigit
    rw [digit_set_ne (by omega), hdigit]

/-- What `rsh` leaves is the quotient, and the bits of one digit are lost. -/
theorem rsh_spec {l : Nat} (hx : Normal h x) (hn : n / 32 < x.used) (hl : x.used - n / 32 ≤ l) :
    ∃ R', rsh (h ++ [List.replicate l 0]) x.digits x.used n h.length = some (h ++ [R']) ∧
      Fills l R' (x.used - n / 32) (magnitude h x / 2 ^ n) ∧
      (magnitude h x % 2 ^ n = 0 ↔ digitOf h x (n / 32) % 2 ^ (n % 32) = 0 ∧
        digitSum digitBase (digitOf h x) (n / 32) = 0) := by
  have hb : n % 32 < 32 := mod_lt _ (by decide)
  obtain ⟨R', hrsh, hsame, hout, hlast, hin⟩ := rsh_digits (R := replicate l 0) hx hn
    (by rw [length_replicate]; exact hl)
  rw [length_replicate] at hsame
  obtain ⟨hquot, hrem⟩ := magnitude_high hx (le_of_lt hn)
  have hdivision : 2 ^ (n % 32) * digitSum digitBase (digit R') (x.used - n / 32) +
      digitOf h x (n / 32) % 2 ^ (n % 32) = highDigits h x (n / 32) := by
    have hover := digitSum_over (f := digit R') (g := fun k => digitOf h x (n / 32 + k))
      (n := x.used - n / 32 - 1) (p := 2 ^ (n % 32)) (q := 2 ^ (32 - n % 32)) hin
    have htop := div_add_mod (digitOf h x (x.used - 1)) (2 ^ (n % 32))
    obtain ⟨last, hlast'⟩ : ∃ last, x.used - n / 32 = last + 1 := ⟨x.used - n / 32 - 1, by omega⟩
    rw [← base_split hb] at hover
    rw [highDigits, hlast', digitSum_succ, digitSum_succ]
    rw [hlast', Nat.add_sub_cancel] at hover hlast
    rw [show n / 32 + last = x.used - 1 by omega] at hover ⊢
    rw [hlast]
    linear_combination hover + digitBase ^ last * htop
  have hlt : digitOf h x (n / 32) % 2 ^ (n % 32) < 2 ^ (n % 32) :=
    Nat.mod_lt _ (Nat.two_pow_pos _)
  refine ⟨R', hrsh, ⟨hsame, ?_, fun k hk => by rw [hout k hk, digit_replicate], ?_⟩, ?_⟩
  · intro k hk
    by_cases hk' : k < x.used - n / 32 - 1
    · rw [hin k hk', base_split hb, mul_comm (2 ^ (n % 32))]
      exact parts_lt (Nat.mod_lt _ (Nat.two_pow_pos _)) (highPart_lt hb (hx.small _))
    · rw [show k = x.used - n / 32 - 1 by omega, hlast]
      exact (div_le_self _ _).trans_lt (hx.small _)
  · rw [two_pow_split n, ← Nat.div_div_eq_div_mul, hquot, ← hdivision,
      Nat.mul_add_div (Nat.two_pow_pos _), Nat.div_eq_of_lt hlt, Nat.add_zero]
  · rw [two_pow_split n, mod_mul, hquot, hrem, ← hdivision, mul_add_mod, mod_mod]
    have hpos : digitBase ^ (n / 32) ≠ 0 := (Nat.pow_pos base_pos).ne'
    rw [Nat.add_eq_zero_iff, Nat.mul_eq_zero]
    simp only [hpos, false_or]
    exact And.comm

theorem shiftRight_returns (hp : Prepared h) (hx : Normal h x) (n : Nat) :
    Returns h (toInt h x / 2 ^ n) (x.shiftRight n h) := by
  rw [BigInt.shiftRight]
  by_cases hx0 : x.isZero = true
  · have hself := returns_self hx
    rw [toInt_of_isZero hx0] at hself
    rw [if_pos hx0, toInt_of_isZero hx0, Int.zero_ediv]
    exact hself
  have hused : x.used ≠ 0 := fun hzero => hx0 (by simp [BigInt.isZero, hzero])
  rw [if_neg hx0]
  by_cases hbits : n % digitBits = 0
  · have hreturns := drShift_returns hp hx (n / 32)
    rw [Nat.mul_div_cancel' (Nat.dvd_of_mod_eq_zero hbits)] at hreturns
    rw [if_pos hbits]
    exact hreturns
  rw [if_neg hbits]
  by_cases hall : (x.used : Int) - (n / 32 : Nat) ≤ 0
  · refine (if_pos hall).symm ▸ shiftOut_returns hp hx hused ?_
    rw [two_pow_split n]
    calc
      magnitude h x < digitBase ^ x.used := hx.magnitude_lt
      _ ≤ digitBase ^ (n / 32) := Nat.pow_le_pow_right base_pos (by omega)
      _ ≤ digitBase ^ (n / 32) * 2 ^ (n % 32) := Nat.le_mul_of_pos_right _ (Nat.two_pow_pos _)
  have hn : n / 32 < x.used := by omega
  obtain ⟨R, hrsh, hfills, hrem⟩ :=
    rsh_spec (l := x.used - n / 32 + (x.used - n / 32) % 2) hx hn (by omega)
  obtain ⟨r, hmake, hr, hm, hsign⟩ := make_spec (h := h) x.isNegative hfills (le_refl _)
  obtain ⟨lost, hlost, hiff⟩ := anyDigit_low hx (le_of_lt hn) R
  have hfloor := fun (b : Bool) (hb : b = true ↔ magnitude h x % 2 ^ n ≠ 0) =>
    floor_returns (hp.mono (prefix_append h [R])) hr hm (fun hne => hsign (hm ▸ hne)) hb
  refine Returns.mono (prefix_append h [R]) ?_
  refine (if_neg hall).symm ▸ ?_
  change Returns (h ++ [R]) _ ((rsh (h ++ [_]) _ _ _ h.length).bind _)
  rw [hrsh, bind_some]
  change Returns (h ++ [R]) _ ((make (h ++ [R]) _ _ h.length).bind _)
  rw [hmake, bind_some]
  have hzero : ∀ b : Bool, (b = true ↔ ¬ (digitOf h x (n / 32) % 2 ^ (n % 32) = 0 ∧
      digitSum digitBase (digitOf h x) (n / 32) = 0)) →
      (b = true ↔ magnitude h x % 2 ^ n ≠ 0) := fun b hb => by
    rw [hb, Ne, hrem]
  cases hneg : x.isNegative with
  | false =>
    have hdown := hfloor (decide (magnitude h x % 2 ^ n ≠ 0)) decide_eq_true_iff
    rw [hneg] at hdown
    exact hdown
  | true =>
    simp only [if_true, bind_eq_bind]
    rw [show n / digitBits = n / 32 from rfl, hx.read hn, bind_some, shiftMask]
    by_cases hlow : digitOf h x (n / 32) % 2 ^ (n % 32) = 0
    · -- the digits below decide
      have hdown := hfloor lost (hzero lost (by rw [hiff]; simp [hlow]))
      rw [hneg, Bool.true_and] at hdown
      rw [if_neg (by
        rw [not_not]
        exact_mod_cast hlow), hlost]
      exact hdown
    · have hdown := hfloor true (hzero true (by simp [hlow]))
      rw [hneg] at hdown
      rw [if_pos (by exact_mod_cast hlow)]
      exact hdown

end Dart2Wasm.BigIntImpl
