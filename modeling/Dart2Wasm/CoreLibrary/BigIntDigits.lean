import Dart2Wasm.Lib.DigitSum
import Dart2Wasm.Lib.Run
import Dart2Wasm.CoreLibrary.BigInt

/-!
# BigIntDigits — loops over digit arrays

Every operation allocates one array and fills it with `forDigits`. The heap then is the old heap and
the new array, so the operands are never written to. `forDigits_spec` says what the loop leaves in
the new array for any sequence of states and digits; `carry_segment` is the case of a carry.

`Normal` is the normal form of a big integer, and `make_spec` says that the constructor brings it
about.
-/

namespace Dart2Wasm.BigIntImpl

open Lib Nat Option

variable {k n used m : Nat}

/-! ## Machine integers -/

theorem wrap_of_bounds {n : Int} (hlow : -2 ^ 63 ≤ n) (hhigh : n < 2 ^ 63) : wrap n = n :=
  Int.bmod_eq_of_le (by norm_num; omega) (by norm_num; omega)

theorem ldiff_add_and (n m : Nat) : Nat.ldiff n m + (m &&& n) = n := by
  induction n using binaryRec generalizing m with
  | zero => simp [ldiff]
  | bit b n ih =>
    induction m using binaryRec with
    | zero => simp [ldiff]
    | bit c m _ =>
      have hrest := ih m
      rw [ldiff_bit, land_bit]
      cases b <;> cases c <;> simp [bit_val] <;> omega

theorem two_pow_cast (w : Nat) : (2 : Int) ^ w = (2 ^ w : Nat) := by
  simp

theorem land_mask (c : Int) (w : Nat) : Int.land c ((2 : Int) ^ w - 1) = c % 2 ^ w := by
  have hpos := Nat.two_pow_pos w
  have hmask : (2 : Int) ^ w - 1 = ((2 ^ w - 1 : Nat) : Int) := by
    rw [two_pow_cast]
    omega
  rw [hmask]
  cases c with
  | ofNat m =>
    change ((m &&& (2 ^ w - 1) : Nat) : Int) = _
    rw [Nat.and_two_pow_sub_one_eq_mod]
    rfl
  | negSucc m =>
    have hldiff := ldiff_add_and (2 ^ w - 1) m
    rw [Nat.and_two_pow_sub_one_eq_mod] at hldiff
    change ((Nat.ldiff (2 ^ w - 1) m : Nat) : Int) = _
    rw [Int.negSucc_emod _ (by positivity), two_pow_cast]
    omega

/-- A single bit is the difference of two residues. -/
theorem land_two_pow (a : Int) (k : Nat) : Int.land a (2 ^ k) = a % 2 ^ (k + 1) - a % 2 ^ k := by
  have hbit : ∀ m : Nat, (m &&& 2 ^ k) + m % 2 ^ k = m % 2 ^ (k + 1) := by
    intro m
    rw [and_two_pow, mod_pow_succ, toNat_testBit]
    ring
  rw [two_pow_cast, two_pow_cast]
  cases a with
  | ofNat m =>
    have hm := hbit m
    change ((m &&& 2 ^ k : Nat) : Int) = ((m % 2 ^ (k + 1) : Nat) : Int) - (m % 2 ^ k : Nat)
    omega
  | negSucc m =>
    have hm := hbit m
    have hldiff := ldiff_add_and (2 ^ k) m
    have hdouble : 2 ^ (k + 1) = 2 * 2 ^ k := pow_succ' 2 k
    change ((ldiff (2 ^ k) m : Nat) : Int) = _
    rw [Int.negSucc_emod _ (by positivity), Int.negSucc_emod _ (by positivity)]
    omega

theorem base_eq : (digitBase : Int) = 4294967296 := by norm_num [digitBase]

theorem base_pos : 0 < digitBase := by norm_num [digitBase]

theorem digit_of_land (c : Int) : Int.land c digitMask % digitBase = c % digitBase := by
  have hmask : Int.land c digitMask = c % digitBase := by
    exact land_mask c 32
  rw [hmask, Int.emod_emod]

theorem shiftRight_digit (c : Int) : c >>> digitBits = c / digitBase := by
  exact Int.shiftRight_eq_div_pow c 32

/-! ## Digits -/

def digit (array : List Nat) (k : Nat) : Nat := array.getD k 0

variable {h : Heap}

theorem readDigit_of {d : Ref} {array : List Nat} (ha : h[d]? = some array)
    (hk : k < array.length) : readDigit h d k = some (digit array k : Int) := by
  simp [readDigit, ha, digit, hk]

theorem getElem?_snoc_last (h : Heap) (R : List Nat) : (h ++ [R])[h.length]? = some R := by
  simp

variable {R : List Nat}

theorem writeDigit_snoc (h : Heap) (hk : k < R.length) (v : Int) :
    writeDigit (h ++ [R]) h.length k v = some (h ++ [R.set k (v % digitBase).toNat]) := by
  simp [writeDigit, hk]

theorem digit_set_self (hk : k < R.length) (v : Nat) : digit (R.set k v) k = v := by
  simp [digit, hk]

theorem digit_set_ne {j : Nat} (hj : k ≠ j) (v : Nat) : digit (R.set k v) j = digit R j := by
  simp [digit, List.getElem?_set_ne hj]

theorem digit_replicate (n k : Nat) : digit (List.replicate n 0) k = 0 := by
  simp only [digit, List.getD_eq_getElem?_getD, List.getElem?_replicate]
  split <;> rfl

/-! ## Loops -/

section ForDigits

variable {S : Type} {body : Heap → Nat → S → Option (Int × S)} {position : Nat → Nat}

theorem forDigits_last (result : Ref) (n k : Nat) (s : S) (h : Heap) :
    forDigits body result position (n + 1) k s h =
      (forDigits body result position n k s h).bind fun r =>
        (body r.2 (k + n) r.1).bind fun v =>
          (writeDigit r.2 result (position (k + n)) v.1).map fun h' => (v.2, h') := by
  induction n generalizing k s h with
  | zero =>
    simp only [forDigits, bind_eq_bind, bind_some, add_zero]
    cases body h k s with
    | none => rfl
    | some v => cases hw : writeDigit h result (position k) v.1 <;> simp [hw]
  | succ n ih =>
    rw [forDigits]
    conv_rhs => rw [forDigits]
    simp only [bind_eq_bind, bind_assoc]
    congr 1
    funext v
    cases writeDigit h result (position k) v.1 with
    | none => rfl
    | some h' =>
      simp only [bind_some]
      rw [ih, add_right_comm, add_assoc]

/-- The new array after some rounds differs from the old one where the rounds stored a digit. -/
def Unwritten (position : Nat → Nat) (k n : Nat) (R R' : List Nat) : Prop :=
  R'.length = R.length ∧ ∀ j, (∀ m < n, position (k + m) ≠ j) → digit R' j = digit R j

theorem forDigits_spec (body : Heap → Nat → S → Option (Int × S)) (position : Nat → Nat)
    (state : Nat → S) (out : Nat → Int) (hbody : ∀ m < n, ∀ R', Unwritten position k m R R' →
      body (h ++ [R']) (k + m) (state m) = some (out m, state (m + 1)))
    (hposition : ∀ m < n, position (k + m) < R.length)
    (hinjective : ∀ m < n, ∀ m' < n, position (k + m) = position (k + m') → m = m') :
    ∃ R', forDigits body h.length position n k (state 0) (h ++ [R]) = some (state n, h ++ [R']) ∧
      Unwritten position k n R R' ∧
      ∀ m < n, digit R' (position (k + m)) = (out m % digitBase).toNat := by
  induction n with
  | zero => exact ⟨R, rfl, ⟨rfl, fun _ _ => rfl⟩, nofun⟩
  | succ n ih =>
    obtain ⟨R', hloop, hunwritten, hwritten⟩ := ih (fun m hm => hbody m (by omega))
      (fun m hm => hposition m (by omega))
      (fun m hm m' hm' => hinjective m (by omega) m' (by omega))
    have hlast : position (k + n) < R'.length := by
      rw [hunwritten.1]
      exact hposition n (by omega)
    refine ⟨R'.set (position (k + n)) (out n % digitBase).toNat, ?_, ⟨?_, ?_⟩, ?_⟩
    · rw [forDigits_last, hloop, bind_some]
      rw [hbody n (by omega) R' hunwritten, bind_some]
      rw [writeDigit_snoc h hlast]
      rfl
    · rw [List.length_set, hunwritten.1]
    · intro j hj
      rw [digit_set_ne (hj n (by omega)), hunwritten.2 j fun m hm => hj m (by omega)]
    · intro m hm
      rcases Nat.lt_succ_iff_lt_or_eq.1 hm with hm' | rfl
      · have hne : position (k + n) ≠ position (k + m) := fun heq =>
          absurd (hinjective n (by omega) m (by omega) heq) (by omega)
        rw [digit_set_ne hne, hwritten m hm']
      · exact digit_set_self hlast _

end ForDigits

/-! ## Carries -/

/-- The carries of a loop that adds `t m` in round `m`. -/
def carries (t : Nat → Int) (c : Int) : Nat → Int
  | 0 => c
  | m + 1 => (carries t c m + t m) / digitBase

theorem carries_bounds {t : Nat → Int} {c : Int} (hc : -1 ≤ c ∧ c ≤ 1)
    (ht : ∀ m < n, -(digitBase : Int) < t m ∧ t m ≤ 2 * (digitBase - 1)) :
    ∀ m ≤ n, -1 ≤ carries t c m ∧ carries t c m ≤ 1 := by
  intro m hm
  induction m with
  | zero => exact hc
  | succ m ih =>
    have hterm := ht m (by omega)
    rw [base_eq] at hterm
    simp only [carries, base_eq]
    omega

theorem carries_step (t : Nat → Int) (c : Int) (m : Nat) :
    (((carries t c m + t m) % digitBase).toNat : Int) + digitBase * carries t c (m + 1) =
      t m + carries t c m := by
  have hbase : (digitBase : Int) ≠ 0 := by norm_num [base_eq]
  rw [Int.toNat_of_nonneg (Int.emod_nonneg _ hbase), carries, Int.emod_add_mul_ediv]
  ring

theorem toNat_emod_lt (v : Int) : (v % digitBase).toNat < digitBase := by
  have hpos : (0 : Int) < digitBase := by norm_num [base_eq]
  have := Int.emod_lt_of_pos v hpos
  omega

/-- A loop with a carry adds up what it adds in each round. -/
theorem carry_segment (body : Heap → Nat → Int → Option (Int × Int))
    (position : Nat → Nat) {p : Nat} (t out : Nat → Int) (c : Int)
    (hposition : ∀ m < n, position (k + m) = p + m) (hlength : p + n ≤ R.length)
    (hout : ∀ m < n, out m % digitBase = (carries t c m + t m) % digitBase)
    (hbody : ∀ m < n, ∀ R', Unwritten position k m R R' →
      body (h ++ [R']) (k + m) (carries t c m) = some (out m, carries t c (m + 1))) :
    ∃ R', forDigits body h.length position n k c (h ++ [R]) = some (carries t c n, h ++ [R']) ∧
      R'.length = R.length ∧
      (∀ j, j < p ∨ p + n ≤ j → digit R' j = digit R j) ∧
      (∀ j, p ≤ j → j < p + n → digit R' j < digitBase) ∧
      (digitSum digitBase (fun m => digit R' (p + m)) n : Int) + digitBase ^ n * carries t c n =
        ∑ m ∈ Finset.range n, t m * (digitBase : Int) ^ m + c := by
  obtain ⟨R', hloop, ⟨hsame, hunwritten⟩, hwritten⟩ := forDigits_spec body position (carries t c)
    out hbody
    (fun m hm => by rw [hposition m hm]; omega)
    (fun m hm m' hm' heq => by rw [hposition m hm, hposition m' hm'] at heq; omega)
  have hdigit : ∀ m < n, digit R' (p + m) = ((carries t c m + t m) % digitBase).toNat := by
    intro m hm
    rw [← hposition m hm, hwritten m hm, hout m hm]
  refine ⟨R', hloop, hsame, ?_, ?_, ?_⟩
  · intro j hj
    refine hunwritten j fun m hm heq => ?_
    rw [hposition m hm] at heq
    omega
  · intro j hlow hhigh
    obtain ⟨m, rfl⟩ := Nat.exists_eq_add_of_le hlow
    rw [hdigit m (by omega)]
    exact toNat_emod_lt _
  · have hsum := digitSum_carry (b := digitBase) (f := fun m => digit R' (p + m)) (c := carries t c)
      (t := t) (n := n) fun m hm => by
        rw [hdigit m hm]
        exact carries_step t c m
    exact hsum

/-- A loop without a carry stores what it computes. -/
theorem fill_segment (body : Heap → Nat → Unit → Option (Int × Unit))
    (position : Nat → Nat) (v : Nat → Nat) (hsmall : ∀ m < n, v m < digitBase)
    (hposition : ∀ m < n, position (k + m) < R.length)
    (hinjective : ∀ m < n, ∀ m' < n, position (k + m) = position (k + m') → m = m')
    (hbody : ∀ m < n, ∀ R', body (h ++ [R']) (k + m) () = some ((v m : Int), ())) :
    ∃ R', forDigits body h.length position n k () (h ++ [R]) = some ((), h ++ [R']) ∧
      R'.length = R.length ∧
      (∀ j, (∀ m < n, position (k + m) ≠ j) → digit R' j = digit R j) ∧
      ∀ m < n, digit R' (position (k + m)) = v m := by
  obtain ⟨R', hloop, ⟨hsame, hunwritten⟩, hwritten⟩ :=
    forDigits_spec body position (fun _ => ()) (fun m => (v m : Int))
      (fun m hm R' _ => hbody m hm R') hposition hinjective
  refine ⟨R', hloop, hsame, hunwritten, fun m hm => ?_⟩
  have hv : (v m : Int) < digitBase := by exact_mod_cast hsmall m hm
  rw [hwritten m hm, Int.emod_eq_of_lt (Int.natCast_nonneg _) hv, Int.toNat_natCast]

/-! ## Normal form -/

def arrayOf (h : Heap) (x : BigInt) : List Nat := (h[x.digits]?).getD []

abbrev digitOf (h : Heap) (x : BigInt) : Nat → Nat := digit (arrayOf h x)

def magnitude (h : Heap) (x : BigInt) : Nat := digitSum digitBase (digitOf h x) x.used

def toInt (h : Heap) (x : BigInt) : Int :=
  if x.isNegative then -(magnitude h x : Int) else magnitude h x

/--
The normal form: no leading zero digit, zero is not negative, and the array has an even length with
a zero digit as padding. -/
structure Normal (h : Heap) (x : BigInt) : Prop where
  array : h[x.digits]? = some (arrayOf h x)
  small : ∀ k, digitOf h x k < digitBase
  fits : x.used ≤ (arrayOf h x).length
  even : (arrayOf h x).length % 2 = 0
  padded : x.used % 2 = 1 → digitOf h x x.used = 0
  leading : x.used ≠ 0 → digitOf h x (x.used - 1) ≠ 0
  sign : x.used = 0 → x.isNegative = false

variable {x : BigInt}

theorem Normal.small_int (hx : Normal h x) (k : Nat) :
    0 ≤ (digitOf h x k : Int) ∧ (digitOf h x k : Int) < 4294967296 := by
  have := hx.small k
  rw [← base_eq]
  omega

theorem Normal.read (hx : Normal h x) (hk : k < x.used)
    (R : List Nat) : readDigit (h ++ [R]) x.digits k = some (digitOf h x k : Int) := by
  have hlt := (List.getElem?_eq_some_iff.1 hx.array).1
  exact readDigit_of (by rw [List.getElem?_append_left hlt, hx.array]) (lt_of_lt_of_le hk hx.fits)

theorem Normal.read' (hx : Normal h x) (hk : k < x.used) :
    readDigit h x.digits k = some (digitOf h x k : Int) :=
  readDigit_of hx.array (lt_of_lt_of_le hk hx.fits)

theorem arrayOf_mono {h h' : Heap} (hh : h <+: h') (hx : Normal h x) :
    arrayOf h' x = arrayOf h x ∧ h'[x.digits]? = some (arrayOf h x) := by
  obtain ⟨t, rfl⟩ := hh
  have hlookup : (h ++ t)[x.digits]? = some (arrayOf h x) := by
    rw [List.getElem?_append_left (List.getElem?_eq_some_iff.1 hx.array).1, hx.array]
  exact ⟨by rw [arrayOf, hlookup]; rfl, hlookup⟩

theorem Normal.mono {h h' : Heap} (hh : h <+: h') (hx : Normal h x) : Normal h' x := by
  obtain ⟨harray, hlookup⟩ := arrayOf_mono hh hx
  refine ⟨?_, ?_, ?_, ?_, ?_, ?_, hx.sign⟩ <;> simp only [digitOf, harray]
  · exact hlookup
  · exact hx.small
  · exact hx.fits
  · exact hx.even
  · exact hx.padded
  · exact hx.leading

theorem magnitude_mono {h h' : Heap} (hh : h <+: h') (hx : Normal h x) :
    magnitude h' x = magnitude h x := by
  rw [magnitude, digitOf, (arrayOf_mono hh hx).1, magnitude]

theorem toInt_mono {h h' : Heap} (hh : h <+: h') (hx : Normal h x) : toInt h' x = toInt h x := by
  rw [toInt, magnitude_mono hh hx, toInt]

theorem Normal.magnitude_lt (hx : Normal h x) : magnitude h x < digitBase ^ x.used :=
  digitSum_lt fun k _ => hx.small k

theorem Normal.magnitude_ne_zero (hx : Normal h x) : magnitude h x ≠ 0 ↔ x.used ≠ 0 := by
  constructor
  · intro hne hzero
    rw [magnitude, hzero] at hne
    exact hne rfl
  · intro hne
    obtain ⟨n, hn⟩ := exists_eq_succ_of_ne_zero hne
    have hlead := hx.leading hne
    rw [hn, succ_sub_one] at hlead
    have hle : digitBase ^ n ≤ magnitude h x := by
      rw [magnitude, hn]
      exact le_digitSum hlead
    have hpos : 0 < digitBase ^ n := Nat.pow_pos base_pos
    omega

/-- A step has made a big integer with a magnitude and, unless it is zero, a sign. -/
def Yields (h : Heap) (m : Nat) (isNegative : Bool) (o : Result) : Prop :=
  ∃ r h', o = some (r, h') ∧ h <+: h' ∧ Normal h' r ∧ magnitude h' r = m ∧
    (m ≠ 0 → r.isNegative = isNegative)

theorem normalize_spec {d : Ref} (hR : h[d]? = some R) (hused : used ≤ R.length) :
    ∃ u ≤ used, normalize h d used = some u ∧ (∀ k, u ≤ k → k < used → digit R k = 0) ∧
      (u ≠ 0 → digit R (u - 1) ≠ 0) := by
  induction used with
  | zero =>
    exact ⟨0, le_refl 0, rfl, fun k _ hk => absurd hk (not_lt_zero k), fun h => absurd rfl h⟩
  | succ used ih =>
    have hread := readDigit_of hR (lt_of_succ_le hused)
    by_cases hzero : digit R used = 0
    · obtain ⟨u, hu, hnorm, hrest, hlead⟩ := ih (by omega)
      refine ⟨u, by omega, ?_, ?_, hlead⟩
      · rw [normalize, hread, hzero]
        exact hnorm
      · intro k hk hk'
        rcases Nat.lt_succ_iff_lt_or_eq.1 hk' with hk' | rfl
        · exact hrest k hk hk'
        · exact hzero
    · refine ⟨used + 1, le_refl _, ?_, fun k hk hk' => absurd hk' (by omega), fun _ => hzero⟩
      rw [normalize, hread]
      simp [hzero]

/-- The digits of a magnitude in an array of some length, with zeros above them. -/
structure Fills (length : Nat) (R : List Nat) (used m : Nat) : Prop where
  length : R.length = length
  small : ∀ k < used, digit R k < digitBase
  above : ∀ k, used ≤ k → digit R k = 0
  sum : digitSum digitBase (digit R) used = m

theorem Fills.digit_lt (hR : Fills n R used m) (k : Nat) : digit R k < digitBase := by
  by_cases hk : k < used
  · exact hR.small k hk
  · rw [hR.above k (Nat.le_of_not_lt hk)]
    exact base_pos

theorem make_spec (isNegative : Bool) (hR : Fills (n + n % 2) R used m) (hused : used ≤ n) :
    ∃ r, make (h ++ [R]) isNegative used h.length = some r ∧ Normal (h ++ [R]) r ∧
      magnitude (h ++ [R]) r = m ∧ (m ≠ 0 → r.isNegative = isNegative) := by
  have hlength := hR.length
  obtain ⟨u, hu, hnorm, hrest, hlead⟩ :=
    normalize_spec (getElem?_snoc_last h R) (show used ≤ R.length by omega)
  have harray : ∀ b, arrayOf (h ++ [R]) ⟨b, u, h.length⟩ = R := fun b => by
    rw [arrayOf, getElem?_snoc_last]
    rfl
  have hsum : digitSum digitBase (digit R) u = m := by
    rw [← hR.sum]
    obtain ⟨n, rfl⟩ := Nat.exists_eq_add_of_le hu
    exact (digitSum_extend hrest).symm
  refine ⟨⟨if u = 0 then false else isNegative, u, h.length⟩, ?_, ?_, ?_, ?_⟩
  · rw [make, hnorm]
    rfl
  · refine ⟨?_, ?_, ?_, ?_, ?_, ?_, fun hzero => if_pos hzero⟩ <;> simp only [digitOf, harray]
    · exact getElem?_snoc_last h R
    · exact hR.digit_lt
    · show u ≤ R.length
      omega
    · omega
    · intro _
      rcases lt_or_eq_of_le hu with hlt | heq
      · exact hrest u (le_refl u) hlt
      · exact hR.above u heq.ge
    · exact hlead
  · rw [magnitude, digitOf, harray, hsum]
  · intro hne
    have hu0 : u ≠ 0 := by
      rintro rfl
      exact hne hsum.symm
    exact if_neg hu0

theorem make_yields (isNegative : Bool) (hR : Fills (n + n % 2) R used m) (hused : used ≤ n) :
    Yields h m isNegative
      ((make (h ++ [R]) isNegative used h.length).bind fun r => some (r, h ++ [R])) := by
  obtain ⟨r, hmake, hrest⟩ := make_spec (h := h) isNegative hR hused
  rw [hmake, bind_some]
  exact ⟨r, h ++ [R], rfl, List.prefix_append _ _, hrest⟩

/-- An operation that fills a new array yields what the array denotes. -/
theorem yields_of_fill (isNegative : Bool) (fill : Heap → Option Heap) (hused : used ≤ n)
    (hfill : ∃ R, fill (h ++ [List.replicate (n + n % 2) 0]) = some (h ++ [R]) ∧
      Fills (n + n % 2) R used m) :
    Yields h m isNegative
      ((fill (h ++ [List.replicate (n + n % 2) 0])).bind fun h' =>
        (make h' isNegative used h.length).bind fun r => some (r, h')) := by
  obtain ⟨R, hR, hfills⟩ := hfill
  rw [hR, bind_some]
  exact make_yields isNegative hfills hused

end Dart2Wasm.BigIntImpl
