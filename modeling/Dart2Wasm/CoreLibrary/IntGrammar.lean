import Dart2Wasm.Lib.Pointwise
import Dart2Wasm.CoreLibrary.IntParse

/-!
# IntGrammar — `tryParse` decides the integer grammar

`Denotes` says which strings are integers of which value. The proof goes up the call graph: digits,
blocks, the loop over blocks (whose invariant is that the running result is the exact value of the
digits read), the table of limits, trimming, and the two entry points.
-/

namespace Dart2Wasm.IntParse

open Lib.MachineInt Lib.Positional Lib RadixCall OverflowLimits Int64 List Nat Option
open Int hiding ofNat shiftLeft_eq

variable {c d k radix n acc start stop fuel i j : Nat} {cs ds xs ys post es pre : List Nat}
  {v : Int64} {sign : Sign}
variable {multiplier : Int64} {p q : Nat → Bool}

/-! ## The grammar -/

/-- Unicode white space and the byte order mark. -/
def isSpace (c : Nat) : Bool :=
  (9 ≤ c && c ≤ 13) || c == 0x20 || c == 0x85 || c == 0xA0 || c == 0x1680 ||
    (0x2000 ≤ c && c ≤ 0x200A) || c == 0x2028 || c == 0x2029 || c == 0x202F || c == 0x205F ||
    c == 0x3000 || c == 0xFEFF

def trim (units : List Nat) : List Nat := (units.rdropWhile isSpace).dropWhile isSpace

/-- The value of a digit: `0` to `9`, then letters of either case. -/
def digitValue (radix c : Nat) : Option Nat :=
  let d :=
    if 0x30 ≤ c ∧ c ≤ 0x39 then some (c - 0x30)
    else if 0x61 ≤ c ∧ c ≤ 0x7a then some (c - 0x61 + 10)
    else if 0x41 ≤ c ∧ c ≤ 0x5a then some (c - 0x41 + 10)
    else none
  d.filter (· < radix)

def Numeral (radix : Nat) (chars : List Nat) (n : Nat) : Prop :=
  chars ≠ [] ∧ ∃ ds, chars.mapM (digitValue radix) = some ds ∧ n = value radix ds

inductive Sign
  | absent
  | plus
  | minus
  deriving DecidableEq

def Sign.chars : Sign → List Nat
  | .absent => []
  | .plus => [0x2b]
  | .minus => [0x2d]

def Sign.factor : Sign → Int
  | .absent => 1
  | .plus => 1
  | .minus => -1

def InInt64 (n : Int) : Prop := -2 ^ 63 ≤ n ∧ n < 2 ^ 63

/-- `units` is an integer of value `v` in the given radix; without one it is decimal or, after `0x`,
hexadecimal, where an integer without minus may use all 64 bits. -/
def Denotes (radix : Option Int) (units : List Nat) (v : Int64) : Prop :=
  (∃ sign digits n, trim units = Sign.chars sign ++ digits ∧
    Numeral (radix.getD 10).toNat digits n ∧ InInt64 (sign.factor * n) ∧
    v = Int64.ofInt (sign.factor * n)) ∨
  (radix = none ∧ ∃ sign x digits n, trim units = Sign.chars sign ++ 0x30 :: x :: digits ∧
    (x = 0x78 ∨ x = 0x58) ∧ Numeral 16 digits n ∧
    (InInt64 (sign.factor * n) ∨ sign ≠ .minus ∧ n < 2 ^ 64) ∧
    v = Int64.ofInt (sign.factor * n))

/-! ## Digits -/

theorem xor_zero_char (hd : d < 16) : c ^^^ 0x30 = d ↔ c = 0x30 + d := by
  have hsum : ∀ d < 16, 0x30 + d = d ^^^ 0x30 := by decide
  rw [hsum d hd]
  constructor
  · rintro rfl
    rw [Nat.xor_assoc, Nat.xor_self, Nat.xor_zero]
  · rintro rfl
    rw [Nat.xor_assoc, Nat.xor_self, Nat.xor_zero]

theorem or_case_char (hk : 10 ≤ k) (hk' : k < 36) :
    c ||| 0x20 = k + 87 ↔ c = k + 87 ∨ c = k + 55 := by
  have hsmall : ∀ c < 128, ∀ k < 36, 10 ≤ k →
      (c ||| 0x20 = k + 87 ↔ c = k + 87 ∨ c = k + 55) := by decide +kernel
  by_cases hc : c < 128
  · exact hsmall c hc k hk' hk
  · have hle : c ≤ c ||| 0x20 := left_le_or
    constructor <;> omega

def IsDigit (radix c d : Nat) : Prop :=
  d < radix ∧ ((d < 10 ∧ c = 0x30 + d) ∨ (10 ≤ d ∧ (c = d + 87 ∨ c = d + 55)))

theorem digitValue_eq_some (hr : radix ≤ 36) : digitValue radix c = some d ↔ IsDigit radix c d := by
  unfold digitValue IsDigit
  simp only [filter_eq_some_iff, decide_eq_true_eq]
  split
  · simp only [some.injEq]
    omega
  split
  · simp only [some.injEq]
    omega
  · split
    · simp only [some.injEq]
      omega
    · simp only [reduceCtorEq, false_and, false_iff]
      omega

theorem blockDigit_eq_some (hr : 2 ≤ radix ∧ radix ≤ 36) :
    blockDigit radix c = some d ↔ IsDigit radix c d := by
  unfold blockDigit IsDigit
  by_cases hten : radix ≤ 10
  · simp only [if_pos hten]
    constructor
    · intro h
      by_cases hge : c ^^^ 0x30 ≥ radix
      · simp [hge] at h
      · have hd : c ^^^ 0x30 = d := by simpa [hge] using h
        have := (xor_zero_char (by omega)).1 hd
        omega
    · intro h
      have hd : c ^^^ 0x30 = d := (xor_zero_char (by omega)).2 (by omega)
      rw [hd, if_neg (by omega)]
  · simp only [if_neg hten]
    by_cases hdec : c ^^^ 0x30 > 9
    · -- a letter: setting bit 5 makes it lower case
      rw [if_pos hdec]
      have hnot : ∀ e < 10, c ≠ 0x30 + e := by
        intro e he hc
        have := (xor_zero_char (by omega)).2 hc
        omega
      constructor
      · intro h
        split at h
        · exact absurd h (by simp)
        · rename_i hrange
          have hd := some.inj h
          have hlow := (or_case_char (c := c) (k := d) (by omega) (by omega)).1 (by omega)
          exact ⟨by omega, .inr ⟨by omega, hlow⟩⟩
      · rintro ⟨hlt, ⟨hd, hc⟩ | ⟨hd, hc⟩⟩
        · exact absurd hc (hnot d hd)
        · have hor := (or_case_char hd (by omega)).2 hc
          rw [hor, if_neg (by omega)]
          congr 1
          omega
    · rw [if_neg hdec]
      have hc : c = 0x30 + (c ^^^ 0x30) := (xor_zero_char (by omega)).1 rfl
      simp only [some.injEq]
      omega

/-- The bit tricks of `_parseBlock` read digits. -/
theorem blockDigit_eq (hr : 2 ≤ radix ∧ radix ≤ 36) (c : Nat) :
    blockDigit radix c = digitValue radix c := by
  ext d
  rw [blockDigit_eq_some hr, digitValue_eq_some hr.2]

/-! ## Sequences of digits -/

section Digits

variable {f : Nat → Option Nat}

theorem mapM_cons_eq_some :
    (c :: cs).mapM f = some ds ↔ ∃ d ds', f c = some d ∧ cs.mapM f = some ds' ∧ ds = d :: ds' := by
  simp [mapM_cons, bind_eq_some_iff, eq_comm (a := ds)]

theorem mapM_append_eq_some :
    (xs ++ ys).mapM f = some ds ↔
      ∃ es gs, xs.mapM f = some es ∧ ys.mapM f = some gs ∧ ds = es ++ gs := by
  simp [mapM_append, bind_eq_some_iff, eq_comm (a := ds)]

theorem mapM_cons_of_some (hd : f c = some d) : (c :: cs).mapM f = (cs.mapM f).map (d :: ·) := by
  simp [mapM_cons, hd, map_eq_bind]

end Digits

theorem value_lt_of_mapM (hr : radix ≤ 36) {chars : List Nat}
    (h : chars.mapM (digitValue radix) = some ds) : value radix ds < radix ^ chars.length := by
  have hdigits := mapM_eq_some_iff.1 h
  rw [hdigits.length_eq]
  apply value_lt
  intro d hd
  obtain ⟨c, -, hc⟩ := forall₂_exists_mem hdigits.flip hd
  exact ((digitValue_eq_some hr).1 hc).1

/-! ## Blocks -/

theorem smiBits_pow_le (has63BitSmis : Bool) : 2 ^ smiBits has63BitSmis ≤ 2 ^ 62 := by
  cases has63BitSmis <;> decide

variable {has63BitSmis : Bool}

theorem asSmi_ofNat (hn : n < 2 ^ smiBits has63BitSmis) :
    asSmi has63BitSmis (ofNat n) = .ok (ofNat n) := by
  have hle := smiBits_pow_le has63BitSmis
  have hvalue := toInt_ofNat_of_lt (n := n) (by omega)
  have hbound : (n : Int) < 2 ^ smiBits has63BitSmis := by exact_mod_cast hn
  have hpos : (0 : Int) < 2 ^ smiBits has63BitSmis := Int.pow_pos (by decide)
  rw [asSmi, if_pos]
  omega

/-- A block whose value fits a small integer is read exactly. -/
theorem parseBlockLoop_eq (hr : 2 ≤ radix ∧ radix ≤ 36) {chars : List Nat} (hacc : acc < radix ^ k)
    (hfits : radix ^ (k + chars.length) ≤ 2 ^ smiBits has63BitSmis) :
    parseBlockLoop has63BitSmis radix (Int64.ofNat acc) chars
      = .ok ((chars.mapM (digitValue radix)).map fun ds =>
          Int64.ofNat (acc * radix ^ ds.length + value radix ds)) := by
  induction chars generalizing acc k with
  | nil =>
    have hvalue : acc * radix ^ ([] : List Nat).length + value radix [] = acc := by simp [value]
    simp only [parseBlockLoop, mapM_nil, Option.pure_def, Option.map_some, hvalue]
  | cons c cs ih =>
    cases hd : digitValue radix c with
    | none =>
      have hnone : (c :: cs).mapM (digitValue radix) = none := by simp [mapM_cons, hd]
      simp only [parseBlockLoop, blockDigit_eq hr, hd, hnone, Option.map_none]
    | some d =>
      have hlt : d < radix := ((digitValue_eq_some hr.2).1 hd).1
      have hnext : radix * acc + d < radix ^ (k + 1) := by
        calc
          radix * acc + d < radix * (acc + 1) := by rw [Nat.mul_add, Nat.mul_one]; omega
          _ ≤ radix * radix ^ k := Nat.mul_le_mul_left radix hacc
          _ = radix ^ (k + 1) := by rw [Nat.pow_succ, Nat.mul_comm]
      have hpow : radix ^ (k + 1) ≤ 2 ^ smiBits has63BitSmis := by
        apply Nat.le_trans _ hfits
        apply Nat.pow_le_pow_right (by omega)
        rw [length_cons]
        omega
      have harith : ofNat radix * ofNat acc + ofNat d
          = ofNat (radix * acc + d) := by
        rw [ofNat_add, ofNat_mul]
      have hrec := ih hnext (by
        rwa [Nat.add_right_comm, Nat.add_assoc])
      simp only [parseBlockLoop, blockDigit_eq hr, hd, harith,
        asSmi_ofNat (Nat.lt_of_lt_of_le hnext hpow), ok_bind, hrec, mapM_cons_of_some hd,
        Option.map_map, Function.comp_def, value_step]

variable {units : List Nat} {result smi : Int64} {lim : OverflowLimits}

theorem slice_length (hstop : stop ≤ units.length) :
    (slice units start stop).length = stop - start := by
  rw [slice, length_drop, length_take, min_eq_left hstop]

theorem slice_append {mid : Nat} (hstop : stop ≤ units.length)
    (hmid : start ≤ mid) (hmid' : mid ≤ stop) :
    slice units start stop = slice units start mid ++ slice units mid stop := by
  have htake : units.take mid = (units.take stop).take mid := by
    rw [take_take, Nat.min_eq_left hmid']
  have hlength : ((units.take stop).take mid).length = mid := by
    rw [length_take, length_take, Nat.min_eq_left hstop, Nat.min_eq_left hmid']
  unfold slice
  rw [htake]
  conv_lhs => rw [← take_append_drop mid (units.take stop)]
  rw [drop_append, hlength, Nat.sub_eq_zero_of_le hmid, drop_zero]

/-- The rows of `_PARSE_LIMITS`: the magnitude is the power it is meant to be, and fits. -/
theorem parseLimits_row : ∀ (has63BitSmis : Bool), ∀ radix ≤ 36, 2 ≤ radix →
    0 < parseLimits.getD (tableIndex has63BitSmis radix) 0 ∧
      parseLimits.getD (tableIndex has63BitSmis radix + 1) 0
        = radix ^ parseLimits.getD (tableIndex has63BitSmis radix) 0 ∧
      radix ^ parseLimits.getD (tableIndex has63BitSmis radix) 0 ≤ 2 ^ smiBits has63BitSmis := by
  decide +kernel

/-- What `_parse` passes to `_parseRadix`. -/
structure RadixCall.Valid (c : RadixCall) : Prop where
  radix_ge : 2 ≤ c.radix
  radix_le : c.radix ≤ 36
  sign_eq : c.sign = 1 ∨ c.sign = -1
  hex : c.allowU64 = true → c.radix = 16 ∧ c.sign = 1
  stop_le : c.stop ≤ c.source.units.length

def RadixCall.magnitude (c : RadixCall) : Nat := c.radix ^ c.blockSize

namespace RadixCall.Valid

variable {c : RadixCall} (hc : c.Valid)
include hc

theorem blockSize_pos : 0 < c.blockSize :=
  (parseLimits_row c.has63BitSmis c.radix hc.radix_le hc.radix_ge).1

theorem magnitude_le : c.magnitude ≤ 2 ^ smiBits c.has63BitSmis :=
  (parseLimits_row c.has63BitSmis c.radix hc.radix_le hc.radix_ge).2.2

theorem magnitude_bounds : 2 ≤ c.magnitude ∧ c.magnitude ≤ 2 ^ 62 := by
  refine ⟨?_, hc.magnitude_le.trans (smiBits_pow_le _)⟩
  calc
    2 ≤ c.radix := hc.radix_ge
    _ = c.radix ^ 1 := (pow_one _).symm
    _ ≤ c.radix ^ c.blockSize := Nat.pow_le_pow_right
      (by have := hc.radix_ge; omega) hc.blockSize_pos

theorem multiplier_eq : c.multiplier = ofNat c.magnitude :=
  congrArg ofNat (parseLimits_row c.has63BitSmis c.radix hc.radix_le hc.radix_ge).2.1

theorem multiplier_toInt : c.multiplier.toInt = c.magnitude := by
  rw [hc.multiplier_eq, toInt_ofNat_of_lt]
  have := hc.magnitude_bounds
  omega

theorem block_cases (hlen : (slice c.source.units start stop).length ≤ c.blockSize) :
    ((slice c.source.units start stop).mapM (digitValue c.radix) = none ∧
      ∃ p, c.block start stop = .error (.format p)) ∨
    ∃ ds, (slice c.source.units start stop).mapM (digitValue c.radix) = some ds ∧
      c.block start stop = .ok (Int64.ofNat (value c.radix ds)) ∧
      value c.radix ds < c.magnitude := by
  have hpow := Nat.pow_le_pow_right (by have := hc.radix_ge; omega : c.radix > 0) hlen
  have hloop := @parseBlockLoop_eq 0 c.radix 0 c.has63BitSmis ⟨hc.radix_ge, hc.radix_le⟩
    (slice c.source.units start stop) (by simp)
    (by
      rw [Nat.zero_add]
      exact hpow.trans hc.magnitude_le)
  have hzero : ofNat 0 = 0 := rfl
  rw [hzero] at hloop
  rw [block, parseBlock, hloop, ok_bind]
  cases hdigits : (slice c.source.units start stop).mapM (digitValue c.radix) with
  | none => exact .inl ⟨rfl, _, rfl⟩
  | some ds =>
    refine .inr ⟨ds, rfl, ?_, Nat.lt_of_lt_of_le (value_lt_of_mapM hc.radix_le hdigits) hpow⟩
    simp only [map_some, Nat.zero_mul, Nat.zero_add]
    rfl

end RadixCall.Valid

/-! ## Limits -/

/-- The limits are quotients and remainders of the bounds of the 64-bit range. -/
structure LimitsFor (lim : OverflowLimits) (m : Nat) : Prop where
  positive : lim.positive.toInt = ((2 ^ 63 - 1) / m : Nat)
  negative : lim.negative.toInt = -((2 ^ 63 / m : Nat) : Int)
  positiveSmi : lim.positiveSmi.toInt = ((2 ^ 63 - 1) % m : Nat)
  negativeSmi : lim.negativeSmi.toInt = (2 ^ 63 % m : Nat)

/-! ## The loop over blocks -/

/-- The reading returns a value that satisfies `P`, or fails with a format error because none
does. -/
def Decides (r : Except Problem Int64) (P : Int64 → Prop) : Prop :=
  (∃ v, r = .ok v ∧ P v) ∨ (∃ p, r = .error (.format p) ∧ ∀ v, ¬ P v)

/-- What `_parseRadix` is to return for the digits `chars`. -/
def RadixCall.Value (c : RadixCall) (chars : List Nat) (v : Int64) : Prop :=
  ∃ n, Numeral c.radix chars n ∧
    (InInt64 (c.sign.toInt * n) ∨ (c.allowU64 = true ∧ n < 2 ^ 64)) ∧
    v = Int64.ofInt (c.sign.toInt * n)

section Loop

variable {c : RadixCall}

theorem RadixCall.not_value_of_block (pre : List Nat) {block : List Nat}
    (hblock : block.mapM (digitValue c.radix) = none) (v : Int64) :
    ¬ c.Value (pre ++ (block ++ post)) v := by
  rintro ⟨n, ⟨-, ds, hds, -⟩, -⟩
  obtain ⟨es, gs, -, hgs, -⟩ := mapM_append_eq_some.1 hds
  obtain ⟨es', gs', hes', -, -⟩ := mapM_append_eq_some.1 hgs
  rw [hblock] at hes'
  exact absurd hes' (by simp)

theorem le_of_numeral_append (hr : 2 ≤ radix)
    (hes : xs.mapM (digitValue radix) = some es) (h : Numeral radix (xs ++ ys) n) :
    value radix es * radix ^ ys.length ≤ n ∧ value radix es ≤ n := by
  obtain ⟨-, ds, hds, rfl⟩ := h
  obtain ⟨es', gs, hes', hgs, rfl⟩ := mapM_append_eq_some.1 hds
  obtain rfl : es = es' := some.inj (hes.symm.trans hes')
  have hle := value_mul_le_append (b := radix) es gs
  rw [← (mapM_eq_some_iff.1 hgs).length_eq] at hle
  refine ⟨hle, le_trans ?_ hle⟩
  exact Nat.le_mul_of_pos_right _ (Nat.pow_pos (by omega))

section

variable (hc : c.Valid)
include hc

theorem RadixCall.Valid.unsigned_limits (hu : c.allowU64 = true) :
    (int64UnsignedOverflowLimit c.has63BitSmis).toInt = ((2 ^ 64 - 1) / c.magnitude : Nat) ∧
      (int64UnsignedSmiOverflowLimit c.has63BitSmis).toInt
        = ((2 ^ 64 - 1) % c.magnitude : Nat) := by
  have hrow : ∀ b : Bool,
      (int64UnsignedOverflowLimit b).toInt
        = ((2 ^ 64 - 1) / 16 ^ parseLimits.getD (tableIndex b 16) 0 : Nat) ∧
      (int64UnsignedSmiOverflowLimit b).toInt
        = ((2 ^ 64 - 1) % 16 ^ parseLimits.getD (tableIndex b 16) 0 : Nat) := by
    decide +kernel
  rw [magnitude, blockSize, (hc.hex hu).1]
  exact hrow c.has63BitSmis

theorem RadixCall.Valid.unsigned_excess_iff (hu : c.allowU64 = true) {N E : Nat}
    (hE : E < c.magnitude) (hresult : result.toInt = N) (hsmi : smi.toInt = E) :
    (¬ (result ≥ int64UnsignedOverflowLimit c.has63BitSmis ∧
      (result > int64UnsignedOverflowLimit c.has63BitSmis ∨
        smi > int64UnsignedSmiOverflowLimit c.has63BitSmis))) ↔
      N * c.magnitude + E < 2 ^ 64 := by
  obtain ⟨hlimit, hsmiLimit⟩ := hc.unsigned_limits hu
  have hbound : N * c.magnitude + E < 2 ^ 64 ↔ N * c.magnitude + E ≤ 2 ^ 64 - 1 := by omega
  simp only [ge_iff_le, gt_iff_lt, le_iff_toInt_le, lt_iff_toInt_lt, hresult, hsmi,
    hlimit, hsmiLimit, hbound, mul_add_le_iff hE]
  generalize (2 ^ 64 - 1) / c.magnitude = p
  generalize (2 ^ 64 - 1) % c.magnitude = r
  omega

theorem RadixCall.Valid.sign_toInt : c.sign.toInt = 1 ∨ c.sign.toInt = -1 := by
  rcases hc.sign_eq with h | h
  · exact .inl (by rw [h]; rfl)
  · exact .inr (by rw [h]; rfl)

/-- The tests of the loop find whether the next result is a 64-bit integer. -/
theorem RadixCall.Valid.excess_spec (hlim : LimitsFor lim c.magnitude) {N E : Nat}
    (hE : E < c.magnitude) (hresult : result.toInt = c.sign.toInt * N) (hsmi : smi.toInt = E) :
    (InInt64 (c.sign.toInt * (N * c.magnitude + E : Nat)) ∧ lim.excess result smi = .none) ∨
    (2 ^ 63 ≤ N * c.magnitude + E ∧ c.sign.toInt = 1 ∧ lim.excess result smi = .positive) ∨
    (2 ^ 63 < N * c.magnitude + E ∧ c.sign.toInt = -1 ∧ lim.excess result smi = .negative) := by
  have hm := hc.magnitude_bounds
  have hp : 0 < (2 ^ 63 - 1) / c.magnitude := div_pos (by omega) (by omega)
  have hq : 0 < 2 ^ 63 / c.magnitude := div_pos (by omega) (by omega)
  have hmax : N * c.magnitude + E ≤ 2 ^ 63 - 1 ↔ _ := mul_add_le_iff hE
  have hmin : N * c.magnitude + E ≤ 2 ^ 63 ↔ _ := mul_add_le_iff hE
  simp only [excess, ge_iff_le, gt_iff_lt, le_iff_toInt_le,
    lt_iff_toInt_lt, hresult, hsmi, hlim.positive, hlim.negative, hlim.positiveSmi,
    hlim.negativeSmi, InInt64]
  generalize (2 ^ 63 - 1) / c.magnitude = p at *
  generalize (2 ^ 63 - 1) % c.magnitude = r at *
  generalize 2 ^ 63 / c.magnitude = q at *
  generalize 2 ^ 63 % c.magnitude = r' at *
  generalize N * c.magnitude + E = next at *
  rcases hc.sign_toInt with hsign | hsign
  · rw [hsign]
    by_cases hfits : next ≤ 2 ^ 63 - 1
    · refine .inl ⟨by omega, ?_⟩
      by_cases hge : (p : Int) ≤ 1 * N
      · rw [if_pos hge, if_neg (by omega)]
      · rw [if_neg hge, if_neg (by omega)]
    · refine .inr (.inl ⟨by omega, rfl, ?_⟩)
      rw [if_pos (by omega), if_pos (by omega)]
  · rw [hsign, if_neg (by omega)]
    by_cases hfits : next ≤ 2 ^ 63
    · refine .inl ⟨by omega, ?_⟩
      by_cases hge : -1 * (N : Int) ≤ -(q : Int)
      · rw [if_pos hge, if_neg (by omega)]
      · rw [if_neg hge]
    · refine .inr (.inr ⟨by omega, rfl, ?_⟩)
      rw [if_pos (by omega), if_pos (by omega)]

theorem RadixCall.Valid.sign_mul_toInt (hn : n < 2 ^ 63) :
    (c.sign * ofNat n).toInt = c.sign.toInt * n := by
  refine toInt_mul_eq rfl (toInt_ofNat_of_lt hn) ?_
  rcases hc.sign_toInt with h | h <;> rw [h] <;> omega

/-- One more block: the next result is exact if it is a 64-bit integer. -/
theorem RadixCall.Valid.next_toInt {N E : Nat} (hresult : result.toInt = c.sign.toInt * N)
    (hsmi : smi.toInt = E) (hfits : InInt64 (c.sign.toInt * (N * c.magnitude + E : Nat))) :
    (result * c.multiplier + c.sign * smi).toInt
      = c.sign.toInt * (N * c.magnitude + E : Nat) := by
  have hexact : c.sign.toInt * ((N * c.magnitude + E : Nat) : Int)
      = result.toInt * c.multiplier.toInt + c.sign.toInt * smi.toInt := by
    rw [hresult, hsmi, hc.multiplier_toInt]
    push_cast
    ring
  have hwrap : result * c.multiplier + c.sign * smi
      = ofInt (c.sign.toInt * (N * c.magnitude + E : Nat)) := by
    rw [hexact, ofInt_add, ofInt_mul, ofInt_mul, ofInt_toInt, ofInt_toInt, ofInt_toInt, ofInt_toInt]
  rw [hwrap, toInt_ofInt_of_le hfits.1 hfits.2]

/-- Beyond the largest integer only the last block of an unsigned literal is accepted. -/
theorem RadixCall.Valid.positive_decides {chars : List Nat}
    (hne : chars ≠ []) (hes : chars.mapM (digitValue c.radix) = some es)
    (hexcess : 2 ^ 63 ≤ value c.radix es) (hsign : c.sign.toInt = 1)
    (hpost : post.length = k * c.blockSize) {last : Prop} [Decidable last]
    {p : FormatProblem} (hlast : last ↔ c.allowU64 = true ∧ value c.radix es < 2 ^ 64 ∧ k = 0)
    (hv : last → v = Int64.ofInt (value c.radix es)) :
    Decides (if last then pure v else .error (.format p)) (c.Value (chars ++ post)) := by
  by_cases h : last
  · obtain ⟨hu, hlt, rfl⟩ := hlast.1 h
    obtain rfl : post = [] := by
      rw [Nat.zero_mul] at hpost
      exact length_eq_zero_iff.1 hpost
    rw [if_pos h, append_nil]
    refine .inl ⟨v, rfl, value c.radix es, ⟨hne, es, hes, rfl⟩, .inr ⟨hu, hlt⟩, ?_⟩
    rw [hsign, Int.one_mul, hv h]
  · rw [if_neg h]
    refine .inr ⟨p, rfl, ?_⟩
    rintro w ⟨n, hn, hfits, -⟩
    obtain ⟨hmul, hle⟩ := le_of_numeral_append hc.radix_ge hes hn
    rcases hfits with hfits | ⟨hu, hlt⟩
    · rw [hsign, Int.one_mul] at hfits
      have := hfits.2
      omega
    apply h
    refine hlast.2 ⟨hu, by omega, ?_⟩
    -- another block would multiply the value by at least two
    by_contra hk
    have hmagnitude : c.magnitude ≤ c.radix ^ post.length := by
      apply Nat.pow_le_pow_right (by have := hc.radix_ge; omega)
      rw [hpost]
      exact Nat.le_mul_of_pos_left _ (Nat.pos_of_ne_zero hk)
    have htwo := hc.magnitude_bounds.1
    have : 2 ^ 63 * 2 ≤ n := by
      calc
        2 ^ 63 * 2 ≤ value c.radix es * c.radix ^ post.length :=
          Nat.mul_le_mul hexcess (htwo.trans hmagnitude)
        _ ≤ n := hmul
    omega

/-- One block: the loop is decided, or it goes on with the exact value of one more block. -/
theorem parseBlocks_step (hlim : LimitsFor lim c.magnitude)
    (k fuel : Nat) (hpre : pre.mapM (digitValue c.radix) = some ds)
    (hresult : result.toInt = c.sign.toInt * value c.radix ds)
    (hstop : start + (k + 1) * c.blockSize = c.stop) :
    Decides (parseBlocks c lim (fuel + 1) result start)
      (c.Value (pre ++ slice c.source.units start c.stop)) ∨
    ∃ es next, (pre ++ slice c.source.units start (start + c.blockSize)).mapM (digitValue c.radix)
        = some es ∧
      next.toInt = c.sign.toInt * value c.radix es ∧ InInt64 (c.sign.toInt * value c.radix es) ∧
      parseBlocks c lim (fuel + 1) result start
        = if start + c.blockSize + c.blockSize ≤ c.stop then
            parseBlocks c lim fuel next (start + c.blockSize)
          else pure next := by
  have hpos := hc.blockSize_pos
  rw [Nat.add_mul, Nat.one_mul] at hstop
  have hend : start + c.blockSize ≤ c.stop := by omega
  have hunits := hc.stop_le
  have hblock : (slice c.source.units start (start + c.blockSize)).length = c.blockSize := by
    rw [slice_length (by omega)]
    omega
  have hpost : (slice c.source.units (start + c.blockSize) c.stop).length = k * c.blockSize := by
    rw [slice_length hunits]
    omega
  rw [slice_append hunits (le_add_right start c.blockSize) hend]
  rcases hc.block_cases hblock.le with ⟨hdigits, p, hread⟩ | ⟨es, hdigits, hread, hE⟩
  · left
    simp only [parseBlocks, hread, error_bind]
    exact .inr ⟨p, rfl, not_value_of_block pre hdigits⟩
  have hlength := (mapM_eq_some_iff.1 hdigits).length_eq
  have hsmi : (ofNat (value c.radix es)).toInt = value c.radix es :=
    toInt_ofNat_of_lt (by have := hc.magnitude_bounds; omega)
  have hall : (pre ++ slice c.source.units start (start + c.blockSize)).mapM
      (digitValue c.radix) = some (ds ++ es) :=
    mapM_append_eq_some.2 ⟨ds, es, hpre, hdigits, rfl⟩
  have hvalue : value c.radix (ds ++ es) = value c.radix ds * c.magnitude + value c.radix es := by
    rw [value_append, ← hlength, hblock]
    rfl
  have hne : pre ++ slice c.source.units start (start + c.blockSize) ≠ [] := by
    intro hnil
    have := congrArg length hnil
    rw [length_append, hblock, length_nil] at this
    omega
  rw [← append_assoc]
  rcases hc.excess_spec hlim hE hresult hsmi with
    ⟨hfits, hexcess⟩ | ⟨hlarge, hsign, hexcess⟩ | ⟨hlarge, hsign, hexcess⟩
  · refine .inr ⟨ds ++ es,
      result * c.multiplier + c.sign * ofNat (value c.radix es), hall, ?_, ?_, ?_⟩
    · rw [hvalue]
      exact hc.next_toInt hresult hsmi hfits
    · rwa [hvalue]
    · simp only [parseBlocks, hread, ok_bind, hexcess]
  · left
    simp only [parseBlocks, hread, ok_bind, hexcess]
    rw [hsign, Int.one_mul] at hresult
    apply hc.positive_decides hne hall (by rwa [hvalue]) hsign hpost
    · rw [hvalue]
      constructor
      · rintro ⟨hu, hnot, hlast⟩
        refine ⟨hu, (hc.unsigned_excess_iff hu hE hresult hsmi).1 hnot, ?_⟩
        -- a further block would end before `stop`
        rcases Nat.eq_zero_or_pos k with hk | hk
        · exact hk
        · have := Nat.le_mul_of_pos_left c.blockSize hk
          omega
      · rintro ⟨hu, hlt, rfl⟩
        exact ⟨hu, (hc.unsigned_excess_iff hu hE hresult hsmi).2 hlt, by omega⟩
    · intro _
      rw [hvalue, natCast_add, natCast_mul, ← hresult, ← hsmi, ← hc.multiplier_toInt,
        ofInt_add, ofInt_mul, ofInt_toInt, ofInt_toInt,
        ofInt_toInt]
  · left
    simp only [parseBlocks, hread, ok_bind, hexcess]
    refine .inr ⟨_, rfl, ?_⟩
    rintro w ⟨n, hn, hfits, -⟩
    have hle := (le_of_numeral_append hc.radix_ge hall hn).2
    rcases hfits with hfits | ⟨hu, -⟩
    · rw [hsign] at hfits
      have := hfits.1
      omega
    · have hone : c.sign.toInt = 1 := by
        rw [(hc.hex hu).2]
        rfl
      omega

/-- The invariant of the loop: the result so far is the exact value of the digits `pre` read so
far, and full blocks remain. -/
theorem parseBlocks_decides (hlim : LimitsFor lim c.magnitude)
    (hfuel : k < fuel) (hpre : pre.mapM (digitValue c.radix) = some ds)
    (hresult : result.toInt = c.sign.toInt * value c.radix ds)
    (hstop : start + (k + 1) * c.blockSize = c.stop) :
    Decides (parseBlocks c lim fuel result start)
      (c.Value (pre ++ slice c.source.units start c.stop)) := by
  induction fuel generalizing k pre ds result start with
  | zero => omega
  | succ fuel ih =>
    have hpos := hc.blockSize_pos
    rcases parseBlocks_step hc hlim k fuel hpre hresult hstop with
      h | ⟨es, next, hes, hnext, hfits, heq⟩
    · exact h
    cases k with
    | zero =>
      have hend : start + c.blockSize = c.stop := by rw [← hstop, Nat.zero_add, Nat.one_mul]
      rw [if_neg (by omega)] at heq
      rw [hend] at hes
      refine .inl ⟨next, heq, value c.radix es, ⟨?_, es, hes, rfl⟩, .inl hfits, ?_⟩
      · intro hnil
        have := congrArg length hnil
        rw [length_append, slice_length hc.stop_le, length_nil] at this
        omega
      · rw [← hnext, ofInt_toInt]
    | succ k =>
      have hend : start + c.blockSize + (k + 1) * c.blockSize = c.stop := by
        rw [← hstop]
        ring
      have hmore : start + c.blockSize + c.blockSize ≤ c.stop := by
        have := Nat.le_mul_of_pos_left c.blockSize (by omega : 0 < k + 1)
        omega
      rw [heq, if_pos hmore, slice_append hc.stop_le (le_add_right start c.blockSize)
        (by omega), ← append_assoc]
      exact ih (by omega) hes hnext hend

end

/-! ## `_parseRadix` -/

theorem smallBlockSize_eq {blockSize : Nat} (hpos : 0 < blockSize)
    (hfuel : n ≤ fuel) : smallBlockSize blockSize fuel n = n % blockSize := by
  induction fuel generalizing n with
  | zero =>
    obtain rfl : n = 0 := le_zero.1 hfuel
    rfl
  | succ fuel ih =>
    by_cases hge : n ≥ blockSize
    · rw [smallBlockSize, if_pos hge, ih (by omega), ← mod_eq_sub_mod hge]
    · rw [smallBlockSize, if_neg hge, mod_eq_of_lt (by omega)]

/-- The short first block, possibly empty, is read exactly. -/
theorem RadixCall.Valid.firstBlock_spec (hc : c.Valid) (hstart : start ≤ c.stop) :
    (∃ p, c.firstBlock start = .error (.format p) ∧
      ∀ v, ¬ c.Value (slice c.source.units start c.stop) v) ∨
    ∃ result mid ds, c.firstBlock start = .ok (result, mid) ∧
      mid = start + (c.stop - start) % c.blockSize ∧
      (slice c.source.units start mid).mapM (digitValue c.radix) = some ds ∧
      result.toInt = c.sign.toInt * value c.radix ds := by
  have hpos := hc.blockSize_pos
  have hunits := hc.stop_le
  have hsmall := smallBlockSize_eq hpos (le_refl (c.stop - start))
  have hmod := mod_lt (c.stop - start) hpos
  have hmodle := mod_le (c.stop - start) c.blockSize
  unfold firstBlock
  simp only [hsmall]
  by_cases hzero : (c.stop - start) % c.blockSize > 0
  · rw [if_pos hzero]
    have hlength : (slice c.source.units start (start + (c.stop - start) % c.blockSize)).length
        ≤ c.blockSize := by
      rw [slice_length (by omega)]
      omega
    rcases hc.block_cases hlength with ⟨hdigits, p, hread⟩ | ⟨ds, hdigits, hread, hlt⟩
    · left
      simp only [hread, error_bind]
      refine ⟨p, rfl, ?_⟩
      intro v
      rw [slice_append hunits (le_add_right start _) (by omega :
        start + (c.stop - start) % c.blockSize ≤ c.stop)]
      exact not_value_of_block [] hdigits v
    · right
      simp only [hread, ok_bind]
      refine ⟨_, _, ds, rfl, rfl, hdigits, ?_⟩
      exact hc.sign_mul_toInt (by have := hc.magnitude_bounds; omega)
  · rw [if_neg hzero]
    right
    have hmid : start + (c.stop - start) % c.blockSize = start := by omega
    refine ⟨0, start, [], rfl, hmid.symm, ?_, ?_⟩
    · have hnil : slice c.source.units start start = [] := by
        apply length_eq_zero_iff.1
        rw [slice_length (by omega), Nat.sub_self]
      rw [hnil]
      rfl
    · simp [value]

end Loop

/-! ### The table of limits -/

def limitsIndex (has63BitSmis : Bool) (radix : Nat) : Nat := tableIndex has63BitSmis radix <<< 1

/-- The table holds, for each radix, nothing or the limits of its blocks. -/
structure LimitsOk (has63BitSmis : Bool) (limits : List Int64) : Prop where
  length_eq : limits.length = 280
  row : ∀ radix, 2 ≤ radix → radix ≤ 36 →
    limits.getD (limitsIndex has63BitSmis radix) 0 = 0 ∨
    LimitsFor (OverflowLimits.read limits (limitsIndex has63BitSmis radix))
      (radix ^ parseLimits.getD (tableIndex has63BitSmis radix) 0)

theorem limitsOk_initial (has63BitSmis : Bool) : LimitsOk has63BitSmis initialLimits := by
  have hlength : parseLimits.length = 140 := by decide +kernel
  refine ⟨by rw [initialLimits, length_replicate, hlength], fun radix _ _ => .inl ?_⟩
  rw [initialLimits, getD_eq_getElem?_getD, getElem?_replicate]
  split <;> rfl

theorem limitsIndex_eq (has63BitSmis : Bool) (radix : Nat) :
    limitsIndex has63BitSmis radix = (radix - 2) * 8 + (if has63BitSmis then 4 else 0) := by
  rw [limitsIndex, tableIndex, shiftLeft_eq]
  cases has63BitSmis
  · simp
    omega
  · simp
    omega

variable {limits : List Int64} {c : Nat}

theorem LimitsOk.index_lt (h : LimitsOk has63BitSmis limits) (hr : radix ≤ 36) :
    limitsIndex has63BitSmis radix + 3 < limits.length := by
  rw [h.length_eq, limitsIndex_eq]
  split <;> omega

theorem getD_set_self (hi : i < limits.length) (v : Int64) : (limits.set i v).getD i 0 = v := by
  rw [getD_eq_getElem?_getD, getElem?_set_self hi, getD_some]

theorem getD_set_ne (hij : i ≠ j) (v : Int64) : (limits.set i v).getD j 0 = limits.getD j 0 := by
  rw [getD_eq_getElem?_getD, getElem?_set_ne hij, getD_eq_getElem?_getD]

theorem read_init (hi : i + 3 < limits.length) (multiplier : Int64) :
    read (initInt64OverflowLimits limits i multiplier) i =
      ⟨maxValue / multiplier, minValue / multiplier,
        Integer.remainder maxValue multiplier,
        -Integer.remainder Int64.minValue multiplier⟩ := by
  unfold OverflowLimits.read initInt64OverflowLimits
  rw [OverflowLimits.mk.injEq]
  refine ⟨?_, ?_, ?_, ?_⟩
  · rw [getD_set_ne (by omega), getD_set_ne (by omega), getD_set_ne (by omega),
      getD_set_self (by omega)]
  · rw [getD_set_ne (by omega), getD_set_ne (by omega), getD_set_self (by rw [length_set]; omega)]
  · rw [getD_set_ne (by omega), getD_set_self (by simp only [length_set]; omega)]
  · rw [getD_set_self (by simp only [length_set]; omega)]

theorem getD_init_ne (hij : j < i ∨ i + 3 < j) (multiplier : Int64) :
    (initInt64OverflowLimits limits i multiplier).getD j 0 = limits.getD j 0 := by
  unfold initInt64OverflowLimits
  rw [getD_set_ne (by omega), getD_set_ne (by omega), getD_set_ne (by omega),
    getD_set_ne (by omega)]

/-- The entries are the quotients and remainders that the loop needs. -/
theorem limitsFor_init {m : Nat} (hm : 2 ≤ m ∧ m ≤ 2 ^ 62) (hmultiplier : multiplier.toInt = m) :
    LimitsFor ⟨maxValue / multiplier, minValue / multiplier,
      Integer.remainder maxValue multiplier,
      -Integer.remainder minValue multiplier⟩ m := by
  have hpos : 0 < multiplier.toInt := by omega
  have hmax : maxValue.toInt = ((2 ^ 63 - 1 : Nat) : Int) := by decide
  have hmin : minValue.toInt = -((2 ^ 63 : Nat) : Int) := by decide
  have hrem : (Integer.remainder minValue multiplier).toInt
      = -((2 ^ 63 % m : Nat) : Int) := by
    rw [Integer.remainder_toInt hpos, hmin, hmultiplier, neg_tmod,
      tmod_eq_emod_of_nonneg (natCast_nonneg _), natCast_emod]
  refine ⟨?_, ?_, ?_, ?_⟩
  · rw [toInt_div_of_pos hpos, hmax, hmultiplier, tdiv_eq_ediv_of_nonneg (natCast_nonneg _),
      natCast_ediv]
  · rw [toInt_div_of_pos hpos, hmin, hmultiplier, Int.neg_tdiv,
      tdiv_eq_ediv_of_nonneg (natCast_nonneg _), natCast_ediv]
  · rw [Integer.remainder_toInt hpos, hmax, hmultiplier,
      tmod_eq_emod_of_nonneg (natCast_nonneg _), natCast_emod]
  · have hlt := mod_lt (2 ^ 63) (by omega : m > 0)
    rw [toInt_neg_of_bounds, hrem, neg_neg]
    omega

/-- The reading is decided, and the table is left in order. -/
def Settles (has63BitSmis : Bool) (outcome : List Int64 × Except Problem Int64)
    (P : Int64 → Prop) : Prop :=
  Decides outcome.2 P ∧ LimitsOk has63BitSmis outcome.1

theorem Settles.congr {outcome : List Int64 × Except Problem Int64} {P Q : Int64 → Prop}
    (h : Settles has63BitSmis outcome P) (hPQ : ∀ v, P v ↔ Q v) :
    Settles has63BitSmis outcome Q := by
  refine ⟨?_, h.2⟩
  rcases h.1 with ⟨v, hr, hv⟩ | ⟨p, hr, hnone⟩
  · exact .inl ⟨v, hr, (hPQ v).1 hv⟩
  · exact .inr ⟨p, hr, fun v hv => hnone v ((hPQ v).2 hv)⟩

section ParseRadix

variable {c : RadixCall} {limits : List Int64}

/-- The limits that `_parseRadix` uses, read or computed. -/
def RadixCall.limitsAfter (c : RadixCall) (limits : List Int64) : List Int64 :=
  if limits.getD (limitsIndex c.has63BitSmis c.radix) 0 = 0 then
    initInt64OverflowLimits limits (limitsIndex c.has63BitSmis c.radix) c.multiplier
  else limits

namespace RadixCall.Valid

variable (hc : c.Valid) (hok : LimitsOk c.has63BitSmis limits)
include hc hok

theorem limitsFor_row :
    LimitsFor (read (initInt64OverflowLimits limits
      (limitsIndex c.has63BitSmis c.radix) c.multiplier) (limitsIndex c.has63BitSmis c.radix))
      c.magnitude := by
  rw [read_init (hok.index_lt hc.radix_le)]
  exact limitsFor_init hc.magnitude_bounds hc.multiplier_toInt

theorem init_ok :
    LimitsOk c.has63BitSmis (initInt64OverflowLimits limits
      (limitsIndex c.has63BitSmis c.radix) c.multiplier) := by
  have hlength := hok.length_eq
  refine ⟨by simp [initInt64OverflowLimits, hlength], ?_⟩
  intro radix hr hr'
  by_cases heq : radix = c.radix
  · subst heq
    exact .inr (hc.limitsFor_row hok)
  have hother : ∀ k ≤ 3,
      (initInt64OverflowLimits limits (limitsIndex c.has63BitSmis c.radix) c.multiplier).getD
        (limitsIndex c.has63BitSmis radix + k) 0
        = limits.getD (limitsIndex c.has63BitSmis radix + k) 0 := by
    intro k hk
    apply getD_init_ne
    have hge := hc.radix_ge
    rw [limitsIndex_eq, limitsIndex_eq]
    omega
  have hread : read
      (initInt64OverflowLimits limits (limitsIndex c.has63BitSmis c.radix) c.multiplier)
      (limitsIndex c.has63BitSmis radix)
      = read limits (limitsIndex c.has63BitSmis radix) := by
    unfold OverflowLimits.read
    congr 1
    · exact hother 0 (by decide)
    · exact hother 1 (by decide)
    · exact hother 2 (by decide)
    · exact hother 3 (by decide)
  have hzero := hother 0 (by decide)
  rw [add_zero] at hzero
  rw [hread, hzero]
  exact hok.row radix hr hr'

theorem limitsAfter_ok :
    LimitsOk c.has63BitSmis (c.limitsAfter limits) ∧
      LimitsFor (read (c.limitsAfter limits) (limitsIndex c.has63BitSmis c.radix))
        c.magnitude := by
  unfold limitsAfter
  by_cases hzero : limits.getD (limitsIndex c.has63BitSmis c.radix) 0 = 0
  · rw [if_pos hzero]
    exact ⟨hc.init_ok hok, hc.limitsFor_row hok⟩
  · rw [if_neg hzero]
    exact ⟨hok, (hok.row c.radix hc.radix_ge hc.radix_le).resolve_left hzero⟩

end RadixCall.Valid

theorem RadixCall.Valid.single_block_decides (hc : c.Valid) (hstart : start < c.stop)
    (hlen : c.stop - start ≤ c.blockSize) :
    Decides (do
      let smi ← c.block start c.stop
      pure (c.sign * smi)) (c.Value (slice c.source.units start c.stop)) := by
  have hlength : (slice c.source.units start c.stop).length = c.stop - start :=
    slice_length hc.stop_le
  rcases hc.block_cases (hlength.le.trans hlen) with
    ⟨hdigits, p, hread⟩ | ⟨ds, hdigits, hread, hlt⟩
  · simp only [hread, error_bind]
    refine .inr ⟨p, rfl, ?_⟩
    rintro v ⟨n, ⟨-, ds, hds, -⟩, -⟩
    rw [hdigits] at hds
    exact absurd hds (by simp)
  · simp only [hread, ok_bind]
    have hsmall : value c.radix ds < 2 ^ 62 := lt_of_lt_of_le hlt hc.magnitude_bounds.2
    refine .inl ⟨_, rfl, value c.radix ds, ⟨?_, ds, hdigits, rfl⟩, .inl ?_, ?_⟩
    · intro hnil
      rw [hnil, length_nil] at hlength
      omega
    · unfold InInt64
      rcases hc.sign_toInt with h | h <;> rw [h] <;> omega
    · rw [← hc.sign_mul_toInt (by omega), ofInt_toInt]

/-- `_parseRadix` decides the numerals of its radix, and keeps the table in order. -/
theorem parseRadix_decides (hc : c.Valid) (hok : LimitsOk c.has63BitSmis limits)
    (hstart : start < c.stop) :
    Settles c.has63BitSmis (parseRadix limits c start)
      (c.Value (slice c.source.units start c.stop)) := by
  unfold parseRadix
  by_cases hlen : c.stop - start ≤ c.blockSize
  · simp only [if_pos hlen]
    exact ⟨hc.single_block_decides hstart hlen, hok⟩
  simp only [if_neg hlen]
  rcases hc.firstBlock_spec hstart.le with ⟨p, herror, hnone⟩ |
    ⟨result, mid, ds, hfirst, hmid, hdigits, hresult⟩
  · simp only [herror]
    exact ⟨.inr ⟨p, rfl, hnone⟩, hok⟩
  obtain ⟨hok', hfor⟩ := hc.limitsAfter_ok hok
  simp only [hfirst]
  refine ⟨?_, hok'⟩
  -- full blocks remain behind the short one
  have hpos := hc.blockSize_pos
  have hdiv := div_add_mod' (c.stop - start) c.blockSize
  have hblocks : 0 < (c.stop - start) / c.blockSize := div_pos (by omega) hpos
  have hfew := div_le_self (c.stop - start) c.blockSize
  obtain ⟨k, hk⟩ := exists_eq_succ_of_ne_zero (ne_of_gt hblocks)
  rw [hk] at hdiv
  rw [slice_append hc.stop_le (by omega : start ≤ mid) (by omega)]
  exact parseBlocks_decides hc hfor (k := k) (by omega) hdigits hresult (by
    show mid + k.succ * c.blockSize = c.stop
    omega)

end ParseRadix

/-! ## Trimming -/

theorem isTwoByteWhitespace_eq (c : Nat) : isTwoByteWhitespace c = isSpace c := by
  rw [Bool.eq_iff_iff]
  unfold isTwoByteWhitespace isSpace
  split
  · simp
    omega
  split
  · simp
    omega
  split
  · rename_i h
    simp at h
    simp
    omega
  · split
    · rename_i h _
      simp at h
      simp
      omega
    · rename_i h _
      simp at h
      simp
      omega

theorem isOneByteWhitespace_eq (hc : c < 0x100) : isOneByteWhitespace c = isSpace c := by
  rw [Bool.eq_iff_iff]
  unfold isOneByteWhitespace isSpace
  split
  · simp
    omega
  · simp
    omega

theorem DartString.isWhitespace_eq (s : DartString) (hc : c ∈ s.units) :
    s.isWhitespace c = isSpace c := by
  unfold DartString.isWhitespace
  split
  · rename_i h
    exact isOneByteWhitespace_eq (s.oneByte h c hc)
  · exact isTwoByteWhitespace_eq c

section Whitespace

variable (h : ∀ c ∈ units, p c = q c)
include h

theorem firstNonWhitespace_eq : firstNonWhitespace p units = (units.takeWhile q).length := by
  induction units with
  | nil => rfl
  | cons c cs ih =>
    have hrest := ih fun c' hc' => h c' (mem_cons_of_mem c hc')
    rw [firstNonWhitespace, h c mem_cons_self]
    by_cases hc : q c = true
    · rw [if_pos hc, hrest, takeWhile_cons_of_pos hc, length_cons]
    · rw [if_neg hc, takeWhile_cons_of_neg hc, length_nil]

theorem lastNonWhitespace_eq (hk : k ≤ units.length) :
    lastNonWhitespace p units k + 1 = ((units.take k).rdropWhile q).length := by
  induction k with
  | zero => simp [lastNonWhitespace]
  | succ k ih =>
    have hget : units.getD k 0 = units[k] := by
      rw [getD_eq_getElem?_getD, getElem?_eq_getElem hk, getD_some]
    have htake : units.take (k + 1) = units.take k ++ [units[k]] :=
      take_succ_eq_append_getElem hk
    rw [lastNonWhitespace, hget, htake, h _ (getElem_mem hk)]
    by_cases hq : q units[k] = true
    · rw [if_pos hq, rdropWhile_concat_pos q _ _ hq, ih (le_of_succ_le hk)]
    · rw [if_neg hq, rdropWhile_concat_neg q _ _ hq, length_append, length_take,
        length_singleton, min_eq_left (le_of_succ_le hk)]
      rfl

end Whitespace

theorem drop_length_takeWhile (p : Nat → Bool) (units : List Nat) :
    units.drop (units.takeWhile p).length = units.dropWhile p := by
  calc
    units.drop (units.takeWhile p).length
        = (units.takeWhile p ++ units.dropWhile p).drop (units.takeWhile p).length := by
          rw [takeWhile_append_dropWhile]
    _ = units.dropWhile p := drop_left

theorem takeWhile_isSpace_of_rdropWhile (h : units.rdropWhile isSpace ≠ []) :
    units.takeWhile isSpace = (units.rdropWhile isSpace).takeWhile isSpace ∧
      ((units.rdropWhile isSpace).takeWhile isSpace).length
        < (units.rdropWhile isSpace).length := by
  have hlast := rdropWhile_last_not isSpace units h
  have hsplit : units.rdropWhile isSpace ++ units.rtakeWhile isSpace = units :=
    rdropWhile_append_rtakeWhile
  have hshort : ((units.rdropWhile isSpace).takeWhile isSpace).length
      < (units.rdropWhile isSpace).length := by
    apply Nat.lt_of_le_of_ne ( takeWhile_prefix isSpace).length_le
    intro heq
    have hall := takeWhile_eq_self_iff.1
      (( takeWhile_prefix isSpace).eq_of_length heq)
    exact hlast (hall _ (getLast_mem h))
  refine ⟨?_, hshort⟩
  conv_lhs => rw [← hsplit]
  rw [takeWhile_append, if_neg (Nat.ne_of_lt hshort)]

/-- `_firstNonWhitespace` and `_lastNonWhitespace` delimit the trimmed string. -/
theorem DartString.slice_trim (s : DartString)
    (hstop : stop = (lastNonWhitespace s.isWhitespace s.units s.units.length + 1).toNat)
    (hstart : start = firstNonWhitespace s.isWhitespace s.units) :
    stop ≤ s.units.length ∧ (stop = 0 → trim s.units = []) ∧
      (stop ≠ 0 → start < stop ∧ slice s.units start stop = trim s.units) := by
  have hspace : ∀ c ∈ s.units, s.isWhitespace c = isSpace c := fun c hc => s.isWhitespace_eq hc
  have hstop' : stop = (s.units.rdropWhile isSpace).length := by
    rw [hstop, lastNonWhitespace_eq hspace (le_refl _), take_length, toNat_natCast]
  have hstart' : start = (s.units.takeWhile isSpace).length := by
    rw [hstart, firstNonWhitespace_eq hspace]
  have hinit : s.units.take stop = s.units.rdropWhile isSpace := by
    rw [hstop']
    exact (prefix_iff_eq_take.1 ( rdropWhile_prefix isSpace s.units)).symm
  refine ⟨?_, ?_, ?_⟩
  · rw [hstop']
    exact ( rdropWhile_prefix isSpace s.units).length_le
  · intro hzero
    rw [hzero] at hstop'
    rw [trim, length_eq_zero_iff.1 hstop'.symm, dropWhile_nil]
  · intro hne
    have hnil : s.units.rdropWhile isSpace ≠ [] := by
      intro hnil
      rw [hnil] at hstop'
      exact hne hstop'
    obtain ⟨htake, hlt⟩ := takeWhile_isSpace_of_rdropWhile hnil
    rw [htake] at hstart'
    refine ⟨by rwa [hstart', hstop'], ?_⟩
    rw [slice, hinit, hstart', trim, drop_length_takeWhile]

theorem slice_cons (hstart : start < stop) (hstop : stop ≤ units.length) :
    slice units start stop = units.getD start 0 :: slice units (start + 1) stop := by
  have hlt : start < (units.take stop).length := by
    rw [length_take, min_eq_left hstop]
    exact hstart
  have hget : units.getD start 0 = (units.take stop)[start] := by
    rw [getElem_take, getD_eq_getElem?_getD,
      getElem?_eq_getElem (lt_of_lt_of_le hstart hstop), getD_some]
  rw [slice, drop_eq_getElem_cons hlt, hget, slice]

theorem slice_self (units : List Nat) (start : Nat) : slice units start start = [] := by
  rw [slice, drop_eq_nil_of_le]
  exact length_take_le _ _

/-! ## `_parse` -/

/-- The sign in front of a numeral, and what follows. -/
def signOf : List Nat → Sign × List Nat
  | [] => (.absent, [])
  | c :: cs =>
    if c = 0x2b then (.plus, cs) else if c = 0x2d then (.minus, cs) else (.absent, c :: cs)

theorem signOf_spec (units : List Nat) : units = (signOf units).1.chars ++ (signOf units).2 := by
  cases units with
  | nil => rfl
  | cons c cs =>
    by_cases hplus : c = 0x2b
    · simp [signOf, hplus, Sign.chars]
    · by_cases hminus : c = 0x2d
      · simp [signOf, hminus, Sign.chars]
      · simp [signOf, hplus, hminus, Sign.chars]

theorem not_digit_sign (hr : radix ≤ 36) (hc : c = 0x2b ∨ c = 0x2d) :
    digitValue radix c = none := by
  cases h : digitValue radix c with
  | none => rfl
  | some d =>
    have := (digitValue_eq_some hr).1 h
    unfold IsDigit at this
    omega

theorem signOf_append (sign : Sign) (hc : ¬ (c = 0x2b ∨ c = 0x2d)) :
    signOf (sign.chars ++ c :: cs) = (sign, c :: cs) := by
  rw [not_or] at hc
  cases sign with
  | absent => simp [Sign.chars, signOf, hc.1, hc.2]
  | plus | minus => simp [Sign.chars, signOf]

/-- `Denotes` for a body behind a sign. -/
def BodyDenotes (radix : Option Int) (sign : Sign) (body : List Nat) (v : Int64) : Prop :=
  (∃ n, Numeral (radix.getD 10).toNat body n ∧ InInt64 (sign.factor * n) ∧
    v = Int64.ofInt (sign.factor * n)) ∨
  (radix = none ∧ ∃ x digits n, body = 0x30 :: x :: digits ∧ (x = 0x78 ∨ x = 0x58) ∧
    Numeral 16 digits n ∧ (InInt64 (sign.factor * n) ∨ sign ≠ .minus ∧ n < 2 ^ 64) ∧
    v = Int64.ofInt (sign.factor * n))

/-- The radix is absent or in the range that `parse` accepts. -/
def ValidRadix (radix : Option Int) : Prop := ∀ r ∈ radix, 2 ≤ r ∧ r ≤ 36

variable {radix : Option Int}

theorem ValidRadix.toNat (h : ValidRadix radix) :
    2 ≤ (radix.getD 10).toNat ∧ (radix.getD 10).toNat ≤ 36 := by
  cases radix with
  | none => decide
  | some r =>
    have := h r rfl
    rw [getD_some]
    omega

theorem validRadix_iff : ValidRadix radix ↔ (radix.filter fun r => r < 2 ∨ r > 36) = none := by
  rw [filter_eq_none_iff, ValidRadix]
  refine forall₂_congr fun r _ => ?_
  rw [decide_eq_true_eq]
  omega

theorem Numeral.head {radix : Nat} (hr : radix ≤ 36) {chars : List Nat}
    (h : Numeral radix chars n) :
    ∃ c cs, chars = c :: cs ∧ ¬ (c = 0x2b ∨ c = 0x2d) := by
  obtain ⟨hne, ds, hds, -⟩ := h
  cases chars with
  | nil => exact absurd rfl hne
  | cons c cs =>
    refine ⟨c, cs, rfl, fun hc => ?_⟩
    obtain ⟨d, -, hd, -, -⟩ := mapM_cons_eq_some.1 hds
    rw [not_digit_sign hr hc] at hd
    exact absurd hd (by simp)

theorem denotes_iff_body (hradix : ValidRadix radix) :
    Denotes radix units v ↔
      BodyDenotes radix (signOf (trim units)).1 (signOf (trim units)).2 v := by
  constructor
  · rintro (⟨sign, digits, n, htrim, hnum, hrest⟩ |
      ⟨hnone, sign, x, digits, n, htrim, hx, hnum, hrest⟩)
    · obtain ⟨c, cs, rfl, hc⟩ := hnum.head hradix.toNat.2
      rw [htrim, signOf_append sign hc]
      exact .inl ⟨n, hnum, hrest⟩
    · rw [htrim, signOf_append sign (by omega)]
      exact .inr ⟨hnone, x, digits, n, rfl, hx, hnum, hrest⟩
  · have htrim := signOf_spec (trim units)
    rintro (⟨n, hnum, hrest⟩ | ⟨hnone, x, digits, n, hbody, hx, hnum, hrest⟩)
    · exact .inl ⟨_, _, n, htrim, hnum, hrest⟩
    · rw [hbody] at htrim
      exact .inr ⟨hnone, _, x, digits, n, htrim, hx, hnum, hrest⟩

theorem not_bodyDenotes_nil (v : Int64) : ¬ BodyDenotes radix sign [] v := by
  rintro (⟨n, ⟨hne, -⟩, -⟩ | ⟨-, x, digits, n, hbody, -⟩)
  · exact hne rfl
  · exact absurd hbody (by simp)

theorem x_char_iff (c : Nat) : c ||| 0x20 = 0x78 ↔ c = 0x78 ∨ c = 0x58 :=
  @or_case_char c 33 (by decide) (by decide)

/-- `x` is no decimal digit, so a body that starts with `0x` is hexadecimal. -/
theorem bodyDenotes_hex {x : Nat} {digits : List Nat} (hx : x = 0x78 ∨ x = 0x58) :
    BodyDenotes none sign (0x30 :: x :: digits) v ↔
      ∃ n, Numeral 16 digits n ∧ (InInt64 (sign.factor * n) ∨ sign ≠ .minus ∧ n < 2 ^ 64) ∧
        v = ofInt (sign.factor * n) := by
  constructor
  · rintro (⟨n, ⟨-, ds, hds, -⟩, -⟩ | ⟨-, x', digits', n, hbody, -, h⟩)
    · obtain ⟨-, ds', -, hds', -⟩ := mapM_cons_eq_some.1 hds
      obtain ⟨d, -, hd, -, -⟩ := mapM_cons_eq_some.1 hds'
      have hdigit := (digitValue_eq_some (by decide)).1 hd
      unfold IsDigit at hdigit
      have hten : ((none : Option Int).getD 10).toNat = 10 := rfl
      omega
    · obtain ⟨-, -, rfl⟩ : (0x30 : Nat) = 0x30 ∧ x = x' ∧ digits = digits' := by simpa using hbody
      exact ⟨n, h⟩
  · rintro ⟨n, h⟩
    exact .inr ⟨rfl, x, digits, n, rfl, hx, h⟩

theorem bodyDenotes_numeral {body : List Nat}
    (hbody : radix = none → ∀ x digits, body = 0x30 :: x :: digits → ¬ (x = 0x78 ∨ x = 0x58)) :
    BodyDenotes radix sign body v ↔
      ∃ n, Numeral (radix.getD 10).toNat body n ∧ InInt64 (sign.factor * n) ∧
        v = ofInt (sign.factor * n) := by
  constructor
  · rintro (h | ⟨hnone, x, digits, n, heq, hx, -⟩)
    · exact h
    · exact absurd hx (hbody hnone x digits heq)
  · exact .inl

section Unsigned

theorem Sign.factor_spec (sign : Sign) : (ofInt sign.factor).toInt = sign.factor ∧
    (ofInt sign.factor = 1 ∨ ofInt sign.factor = -1) ∧
    (ofInt sign.factor > 0 ↔ sign ≠ .minus) := by
  cases sign <;> decide

variable {has63BitSmis : Bool} {limits : List Int64} {source : DartString} {start stop : Nat}

section

variable (hok : LimitsOk has63BitSmis limits) (hstart : start < stop)
  (hstop : stop ≤ source.units.length)
include hok hstart hstop

theorem parseRadix_decides_numeral (sign : Sign) {radix : Nat} (hr : 2 ≤ radix ∧ radix ≤ 36) :
    Settles has63BitSmis
      (parseRadix limits ⟨has63BitSmis, source, radix, stop, ofInt sign.factor, false⟩ start)
      fun v => ∃ n, Numeral radix (slice source.units start stop) n ∧
        InInt64 (sign.factor * n) ∧ v = ofInt (sign.factor * n) := by
  have hvalid : RadixCall.Valid
      ⟨has63BitSmis, source, radix, stop, ofInt sign.factor, false⟩ :=
    ⟨hr.1, hr.2, sign.factor_spec.2.1, fun h => absurd h (by simp), hstop⟩
  refine (parseRadix_decides hvalid hok hstart).congr fun v => ?_
  unfold RadixCall.Value
  simp [sign.factor_spec.1]

theorem parseUnsigned_decides (hradix : ValidRadix radix) (sign : Sign) :
    Settles has63BitSmis
      (parseUnsigned has63BitSmis limits source (radix.map toNat) start stop
        (ofInt sign.factor))
      (BodyDenotes radix sign (slice source.units start stop)) := by
  have hbody := slice_cons hstart hstop
  cases radix with
  | some r =>
    have hnumeral := parseRadix_decides_numeral hok hstart hstop sign hradix.toNat
    refine hnumeral.congr fun v => ?_
    exact (bodyDenotes_numeral (fun h => absurd h (by simp))).symm
  | none =>
    have hdecimal : (∀ x digits, slice source.units start stop = 0x30 :: x :: digits →
        ¬ (x = 0x78 ∨ x = 0x58)) →
        Settles has63BitSmis
          (parseRadix limits ⟨has63BitSmis, source, 10, stop, ofInt sign.factor, false⟩ start)
          (BodyDenotes none sign (slice source.units start stop)) := by
      intro hno
      have hnumeral := parseRadix_decides_numeral hok hstart hstop sign
        (by decide : 2 ≤ 10 ∧ 10 ≤ 36)
      refine hnumeral.congr fun v => ?_
      exact (@bodyDenotes_numeral v sign none _ fun _ => hno).symm
    simp only [parseUnsigned, map_none]
    by_cases hzero : source.codeUnitAt start = 0x30
    · rw [if_pos hzero]
      have hzero' : source.units.getD start 0 = 0x30 := hzero
      rw [hzero'] at hbody
      by_cases hend : start + 1 = stop
      · -- a lone zero
        rw [if_pos hend]
        refine ⟨.inl ⟨0, rfl, .inl ⟨0, ⟨?_, [0], ?_, rfl⟩, ?_, ?_⟩⟩, hok⟩
        · rw [hbody]
          simp
        · rw [hbody, hend, slice_self]
          rfl
        · simp [InInt64]
        · simp
      · rw [if_neg hend]
        have hbody' := slice_cons (by omega : start + 1 < stop) hstop
        rw [hbody'] at hbody
        by_cases hx : source.codeUnitAt (start + 1) ||| 0x20 = 0x78
        · rw [if_pos hx]
          have hx' := (x_char_iff _).1 hx
          have hhex := fun v => @bodyDenotes_hex v sign _ (slice source.units (start + 2) stop) hx'
          rw [hbody]
          by_cases hend' : start + 2 = stop
          · rw [if_pos hend']
            refine ⟨.inr ⟨_, rfl, fun v hv => ?_⟩, hok⟩
            obtain ⟨n, ⟨hne, -⟩, -⟩ := (hhex v).1 hv
            rw [hend', slice_self] at hne
            exact hne rfl
          · rw [if_neg hend']
            obtain ⟨hfactor, hsign, hminus⟩ := sign.factor_spec
            have hvalid : RadixCall.Valid ⟨has63BitSmis, source, 16, stop,
                ofInt sign.factor, ofInt sign.factor > 0⟩ := by
              refine ⟨by show 2 ≤ 16; decide, by show 16 ≤ 36; decide, hsign,
                fun h => ⟨rfl, hsign.resolve_right fun hneg => ?_⟩, hstop⟩
              have hpos : ofInt sign.factor > 0 := of_decide_eq_true h
              rw [hneg] at hpos
              exact absurd hpos (by decide)
            have hradix := parseRadix_decides hvalid hok (by show start + 2 < stop; omega)
            refine hradix.congr fun v => ?_
            refine Iff.trans ?_ (hhex v).symm
            unfold RadixCall.Value
            simp only [hfactor, decide_eq_true_eq, hminus]
        · rw [if_neg hx]
          apply hdecimal
          intro x digits heq hx'
          rw [hbody, cons.injEq, cons.injEq] at heq
          apply hx
          rw [x_char_iff]
          have hhead : source.codeUnitAt (start + 1) = x := heq.2.1
          rwa [hhead]
    · rw [if_neg hzero]
      apply hdecimal
      intro x digits heq
      rw [hbody, cons.injEq] at heq
      exact absurd heq.1 hzero

end

end Unsigned

/-- `_parse` decides the grammar. -/
theorem parseTrimmed_decides (hok : LimitsOk has63BitSmis limits) (source : DartString)
    (hradix : ValidRadix radix) :
    Settles has63BitSmis (parseTrimmed has63BitSmis limits source (radix.map toNat))
      (Denotes radix source.units) := by
  obtain ⟨stop, hstop⟩ : ∃ stop, stop =
      (lastNonWhitespace source.isWhitespace source.units source.units.length + 1).toNat :=
    ⟨_, rfl⟩
  obtain ⟨start, hstart⟩ : ∃ start, start =
      firstNonWhitespace source.isWhitespace source.units := ⟨_, rfl⟩
  obtain ⟨hle, hblank, hslice⟩ := source.slice_trim hstop hstart
  unfold parseTrimmed
  simp only [← hstop, ← hstart]
  by_cases hzero : stop = 0
  · rw [if_pos hzero]
    refine ⟨.inr ⟨_, rfl, fun v hv => ?_⟩, hok⟩
    rw [denotes_iff_body hradix, hblank hzero] at hv
    exact not_bodyDenotes_nil v hv
  · obtain ⟨hlt, htrim⟩ := hslice hzero
    rw [if_neg hzero]
    have hhead := slice_cons hlt hle
    rw [htrim] at hhead
    have hunsigned : ∀ (sign : Sign) (start' : Nat), start' < stop →
        signOf (trim source.units) = (sign, slice source.units start' stop) →
        Settles has63BitSmis (parseUnsigned has63BitSmis limits source (radix.map toNat)
          start' stop (ofInt sign.factor)) (Denotes radix source.units) := by
      intro sign start' hlt' hsignOf
      refine (parseUnsigned_decides hok hlt' hle hradix sign).congr fun v => ?_
      rw [denotes_iff_body hradix, hsignOf]
    by_cases hsigned : source.codeUnitAt start = 0x2b ∨ source.codeUnitAt start = 0x2d
    · rw [if_pos hsigned]
      have hsignOf : ∃ sign : Sign,
          signOf (trim source.units) = (sign, slice source.units (start + 1) stop) ∧
          0x2c - ofNat (source.codeUnitAt start) = ofInt sign.factor := by
        rw [hhead]
        rcases hsigned with h | h
        · rw [h]
          have h' : source.units.getD start 0 = 0x2b := h
          exact ⟨.plus, by rw [h']; rfl, rfl⟩
        · rw [h]
          have h' : source.units.getD start 0 = 0x2d := h
          exact ⟨.minus, by rw [h']; rfl, rfl⟩
      obtain ⟨sign, hsignOf, hfactor⟩ := hsignOf
      by_cases hend : start + 1 = stop
      · rw [if_pos hend]
        refine ⟨.inr ⟨_, rfl, fun v hv => ?_⟩, hok⟩
        rw [denotes_iff_body hradix, hsignOf, hend, slice_self] at hv
        exact not_bodyDenotes_nil v hv
      · rw [if_neg hend, hfactor]
        exact hunsigned sign (start + 1) (by omega) hsignOf
    · rw [if_neg hsigned]
      apply hunsigned .absent start hlt
      rw [htrim, hhead]
      rw [not_or] at hsigned
      have h₁ : source.units.getD start 0 ≠ 0x2b := hsigned.1
      have h₂ : source.units.getD start 0 ≠ 0x2d := hsigned.2
      simp only [signOf, if_neg h₁, if_neg h₂]

/-! ## The fast path -/

theorem smiDigits_eq {chars : List Nat} :
    smiDigits (Int64.ofNat acc) chars
      = (chars.mapM (digitValue 10)).map fun ds =>
          Int64.ofNat (acc * 10 ^ ds.length + value 10 ds) := by
  induction chars generalizing acc with
  | nil =>
    have hvalue : acc * 10 ^ ([] : List Nat).length + value 10 [] = acc := by simp [value]
    simp only [smiDigits, mapM_nil, Option.pure_def, Option.map_some, hvalue]
  | cons c cs ih =>
    have hdigit : digitValue 10 c = if 9 < 0x30 ^^^ c then none else some (0x30 ^^^ c) := by
      rw [← blockDigit_eq (by decide)]
      simp only [blockDigit, if_pos (Nat.le_refl 10), Nat.xor_comm c]
      by_cases h : 9 < 0x30 ^^^ c
      · rw [if_pos h, if_pos (Nat.succ_le_of_lt h)]
      · rw [if_neg h, if_neg (by omega)]
    by_cases h : 9 < 0x30 ^^^ c
    · rw [if_pos h] at hdigit
      have hnone : (c :: cs).mapM (digitValue 10) = none := by simp [mapM_cons, hdigit]
      simp only [smiDigits, if_pos h, hnone, Option.map_none]
    rw [if_neg h] at hdigit
    have harith : 10 * ofNat acc + ofNat (0x30 ^^^ c)
        = ofNat (10 * acc + (0x30 ^^^ c)) := by
      rw [ofNat_add, ofNat_mul]
      rfl
    simp only [smiDigits, if_neg h, harith, ih, mapM_cons_of_some hdigit, Option.map_map,
      Function.comp_def, value_step]

theorem not_isSpace_of_digit {radix : Nat} (hr : radix ≤ 36)
    (h : digitValue radix c = some d) : isSpace c = false := by
  have hdigit := (digitValue_eq_some hr).1 h
  unfold IsDigit at hdigit
  unfold isSpace
  simp
  omega

theorem trim_eq_self (h : ∀ c ∈ units, isSpace c = false) : trim units = units := by
  have hright : units.rdropWhile isSpace = units := by
    rw [rdropWhile_eq_self_iff]
    intro hne
    rw [h _ (getLast_mem hne)]
    simp
  rw [trim, hright]
  cases units with
  | nil => rfl
  | cons c cs =>
    apply dropWhile_cons_of_neg
    rw [h c mem_cons_self]
    simp

/-- The fast path accepts only what the grammar accepts, with the same value. -/
theorem tryParseSmi_denotes (h : tryParseSmi has63BitSmis units = some v)
    (hradix : radix = none ∨ radix = some 10) : Denotes radix units v := by
  have hten : (radix.getD 10).toNat = 10 := by
    rcases hradix with rfl | rfl <;> rfl
  -- it is enough to find the sign and the digits
  suffices hsplit : ∃ (sign : Sign) (digits : List Nat), units = sign.chars ++ digits ∧
      digits ≠ [] ∧ digits.length ≤ 18 ∧
      (smiDigits 0 digits).map (ofInt sign.factor * ·) = some v by
    obtain ⟨sign, digits, rfl, hne, hlen, hvalue⟩ := hsplit
    have hzero : (0 : Int64) = ofNat 0 := rfl
    rw [hzero, smiDigits_eq, Option.map_map, Option.map_eq_some_iff] at hvalue
    obtain ⟨ds, hds, hv⟩ := hvalue
    simp only [Function.comp_def, Nat.zero_mul, Nat.zero_add] at hv
    have hlt : value 10 ds < 10 ^ 18 := by
      have hvalue := value_lt_of_mapM (by decide) hds
      exact Nat.lt_of_lt_of_le hvalue (Nat.pow_le_pow_right (by decide) hlen)
    have htrim : trim (sign.chars ++ digits) = sign.chars ++ digits := by
      apply trim_eq_self
      intro c hc
      rcases mem_append.1 hc with hc | hc
      · cases sign with
        | absent => simp [Sign.chars] at hc
        | plus | minus =>
          rw [mem_singleton.1 hc]
          rfl
      · obtain ⟨d, -, hd⟩ := forall₂_exists_mem (mapM_eq_some_iff.1 hds) hc
        exact not_isSpace_of_digit (by decide) hd
    refine .inl ⟨sign, digits, value 10 ds, htrim, ⟨hne, ds, by rwa [hten], by rw [hten]⟩, ?_, ?_⟩
    · unfold InInt64
      cases sign <;> simp only [Sign.factor] <;> omega
    · rw [← hv, ofInt_mul]
      rfl
  cases units with
  | nil => simp [tryParseSmi] at h
  | cons c cs =>
    obtain ⟨sign, digits, hchars, hv⟩ : ∃ (sign : Sign) (digits : List Nat),
        c :: cs = sign.chars ++ digits ∧
        (if digits = [] then none
          else if digits.length - 1 ≥ (if has63BitSmis then 18 else 9) then none
          else (smiDigits 0 digits).map (ofInt sign.factor * ·)) = some v := by
      by_cases hplus : c = 0x2b
      · subst hplus
        exact ⟨.plus, cs, rfl, h⟩
      · by_cases hminus : c = 0x2d
        · subst hminus
          exact ⟨.minus, cs, rfl, h⟩
        · refine ⟨.absent, c :: cs, rfl, ?_⟩
          have hone : ofInt Sign.absent.factor = 1 := rfl
          simpa [tryParseSmi, hplus, hminus, hone] using h
    by_cases hnil : digits = []
    · rw [if_pos hnil] at hv
      cases hv
    rw [if_neg hnil] at hv
    by_cases hlong : digits.length - 1 ≥ (if has63BitSmis then 18 else 9)
    · rw [if_pos hlong] at hv
      cases hv
    rw [if_neg hlong] at hv
    refine ⟨sign, digits, hchars, hnil, ?_, hv⟩
    cases has63BitSmis
    · simp only [Bool.false_eq_true, if_false] at hlong
      omega
    · simp only [if_true] at hlong
      omega

/-! ## The entry points -/

theorem Numeral.unique {radix : Nat} {chars : List Nat} {n' : Nat} (h : Numeral radix chars n)
    (h' : Numeral radix chars n') : n = n' := by
  obtain ⟨-, ds, hds, rfl⟩ := h
  obtain ⟨-, ds', hds', rfl⟩ := h'
  rw [some.inj (hds.symm.trans hds')]

theorem Denotes.unique (hradix : ValidRadix radix)
    {v' : Int64} (h : Denotes radix units v) (h' : Denotes radix units v') : v = v' := by
  rw [denotes_iff_body hradix] at h h'
  generalize (signOf (trim units)).1 = sign at h h'
  generalize (signOf (trim units)).2 = body at h h'
  by_cases hhex : radix = none ∧ ∃ x digits, body = 0x30 :: x :: digits ∧ (x = 0x78 ∨ x = 0x58)
  · obtain ⟨rfl, x, digits, rfl, hx⟩ := hhex
    obtain ⟨n, hn, -, rfl⟩ := (bodyDenotes_hex hx).1 h
    obtain ⟨n', hn', -, rfl⟩ := (bodyDenotes_hex hx).1 h'
    rw [hn.unique hn']
  · have hbody : radix = none →
        ∀ x digits, body = 0x30 :: x :: digits → ¬ (x = 0x78 ∨ x = 0x58) :=
      fun hnone x digits heq hx => hhex ⟨hnone, x, digits, heq, hx⟩
    obtain ⟨n, hn, -, rfl⟩ := (bodyDenotes_numeral hbody).1 h
    obtain ⟨n', hn', -, rfl⟩ := (bodyDenotes_numeral hbody).1 h'
    rw [hn.unique hn']

section Entry

variable {has63BitSmis : Bool} {limits : List Int64}

/-- A result of `parse` or `tryParse` before the final cast: the integer of the string, or a format
problem handed to the handler because there is none. -/
def Answers (onError : OnError) (source : DartString)
    (radix : Option Int) (result : Except Thrown (Option Int64)) : Prop :=
  (∃ v, result = .ok (some v) ∧ Denotes radix source.units v) ∨
  (∃ p, result = handleFormatError onError source p ∧ ∀ v, ¬ Denotes radix source.units v)

section

variable (hok : LimitsOk has63BitSmis limits) (onError : OnError)
  (source : DartString)
include hok

theorem parseSlow_answers (hradix : ValidRadix radix) :
    Answers onError source radix (parseSlow onError has63BitSmis limits source radix).2 ∧
      LimitsOk has63BitSmis (parseSlow onError has63BitSmis limits source radix).1 := by
  obtain ⟨hdecides, hok'⟩ := parseTrimmed_decides hok source hradix
  refine ⟨?_, hok'⟩
  rcases hdecides with ⟨v, hv, hden⟩ | ⟨p, hp, hnone⟩
  · exact .inl ⟨v, by simp only [parseSlow, hv], hden⟩
  · exact .inr ⟨p, by simp only [parseSlow, hp], hnone⟩

theorem parseWith_answers (hradix : ValidRadix radix) :
    Answers onError source radix (parseWith onError has63BitSmis limits source radix).2 := by
  have hslow := (parseSlow_answers hok onError source hradix).1
  unfold parseWith
  by_cases hten : radix = none ∨ radix = some 10
  · rw [if_pos hten]
    cases hsmi : tryParseSmi has63BitSmis source.units with
    | some v => exact .inl ⟨v, rfl, tryParseSmi_denotes hsmi hten⟩
    | none => exact hslow
  · rw [if_neg hten, validRadix_iff.1 hradix]
    exact hslow

/-- Any call keeps the table in order, also one with a radix out of range. -/
theorem parseWith_limitsOk (radix : Option Int) :
    LimitsOk has63BitSmis (parseWith onError has63BitSmis limits source radix).1 := by
  unfold parseWith
  by_cases hten : radix = none ∨ radix = some 10
  · have hradix : ValidRadix radix := by
      rw [validRadix_iff]
      rcases hten with rfl | rfl <;> rfl
    rw [if_pos hten]
    cases tryParseSmi has63BitSmis source.units with
    | some v => exact hok
    | none => exact (parseSlow_answers hok onError source hradix).2
  · rw [if_neg hten]
    cases hrange : radix.filter fun r => r < 2 ∨ r > 36 with
    | some r => exact hok
    | none => exact (parseSlow_answers hok onError source (validRadix_iff.2 hrange)).2

end

end Entry

/-! ### Sequences of calls -/

inductive Call
  | tryParse (source : DartString) (radix : Option Int)
  | parse (source : DartString) (radix : Option Int) (onError : OnError)

def Call.limitsAfter (has63BitSmis : Bool) (limits : List Int64) : Call → List Int64
  | .tryParse source radix => (IntParse.tryParse has63BitSmis limits source radix).1
  | .parse source radix onError => (IntParse.parse has63BitSmis limits source radix onError).1

def limitsAfterCalls (has63BitSmis : Bool) (calls : List Call) : List Int64 :=
  calls.foldl (Call.limitsAfter has63BitSmis) initialLimits

theorem Call.limitsAfter_ok (hok : LimitsOk has63BitSmis limits) (call : Call) :
    LimitsOk has63BitSmis (call.limitsAfter has63BitSmis limits) := by
  cases call with
  | tryParse source radix =>
    simp only [Call.limitsAfter, IntParse.tryParse]
    split
    · exact hok
    · exact parseWith_limitsOk hok _ source radix
  | parse source radix onError =>
    simp only [Call.limitsAfter, IntParse.parse]
    split
    · exact hok
    · exact parseWith_limitsOk hok onError source radix

theorem limitsAfterCalls_ok (has63BitSmis : Bool) (calls : List Call) :
    LimitsOk has63BitSmis (limitsAfterCalls has63BitSmis calls) := by
  unfold limitsAfterCalls
  have hinit := limitsOk_initial has63BitSmis
  generalize initialLimits = limits at hinit
  induction calls generalizing limits with
  | nil => exact hinit
  | cons call calls ih => exact ih _ (call.limitsAfter_ok hinit)

theorem not_denotes_nil (hradix : ValidRadix radix) (v : Int64) : ¬ Denotes radix [] v := by
  rw [denotes_iff_body hradix]
  exact not_bodyDenotes_nil v

section Entry

variable {has63BitSmis : Bool} {limits : List Int64}

theorem tryParse_spec (hok : LimitsOk has63BitSmis limits) (source : DartString)
    (hradix : ValidRadix radix) :
    (∃ v, (tryParse has63BitSmis limits source radix).2 = .ok (some v) ∧
      Denotes radix source.units v) ∨
    ((tryParse has63BitSmis limits source radix).2 = .ok none ∧
      ∀ v, ¬ Denotes radix source.units v) := by
  unfold tryParse
  by_cases hempty : source.units.isEmpty = true
  · rw [if_pos hempty, isEmpty_iff.1 hempty]
    exact .inr ⟨rfl, not_denotes_nil hradix⟩
  · rw [if_neg hempty]
    rcases parseWith_answers hok (some fun _ => none) source hradix with h | ⟨p, hp, hnone⟩
    · exact .inl h
    · exact .inr ⟨hp, hnone⟩

theorem handleFormatError_throws (source : DartString) (p : FormatProblem) :
    ∃ message index, handleFormatError none source p
      = .error (.formatException message source index) := by
  obtain ⟨index, radix, message⟩ := p
  cases message with
  | some message => exact ⟨message, index, rfl⟩
  | none =>
    cases radix with
    | none | some => exact ⟨_, index, rfl⟩

section

variable (hok : LimitsOk has63BitSmis limits) (source : DartString) (hradix : ValidRadix radix)
include hok source hradix

theorem parse_spec :
    (∃ v, (parse has63BitSmis limits source radix none).2 = .ok v ∧
      Denotes radix source.units v) ∨
    ((∃ message index, (parse has63BitSmis limits source radix none).2
        = .error (.formatException message source index)) ∧
      ∀ v, ¬ Denotes radix source.units v) := by
  unfold parse
  by_cases hempty : source.units.isEmpty = true
  · obtain ⟨message, index, hthrow⟩ :=
      handleFormatError_throws source ⟨some 0, radix.map toNat, none⟩
    simp only [if_pos hempty, hthrow]
    refine .inr ⟨⟨message, index, rfl⟩, ?_⟩
    rw [isEmpty_iff.1 hempty]
    exact not_denotes_nil hradix
  · simp only [if_neg hempty]
    rcases parseWith_answers hok none source hradix with ⟨v, hv, hden⟩ | ⟨p, hp, hnone⟩
    · exact .inl ⟨v, by rw [hv]; rfl, hden⟩
    · obtain ⟨message, index, hthrow⟩ := handleFormatError_throws source p
      exact .inr ⟨⟨message, index, by rw [hp, hthrow]; rfl⟩, hnone⟩

/-- The path over blocks returns what the fast path returns. -/
theorem parseTrimmed_of_tryParseSmi (hten : radix = none ∨ radix = some 10)
    (hsmi : tryParseSmi has63BitSmis source.units = some v) :
    (parseTrimmed has63BitSmis limits source (radix.map toNat)).2 = .ok v := by
  have hden := tryParseSmi_denotes hsmi hten
  rcases (parseTrimmed_decides hok source hradix).1 with ⟨w, hw, hden'⟩ | ⟨p, -, hnone⟩
  · rw [hw, hden.unique hradix hden']
  · exact absurd hden (hnone v)

end

end Entry

/-- After any sequence of calls, `tryParse` returns the integer that the string denotes and `null`
if there is none; `parse` returns the same, but throws a `FormatException` for `null`; and the fast
path agrees with the path over blocks. -/
theorem tryParse_iff_denotes (has63BitSmis : Bool) (calls : List Call) (source : DartString)
    (radix : Option Int) (hradix : ValidRadix radix) :
    (∀ v, (tryParse has63BitSmis (limitsAfterCalls has63BitSmis calls) source radix).2
        = .ok (some v) ↔ Denotes radix source.units v) ∧
    ((tryParse has63BitSmis (limitsAfterCalls has63BitSmis calls) source radix).2 = .ok none ↔
      ∀ v, ¬ Denotes radix source.units v) ∧
    (∀ v, (parse has63BitSmis (limitsAfterCalls has63BitSmis calls) source radix none).2 = .ok v ↔
      (tryParse has63BitSmis (limitsAfterCalls has63BitSmis calls) source radix).2
        = .ok (some v)) ∧
    ((∃ message index,
        (parse has63BitSmis (limitsAfterCalls has63BitSmis calls) source radix none).2
          = .error (.formatException message source index)) ↔
      (tryParse has63BitSmis (limitsAfterCalls has63BitSmis calls) source radix).2 = .ok none) ∧
    (∀ v, radix = none ∨ radix = some 10 → tryParseSmi has63BitSmis source.units = some v →
      (parseTrimmed has63BitSmis (limitsAfterCalls has63BitSmis calls) source
        (radix.map Int.toNat)).2 = .ok v) := by
  have hok := limitsAfterCalls_ok has63BitSmis calls
  generalize limitsAfterCalls has63BitSmis calls = limits at hok
  have hslow := fun v hten hsmi =>
    parseTrimmed_of_tryParseSmi (v := v) hok source hradix hten hsmi
  rcases tryParse_spec hok source hradix with ⟨v, hv, hden⟩ | ⟨hv, hnone⟩
  · -- the string denotes `v`
    rcases parse_spec hok source hradix with ⟨w, hw, hden'⟩ | ⟨-, hnone⟩
    · obtain rfl : w = v := hden'.unique hradix hden
      rw [hv, hw]
      refine ⟨fun u => ?_, ?_, fun u => ?_, ?_, hslow⟩
      · rw [Except.ok.injEq, some.injEq]
        exact ⟨fun h => h ▸ hden, hden.unique hradix⟩
      · exact iff_of_false (by simp) fun h => h w hden
      · rw [Except.ok.injEq, Except.ok.injEq, some.injEq]
      · exact iff_of_false (by simp) (by simp)
    · exact absurd hden (hnone v)
  · -- it denotes no integer
    rcases parse_spec hok source hradix with ⟨w, -, hden⟩ | ⟨⟨message, index, hw⟩, -⟩
    · exact absurd hden (hnone w)
    · rw [hv, hw]
      refine ⟨fun u => ?_, ?_, fun u => ?_, ?_, hslow⟩
      · exact iff_of_false (by simp) (hnone u)
      · exact iff_of_true rfl hnone
      · exact iff_of_false (by simp) (by simp)
      · exact iff_of_true ⟨message, index, rfl⟩ rfl

/-- Without a radix, ` 0xFF` denotes 255 after a call with another radix. -/
theorem tryParse_iff_denotes_hex :
    (tryParse true (limitsAfterCalls true [.tryParse ⟨[0x31], true, by decide⟩ (some 2)])
        ⟨[0x20, 0x30, 0x78, 0x46, 0x46], true, by decide⟩ none).2 = .ok (some 255) ↔
      Denotes none [0x20, 0x30, 0x78, 0x46, 0x46] 255 :=
  (tryParse_iff_denotes true [.tryParse ⟨[0x31], true, by decide⟩ (some 2)]
    ⟨[0x20, 0x30, 0x78, 0x46, 0x46], true, by decide⟩ none (fun r hr => by simp at hr)).1 255

end Dart2Wasm.IntParse
