import Dart2Wasm.Lib.Gregorian
import Dart2Wasm.CoreLibrary.Integer

/-!
# DateTime — from microseconds to calendar fields and back

`date_patch.dart` turns a time stamp into fields by splitting off cycles of 400, 100, 4 and 1 years
(`_computeUpperPart`) and fields into a time stamp by counting leap years with floored divisions
(`_brokenDownDateToValue`). The model keeps both as they are, over 64-bit integers, and compares
them with the calendar of `Lib.Gregorian`.

* Every time stamp in range has the fields of its day, and is recovered from them.
* Fields in range are recovered from their time stamp.
* Other fields are carried over exactly unless the 64-bit sum wraps around.
-/

namespace Dart2Wasm.DateTime

open Lib.MachineInt Integer Int64 Option
open Int hiding ofNat

variable {a b x year days d month : Int64} {n m h s ms us t : Int}

/-! ## The source -/

def microsecondsPerMillisecond : Int64 := 1000
def microsecondsPerSecond : Int64 := 1000000
def microsecondsPerMinute : Int64 := 60000000
def microsecondsPerHour : Int64 := 3600000000
def microsecondsPerDay : Int64 := 86400000000
def millisecondsPerSecond : Int64 := 1000
def secondsPerMinute : Int64 := 60
def minutesPerHour : Int64 := 60
def hoursPerDay : Int64 := 24
def monday : Int64 := 1
def thursday : Int64 := 4
def daysPerWeek : Int64 := 7
def maxMillisecondsSinceEpoch : Int64 := 8640000000000000

/-- `_DAYS_UNTIL_MONTH`, the days until each month in non-leap and in leap years -/
def daysUntilMonth : Bool → List Int64
  | false => [0, 31, 59, 90, 120, 151, 181, 212, 243, 273, 304, 334]
  | true => [0, 31, 60, 91, 121, 152, 182, 213, 244, 274, 305, 335]

/-- The list that `_computeUpperPart` fills. -/
structure Parts where
  microsecond : Int64
  millisecond : Int64
  second : Int64
  minute : Int64
  hour : Int64
  day : Int64
  weekday : Int64
  month : Int64
  year : Int64
  deriving DecidableEq

def flooredDivision (a b : Int64) : Int64 :=
  (a - (if a < 0 then b - 1 else 0)) / b

def daysIn4Years : Int64 := 4 * 365 + 1
def daysIn100Years : Int64 := 25 * daysIn4Years - 1
def daysIn400Years : Int64 := 4 * daysIn100Years + 1
def days1970To2000 : Int64 := 30 * 365 + 7
def daysOffset : Int64 := 1000 * daysIn400Years + 5 * daysIn400Years - days1970To2000
def yearsOffset : Int64 := 400000

/-- The first half of `_computeUpperPart`: the year of a day, the days passed in it, and whether it
is a leap year. -/
def splitYears (daysSince1970 : Int64) : Int64 × Int64 × Bool :=
  let days := daysSince1970 + daysOffset
  let resultYear := 400 * (days / daysIn400Years) - yearsOffset
  let days := Integer.remainder days daysIn400Years
  let days := days - 1
  let yd1 := days / daysIn100Years
  let days := Integer.remainder days daysIn100Years
  let resultYear := resultYear + 100 * yd1
  let days := days + 1
  let yd2 := days / daysIn4Years
  let days := Integer.remainder days daysIn4Years
  let resultYear := resultYear + 4 * yd2
  let days := days - 1
  let yd3 := days / 365
  let days := Integer.remainder days 365
  let resultYear := resultYear + yd3
  let isLeap := (yd1 == 0 || yd2 != 0) && yd3 == 0
  let days := if isLeap then days + 1 else days
  (resultYear, days, isLeap)

/-- The loop of `_computeUpperPart`: from December down to the first month not after `days`. Below
January the list access throws. -/
def findMonth (table : List Int64) (days : Int64) : Nat → Option Nat
  | 0 => none
  | month + 1 =>
    match table[month]? with
    | none => none
    | some until_ => if until_ > days then findMonth table days month else some (month + 1)

/-- `_computeUpperPart`; no result stands for an index out of the table. -/
def computeUpperPart (localMicros : Int64) : Option Parts := do
  let daysSince1970 := flooredDivision localMicros microsecondsPerDay
  let (resultYear, days, isLeap) := splitYears daysSince1970
  let resultMonth ← findMonth (daysUntilMonth isLeap) days 12
  let until_ ← (daysUntilMonth isLeap)[resultMonth - 1]?
  let resultDay := days - until_ + 1
  let resultMicrosecond := Integer.modulo localMicros microsecondsPerMillisecond
  let resultMillisecond :=
    Integer.modulo (flooredDivision localMicros microsecondsPerMillisecond) millisecondsPerSecond
  let resultSecond :=
    Integer.modulo (flooredDivision localMicros microsecondsPerSecond) secondsPerMinute
  let resultMinute :=
    Integer.modulo (flooredDivision localMicros microsecondsPerMinute) minutesPerHour
  let resultHour := Integer.modulo (flooredDivision localMicros microsecondsPerHour) hoursPerDay
  let resultWeekday := Integer.modulo (daysSince1970 + thursday - monday) daysPerWeek + monday
  pure {
    microsecond := resultMicrosecond
    millisecond := resultMillisecond
    second := resultSecond
    minute := resultMinute
    hour := resultHour
    day := resultDay
    weekday := resultWeekday
    month := Int64.ofNat resultMonth
    year := resultYear }

def dayFromYear (year : Int64) : Int64 :=
  365 * (year - 1970) + flooredDivision (year - 1969) 4 - flooredDivision (year - 1901) 100 +
    flooredDivision (year - 1601) 400

def isLeapYear (y : Int64) : Bool :=
  Integer.modulo y 4 == 0 && (Integer.modulo y 16 == 0 || Integer.modulo y 100 != 0)

structure Fields where
  year : Int64
  month : Int64
  day : Int64
  hour : Int64
  minute : Int64
  second : Int64
  millisecond : Int64
  microsecond : Int64
  deriving DecidableEq

/-- The month adjustment of `_brokenDownDateToValue`: year and zero-based month. -/
def carryMonth (year month : Int64) : Int64 × Int64 :=
  let month := month - 1
  if month ≥ 12 then (year + month / 12, Integer.modulo month 12)
  else if month < 0 then
    let realMonth := Integer.modulo month 12
    (year + (month - realMonth) / 12, realMonth)
  else (year, month)

/-- The sum of `_brokenDownDateToValue`; no result stands for an index out of the table. -/
def sumMicros (f : Fields) : Option Int64 := do
  let (year, month) := carryMonth f.year f.month
  let days := f.day - 1
  let until_ ← (daysUntilMonth (isLeapYear year))[month.toNatClampNeg]?
  let days := days + until_
  let days := days + dayFromYear year
  pure (days * microsecondsPerDay + f.hour * microsecondsPerHour +
    f.minute * microsecondsPerMinute + f.second * microsecondsPerSecond +
    f.millisecond * microsecondsPerMillisecond + f.microsecond)

/-- `_brokenDownDateToValue`; the outer `none` is a throw, the inner one the result `null`. The
time zone is the parameter `toLocalTimeOffset`. -/
def brokenDownDateToValue (toLocalTimeOffset : Int64 → Int64) (f : Fields) (isUtc : Bool) :
    Option (Option Int64) := do
  let microsecondsSinceEpoch ← sumMicros f
  let limit := maxMillisecondsSinceEpoch * microsecondsPerMillisecond
  if !isUtc && Integer.abs microsecondsSinceEpoch > limit + microsecondsPerDay then
    pure none
  else
    let microsecondsSinceEpoch :=
      if isUtc then microsecondsSinceEpoch
      else microsecondsSinceEpoch - toLocalTimeOffset microsecondsSinceEpoch
    if Integer.abs microsecondsSinceEpoch > limit then pure none
    else pure (some microsecondsSinceEpoch)

/-- `DateTime._internal`; no result is a throw. The value -1 stands for `null`. -/
def internal (toLocalTimeOffset : Int64 → Int64) (f : Fields) (isUtc : Bool) : Option Int64 := do
  let value := (← brokenDownDateToValue toLocalTimeOffset f isUtc).getD (-1)
  if value == -1 then none else pure value

/-! ## Specification -/

open Lib.Gregorian

def limit : Int := 8640000000000000 * 1000

def InRange (t : Int) : Prop := -limit ≤ t ∧ t ≤ limit

instance (t : Int) : Decidable (InRange t) :=
  inferInstanceAs (Decidable (_ ∧ _))

/-- Every field is in the range the calendar and the clock give it. -/
structure Fields.Valid (f : Fields) : Prop where
  date : ValidDate f.year.toInt f.month.toInt f.day.toInt
  hour : 0 ≤ f.hour.toInt ∧ f.hour.toInt < 24
  minute : 0 ≤ f.minute.toInt ∧ f.minute.toInt < 60
  second : 0 ≤ f.second.toInt ∧ f.second.toInt < 60
  millisecond : 0 ≤ f.millisecond.toInt ∧ f.millisecond.toInt < 1000
  microsecond : 0 ≤ f.microsecond.toInt ∧ f.microsecond.toInt < 1000

def Parts.fields (p : Parts) : Fields :=
  ⟨p.year, p.month, p.day, p.hour, p.minute, p.second, p.millisecond, p.microsecond⟩

/-- The microseconds from the first moment of day 0 to a day and a time of day. -/
def microsOf (day hour minute second millisecond microsecond : Int) : Int :=
  day * 86400000000 + hour * 3600000000 + minute * 60000000 + second * 1000000 +
    millisecond * 1000 + microsecond

def carriedYear (f : Fields) : Int := f.year.toInt + (f.month.toInt - 1) / 12

/-- The time stamp of the day and clock fields, counted on from the first of a month (January is
0). -/
def Fields.microsIn (f : Fields) (year month : Int) : Int :=
  microsOf (dayNumber year (month + 1) f.day.toInt)
    f.hour.toInt f.minute.toInt f.second.toInt f.millisecond.toInt f.microsecond.toInt

/-- The exact time stamp of a tuple of fields: months are carried into the year, everything else
is counted on from the first of the month. -/
def carriedMicros (f : Fields) : Int := f.microsIn (carriedYear f) ((f.month.toInt - 1) % 12)

/-- The carried year in 64 bits. Rounding the nine least months down to whole years leaves the
range; the years then get the other sign. -/
def wrappedYear (f : Fields) : Int :=
  (carriedYear f + if f.month.toInt ≤ -2 ^ 63 + 8 then 1537228672809129301 else 0).bmod (2 ^ 64)

/-- The zero-based month in 64 bits, where the least month has no predecessor. -/
def wrappedMonth (f : Fields) : Int := (f.month.toInt - 1).bmod (2 ^ 64) % 12

/-- The error of a floored quotient whose dividend, as it is or lowered for the rounding, falls
below the 64-bit range. -/
def divisionError (n k : Int) : Int :=
  if n < -2 ^ 63 then (n + 2 ^ 64) / k - n / k
  else if n - (k - 1) < -2 ^ 63 then (n - (k - 1) + 2 ^ 64) / k - n / k
  else 0

/-- The days by which the count of the leap years is wrong in the least years. -/
def leapError (y : Int) : Int :=
  divisionError (y - 1969) 4 - divisionError (y - 1901) 100 + divisionError (y - 1601) 400

/-- The time stamp in 64 bits: that of the wrapped year and month, modulo `2 ^ 64`. -/
def wrappedMicros (f : Fields) : Int :=
  (f.microsIn (wrappedYear f) (wrappedMonth f) + leapError (wrappedYear f) * 86400000000).bmod
    (2 ^ 64)

/-! ## Divisions -/

theorem toInt_pred (hx : -2 ^ 63 < x.toInt) : (x - 1).toInt = x.toInt - 1 := by
  have hlt := toInt_lt x
  exact toInt_sub_eq rfl rfl (by omega)

theorem toInt_succ (hlow : -1 ≤ x.toInt) (hhigh : x.toInt < 36524) : (x + 1).toInt = x.toInt + 1 :=
  toInt_add_eq rfl rfl (by omega)

theorem flooredDivision_toInt (hb : 0 < b.toInt) (ha : -2 ^ 63 ≤ a.toInt - (b.toInt - 1)) :
    (flooredDivision a b).toInt = a.toInt / b.toInt := by
  have hone : (b - 1).toInt = b.toInt - 1 := toInt_pred (by omega)
  by_cases hneg : a < 0
  · have hneg' : a.toInt < 0 := lt_iff_toInt_lt.1 hneg
    have hsub : (a - (b - 1)).toInt = -(-a.toInt + (b.toInt - 1)) := by
      rw [toInt_sub_eq rfl hone (by omega)]
      omega
    -- for a negative dividend the truncation rounds the other way
    have hdiv : (-a.toInt + (b.toInt - 1)) / b.toInt = -(a.toInt / b.toInt) := by
      have hle := Int.ediv_mul_le a.toInt (Int.ne_of_gt hb)
      have hlt := lt_ediv_add_one_mul_self a.toInt hb
      rw [Int.add_mul, Int.one_mul] at hlt
      refine ((Int.ediv_emod_unique
        (r := -a.toInt + (b.toInt - 1) + a.toInt / b.toInt * b.toInt) hb).2 ⟨?_, ?_, ?_⟩).1
      · rw [Int.mul_neg, Int.mul_comm b.toInt]
        omega
      · omega
      · omega
    rw [flooredDivision, if_pos hneg, toInt_div_of_pos hb, hsub, Int.neg_tdiv,
      tdiv_eq_ediv_of_nonneg (by omega), hdiv, neg_neg]
  · have hneg' : 0 ≤ a.toInt := not_lt.1 fun h => hneg (lt_iff_toInt_lt.2 h)
    have hzero : a - 0 = a := by simp
    rw [flooredDivision, if_neg hneg, hzero, toInt_div_of_pos hb, tdiv_eq_ediv_of_nonneg hneg']

theorem exists_div_remainder {k : Int} (hx : x.toInt = n) (hb : b.toInt = k)
    (hn : -1 ≤ n) (hk : 1 < k) :
    ∃ q r : Int64, x / b = q ∧ remainder x b = r ∧ n = k * q.toInt + r.toInt ∧
      0 ≤ q.toInt ∧ r.toInt < k ∧
      ((0 ≤ n ∧ 0 ≤ r.toInt) ∨ (n = -1 ∧ q.toInt = 0 ∧ r.toInt = -1)) := by
  subst hx hb
  have hpos : 0 < b.toInt := by omega
  refine ⟨_, _, rfl, rfl, ?_⟩
  rw [toInt_div_of_pos hpos, remainder_toInt hpos]
  have heq := mul_tdiv_add_tmod x.toInt b.toInt
  have hlt := tmod_lt_of_pos x.toInt hpos
  by_cases hneg : 0 ≤ x.toInt
  · have hq : 0 ≤ x.toInt.tdiv b.toInt := Int.tdiv_nonneg hneg (Int.le_of_lt hpos)
    have hr : 0 ≤ x.toInt.tmod b.toInt := tmod_nonneg b.toInt hneg
    exact ⟨heq.symm, hq, hlt, .inl ⟨hneg, hr⟩⟩
  have hx1 : x.toInt = -1 := by omega
  have hq : x.toInt.tdiv b.toInt = 0 := by
    rw [hx1, Int.neg_tdiv, Int.tdiv_eq_zero_of_lt (by decide) hk, Int.neg_zero]
  have hr : x.toInt.tmod b.toInt = -1 := by
    rw [hq, Int.mul_zero, Int.zero_add] at heq
    rw [heq, hx1]
  exact ⟨heq.symm, hq.ge, hlt, .inr ⟨hx1, hq, hr⟩⟩

/-! ## From time stamps to fields -/

/-- Quotients and remainders of a day by 400, 100, 4 and 1 years, with the days lowered by one
around the divisions by 100 and 1 years, whose cycles have a longer first year. -/
structure Quotients (n a r b r₁ c r₂ e r₃ : Int) : Prop where
  days400 : n + 146816528 = 146097 * a + r
  rest400 : 0 ≤ r ∧ r < 146097
  days100 : r - 1 = 36524 * b + r₁
  nonneg100 : 0 ≤ b
  rest100 : r₁ < 36524
  sign100 : (0 ≤ r - 1 ∧ 0 ≤ r₁) ∨ (r - 1 = -1 ∧ b = 0 ∧ r₁ = -1)
  days4 : r₁ + 1 = 1461 * c + r₂
  rest4 : 0 ≤ r₂ ∧ r₂ < 1461
  days1 : r₂ - 1 = 365 * e + r₃
  nonneg1 : 0 ≤ e
  rest1 : r₃ < 365
  sign1 : (0 ≤ r₂ - 1 ∧ 0 ≤ r₃) ∨ (r₂ - 1 = -1 ∧ e = 0 ∧ r₃ = -1)

theorem Quotients.year_eq {a r b r₁ c r₂ e r₃ y days : Int} (h : Quotients n a r b r₁ c r₂ e r₃)
    (hy : y = 400 * a - 400000 + 100 * b + 4 * c + e)
    (hdays : days = if (b = 0 ∨ c ≠ 0) ∧ e = 0 then r₃ + 1 else r₃) :
    (IsLeap y ↔ (b = 0 ∨ c ≠ 0) ∧ e = 0) ∧ daysBeforeYear y + days = n ∧
      0 ≤ days ∧ days < yearLength y := by
  obtain ⟨h400, hr, h100, hb, hr₁, hr₁', h4, hr₂, h1, he, hr₃, hr₃'⟩ := h
  have hb3 : b ≤ 3 := by omega
  have hc24 : 0 ≤ c ∧ c ≤ 24 := by omega
  have he3 : e ≤ 3 := by omega
  have hleap : IsLeap y ↔ (b = 0 ∨ c ≠ 0) ∧ e = 0 := by
    unfold IsLeap
    have hmod : y % 400 = 100 * b + 4 * c + e := by omega
    have hmod' : y % 100 = 4 * c + e := by omega
    have hmod'' : y % 4 = e := by omega
    omega
  -- the floored divisions of the day count, by the same quotients
  have hdiv4 : (y - 1969) / 4 = 100 * (a - 1000) + 25 * b + c - 493 + (if e = 0 then 0 else 1) := by
    split <;> omega
  have hdiv100 : (y - 1901) / 100
      = 4 * (a - 1000) + b - 20 + (if c = 0 ∧ e = 0 then 0 else 1) := by
    split <;> omega
  have hdiv400 : (y - 1601) / 400
      = (a - 1000) - 5 + (if b = 0 ∧ c = 0 ∧ e = 0 then 0 else 1) := by
    split <;> omega
  refine ⟨hleap, ?_⟩
  rw [yearLength, daysBeforeYear_eq, hdiv4, hdiv100, hdiv400, hdays]
  by_cases hl : (b = 0 ∨ c ≠ 0) ∧ e = 0
  · rw [if_pos hl, if_pos (hleap.2 hl)]
    omega
  · rw [if_neg hl, if_neg (fun h => hl (hleap.1 h))]
    omega

theorem splitYears_results {r yd1 r₁ yd2 r₂ yd3 r₃ : Int64} (hn : -100000000 ≤ n ∧ n ≤ 100000000)
    (h : Quotients n a.toInt r.toInt yd1.toInt r₁.toInt yd2.toInt r₂.toInt yd3.toInt r₃.toInt)
    {isLeap : Bool} (hyear : year = 400 * a - yearsOffset + 100 * yd1 + 4 * yd2 + yd3)
    (hisLeap : isLeap = ((yd1 == 0 || yd2 != 0) && yd3 == 0))
    (hdays : days = if isLeap then r₃ + 1 else r₃) :
    isLeap = decide (IsLeap year.toInt) ∧ daysBeforeYear year.toInt + days.toInt = n ∧
      0 ≤ days.toInt ∧ days.toInt < yearLength year.toInt := by
  have ⟨h400, hr, h100, hyd1, hr₁, hr₁', h4, hr₂, h1, hyd3, hr₃, hr₃'⟩ := h
  have hyear' : year.toInt
      = 400 * a.toInt - 400000 + 100 * yd1.toInt + 4 * yd2.toInt + yd3.toInt := by
    have hwrap : year = ofInt
        (400 * a.toInt - 400000 + 100 * yd1.toInt + 4 * yd2.toInt + yd3.toInt) := by
      simp only [ofInt_add, ofInt_sub, ofInt_mul, ofInt_toInt]
      exact hyear
    rw [hwrap, toInt_ofInt_of_le]
    · omega
    · omega
  have hzero : ∀ x : Int64, x = 0 ↔ x.toInt = 0 := fun x => (toInt_inj (y := 0)).symm
  have hisLeap' : isLeap = true ↔ (yd1.toInt = 0 ∨ yd2.toInt ≠ 0) ∧ yd3.toInt = 0 := by
    simp [hisLeap, hzero]
  have hdays' : days.toInt
      = if (yd1.toInt = 0 ∨ yd2.toInt ≠ 0) ∧ yd3.toInt = 0 then r₃.toInt + 1 else r₃.toInt := by
    by_cases hl : isLeap = true
    · rw [hdays, if_pos hl, if_pos (hisLeap'.1 hl), toInt_succ] <;> omega
    · rw [hdays, if_neg hl, if_neg (fun h => hl (hisLeap'.2 h))]
  obtain ⟨hleap, hcount⟩ := h.year_eq hyear' hdays'
  refine ⟨?_, hcount⟩
  rw [Bool.eq_iff_iff, hisLeap', decide_eq_true_iff, hleap]

/-- `splitYears` finds the year of a day and the days passed in it. -/
theorem splitYears_spec (hd : -100000000 ≤ d.toInt ∧ d.toInt ≤ 100000000) :
    ∃ year days, splitYears d = (year, days, decide (IsLeap year.toInt)) ∧
      daysBeforeYear year.toInt + days.toInt = d.toInt ∧
      0 ≤ days.toInt ∧ days.toInt < yearLength year.toInt := by
  have hdays : (d + daysOffset).toInt = d.toInt + 146816528 :=
    toInt_add_eq rfl (by decide) (by omega)
  -- one division after the other; each leaves its quotient and its remainder
  obtain ⟨a, r, hdiv₀, hrem₀, h400, -, hr, hr'⟩ :=
    exists_div_remainder hdays (b := daysIn400Years) (k := 146097) (by decide) (by omega)
      (by decide)
  have hr0 : 0 ≤ r.toInt := by omega
  obtain ⟨yd1, r₁, hdiv₁, hrem₁, h100, hyd1, hr₁, hr₁'⟩ :=
    exists_div_remainder (toInt_pred (x := r) (by omega)) (b := daysIn100Years) (k := 36524)
      (by decide) (by omega) (by decide)
  have hr₁0 : -1 ≤ r₁.toInt := by omega
  obtain ⟨yd2, r₂, hdiv₂, hrem₂, h4, -, hr₂, hr₂'⟩ :=
    exists_div_remainder (toInt_succ hr₁0 hr₁) (b := daysIn4Years) (k := 1461) (by decide)
      (by omega) (by decide)
  have hr₂0 : 0 ≤ r₂.toInt := by omega
  obtain ⟨yd3, r₃, hdiv₃, hrem₃, h1, hyd3, hr₃, hr₃'⟩ :=
    exists_div_remainder (toInt_pred (x := r₂) (by omega)) (b := 365) (k := 365) rfl (by omega)
      (by decide)
  have hresults := splitYears_results hd ⟨h400, ⟨hr0, hr⟩, h100, hyd1, hr₁, hr₁', h4, ⟨hr₂0, hr₂⟩,
    h1, hyd3, hr₃, hr₃'⟩ rfl rfl rfl
  refine ⟨_, _, ?_, hresults.2⟩
  rw [← hresults.1]
  simp only [splitYears, hdiv₀, hrem₀, hdiv₁, hrem₁, hdiv₂, hrem₂, hdiv₃, hrem₃]

/-! ### Months -/

theorem daysUntilMonth_get (y : Int) {i : Nat} (hi : i < 12) :
    ∃ u, (daysUntilMonth (decide (IsLeap y)))[i]? = some u ∧
      u.toInt = daysBeforeMonth y (i + 1) := by
  have hcount : ((i : Int) + 1 - 1).toNat = i := by omega
  rw [daysBeforeMonth, hcount]
  by_cases hleap : IsLeap y
  · rw [decide_eq_true hleap]
    interval_cases i <;>
      refine ⟨_, rfl, ?_⟩ <;> simp [Finset.sum_range_succ, monthLength, hleap]
  · rw [decide_eq_false hleap]
    interval_cases i <;>
      refine ⟨_, rfl, ?_⟩ <;> simp [Finset.sum_range_succ, monthLength, hleap]

theorem findMonth_spec (y : Int) (hdays : 0 ≤ days.toInt) {k : Nat} (hk : 1 ≤ k) (hk' : k ≤ 12) :
    ∃ m : Nat, findMonth (daysUntilMonth (decide (IsLeap y))) days k = some m ∧ 1 ≤ m ∧ m ≤ k ∧
      daysBeforeMonth y m ≤ days.toInt ∧ (m < k → days.toInt < daysBeforeMonth y (m + 1)) := by
  induction k with
  | zero => omega
  | succ k ih =>
    obtain ⟨u, hget, hu⟩ := daysUntilMonth_get y (i := k) hk'
    by_cases hlater : u > days
    · have hlater' : days.toInt < daysBeforeMonth y (k + 1) := by
        rw [← hu]
        exact lt_iff_toInt_lt.1 hlater
      have hk1 : 1 ≤ k := by
        -- January starts at 0, which is not after any day
        rcases Nat.eq_zero_or_pos k with rfl | hpos
        · exact absurd hlater' (not_lt.2 hdays)
        · exact hpos
      obtain ⟨m, hfind, hm, hmk, hle, hlt⟩ := ih hk1 (Nat.le_of_succ_le hk')
      refine ⟨m, ?_, hm, Nat.le_succ_of_le hmk, hle, ?_⟩
      · simp only [findMonth, hget, if_pos hlater, hfind]
      · intro _
        rcases Nat.lt_or_ge m k with h | h
        · exact hlt h
        · obtain rfl : m = k := Nat.le_antisymm hmk h
          exact hlater'
    · have hle : u.toInt ≤ days.toInt := not_lt.1 fun h => hlater (lt_iff_toInt_lt.2 h)
      refine ⟨k + 1, ?_, hk, Nat.le_refl _, ?_, fun h => absurd h (Nat.lt_irrefl _)⟩
      · simp only [findMonth, hget, if_neg hlater]
      · rw [Nat.cast_add, Nat.cast_one, ← hu]
        exact hle

/-! ### All fields -/

/-- A division and a remainder by positive constants are exact on time stamps in range. -/
theorem clockField_toInt {t k l : Int64} (ht : InRange t.toInt)
    (hk : 0 < k.toInt ∧ k.toInt ≤ 86400000000) (hl : 0 < l.toInt) :
    (modulo (flooredDivision t k) l).toInt = t.toInt / k.toInt % l.toInt := by
  have hlow : -8640000000000000000 ≤ t.toInt := ht.1
  rw [modulo_toInt hl, flooredDivision_toInt hk.1 (by omega)]

theorem yearLength_le (y : Int) : yearLength y ≤ 366 := by
  unfold yearLength
  split <;> decide

theorem exists_month_day (y : Int) (hnonneg : 0 ≤ days.toInt)
    (hlength : days.toInt < yearLength y) :
    ∃ (m : Nat) (u : Int64), findMonth (daysUntilMonth (decide (IsLeap y))) days 12 = some m ∧
      (daysUntilMonth (decide (IsLeap y)))[m - 1]? = some u ∧
      ValidDate y m (days - u + 1).toInt ∧
      daysBeforeMonth y m + ((days - u + 1).toInt - 1) = days.toInt := by
  obtain ⟨m, hfind, hm, hm', hmle, hmlt⟩ :=
    findMonth_spec y hnonneg (k := 12) (by decide) (Nat.le_refl _)
  obtain ⟨u, hget, hu⟩ := daysUntilMonth_get y (i := m - 1) (by omega)
  have hindex : ((m - 1 : Nat) : Int) + 1 = m := by omega
  rw [hindex] at hu
  have hnext : days.toInt < daysBeforeMonth y (m + 1) := by
    rcases Nat.lt_or_ge m 12 with h | h
    · exact hmlt h
    · obtain rfl : m = 12 := Nat.le_antisymm hm' h
      exact hlength.trans_eq (daysBeforeMonth_thirteen y).symm
  rw [daysBeforeMonth_succ y (by omega)] at hnext
  have hbound := yearLength_le y
  have hmonth : 0 ≤ daysBeforeMonth y m := daysBeforeMonth_monotone y (show (1 : Int) ≤ m by omega)
  have hday : (days - u + 1).toInt = days.toInt - daysBeforeMonth y m + 1 :=
    toInt_add_eq (toInt_sub_eq rfl hu (by omega)) rfl (by omega)
  refine ⟨m, u, hfind, hget, ⟨by omega, by omega, ?_, ?_⟩, ?_⟩
  · rw [hday]
    omega
  · rw [hday]
    omega
  · rw [hday]
    omega

theorem weekday_toInt (hd : -100000000 ≤ d.toInt ∧ d.toInt ≤ 100000000) :
    (modulo (d + thursday - monday) daysPerWeek + monday).toInt = isoWeekday d.toInt := by
  have hsum : (d + thursday).toInt = d.toInt + 4 := toInt_add_eq rfl rfl (by omega)
  have hsub : (d + thursday - monday).toInt = d.toInt + 4 - 1 := toInt_sub_eq hsum rfl (by omega)
  have hmod : (modulo (d + thursday - monday) daysPerWeek).toInt = (d.toInt + 3) % 7 := by
    rw [modulo_toInt (by decide), hsub, show d.toInt + 4 - 1 = d.toInt + 3 by omega]
    rfl
  exact toInt_add_eq hmod rfl (by omega)

/-- A time stamp in range has the fields of its day and of its time of day. -/
theorem computeUpperPart_spec {t : Int64} (ht : InRange t.toInt) :
    ∃ p, computeUpperPart t = some p ∧ p.fields.Valid ∧
      p.weekday.toInt = isoWeekday (dayNumber p.year.toInt p.month.toInt p.day.toInt) ∧
      microsOf (dayNumber p.year.toInt p.month.toInt p.day.toInt) p.hour.toInt p.minute.toInt
        p.second.toInt p.millisecond.toInt p.microsecond.toInt = t.toInt := by
  have hlow : -8640000000000000000 ≤ t.toInt := ht.1
  have hhigh : t.toInt ≤ 8640000000000000000 := ht.2
  obtain ⟨d, hd, hday⟩ : ∃ d, flooredDivision t microsecondsPerDay = d ∧
      d.toInt = t.toInt / 86400000000 :=
    ⟨_, rfl, flooredDivision_toInt (by decide) (by
      show -2 ^ 63 ≤ t.toInt - (86400000000 - 1)
      omega)⟩
  have hbounds : -100000000 ≤ d.toInt ∧ d.toInt ≤ 100000000 := by omega
  obtain ⟨year, days, hsplit, hcount, hnonneg, hlength⟩ := splitYears_spec hbounds
  obtain ⟨m, u, hfind, hget, hvalid, hdays⟩ := exists_month_day year.toInt hnonneg hlength
  have hnumber : dayNumber year.toInt m (days - u + 1).toInt = d.toInt := by
    rw [dayNumber]
    omega
  have hmonth := toInt_ofNat_of_lt (n := m) (by have := hvalid.month_le; omega)
  -- the clock fields are the digits of the time of day
  have hmicrosecond : (modulo t microsecondsPerMillisecond).toInt = t.toInt % 1000 :=
    modulo_toInt (by decide)
  have hmillisecond : (modulo (flooredDivision t microsecondsPerMillisecond)
      millisecondsPerSecond).toInt = t.toInt / 1000 % 1000 :=
    clockField_toInt ht (by decide) (by decide)
  have hsecond : (modulo (flooredDivision t microsecondsPerSecond)
      secondsPerMinute).toInt = t.toInt / 1000000 % 60 :=
    clockField_toInt ht (by decide) (by decide)
  have hminute : (modulo (flooredDivision t microsecondsPerMinute)
      minutesPerHour).toInt = t.toInt / 60000000 % 60 :=
    clockField_toInt ht (by decide) (by decide)
  have hhour : (modulo (flooredDivision t microsecondsPerHour) hoursPerDay).toInt
      = t.toInt / 3600000000 % 24 :=
    clockField_toInt ht (by decide) (by decide)
  simp only [computeUpperPart, hd, hsplit, hfind, hget, Lib.some_bind]
  refine ⟨_, rfl, ⟨?_, ?_, ?_, ?_, ?_, ?_⟩, ?_, ?_⟩
  · show ValidDate year.toInt (ofNat m).toInt (days - u + 1).toInt
    rwa [hmonth]
  · simp only [Parts.fields, hhour]
    omega
  · simp only [Parts.fields, hminute]
    omega
  · simp only [Parts.fields, hsecond]
    omega
  · simp only [Parts.fields, hmillisecond]
    omega
  · simp only [Parts.fields, hmicrosecond]
    omega
  · simp only [hmonth, hnumber]
    exact weekday_toInt hbounds
  · simp only [hmonth, hnumber, hday, hhour, hminute, hsecond, hmillisecond, hmicrosecond, microsOf]
    omega

/-! ## From fields to time stamps -/

theorem isLeapYear_eq (y : Int64) : isLeapYear y = decide (IsLeap y.toInt) := by
  have hzero : ∀ x : Int64, x = 0 ↔ x.toInt = 0 := fun x => (toInt_inj (y := 0)).symm
  have h4 : (modulo y 4).toInt = y.toInt % 4 := modulo_toInt (by decide)
  have h16 : (modulo y 16).toInt = y.toInt % 16 := modulo_toInt (by decide)
  have h100 : (modulo y 100).toInt = y.toInt % 100 := modulo_toInt (by decide)
  rw [Bool.eq_iff_iff, decide_eq_true_iff]
  simp only [isLeapYear, Bool.and_eq_true, Bool.or_eq_true, beq_iff_eq, bne_iff_ne, ne_eq, hzero,
    h4, h16, h100, IsLeap]
  omega

/-- A difference below the 64-bit range comes back at its upper end. -/
theorem toInt_sub_of_below (hlow : a.toInt - b.toInt < -2 ^ 63) :
    (a - b).toInt = a.toInt - b.toInt + 2 ^ 64 := by
  have ha := le_toInt a
  have hb := toInt_lt b
  rw [Int64.toInt_sub, ← add_bmod_right]
  exact bmod_eq_of_le (by omega) (by omega)

theorem flooredDivision_eq {y k : Int64} (hk : 0 ≤ k.toInt) (hb : 0 < b.toInt)
    (hkb : k.toInt + (b.toInt - 1) ≤ 2000) :
    flooredDivision (y - k) b
      = ofInt ((y.toInt - k.toInt) / b.toInt + divisionError (y.toInt - k.toInt) b.toInt) := by
  have hmin := le_toInt y
  have hmax := toInt_lt y
  have hpred : (b - 1).toInt = b.toInt - 1 := toInt_pred (by omega)
  rw [← ofInt_toInt (flooredDivision (y - k) b)]
  congr 1
  by_cases hlow : y.toInt - k.toInt < -2 ^ 63
  · have hsub := toInt_sub_of_below hlow
    rw [flooredDivision_toInt hb (by omega), hsub, divisionError, if_pos hlow, add_sub_cancel]
  have hsub : (y - k).toInt = y.toInt - k.toInt := toInt_sub_eq rfl rfl (by omega)
  by_cases hround : y.toInt - k.toInt - (b.toInt - 1) < -2 ^ 63
  · -- the dividend is lowered for the rounding, and comes back as a large number
    have hneg : y - k < 0 := lt_iff_toInt_lt.2 (by
      show (y - k).toInt < 0
      omega)
    have hbelow : (y - k - (b - 1)).toInt = _ := toInt_sub_of_below (by omega)
    rw [flooredDivision, if_pos hneg, toInt_div_of_pos hb, hbelow, hsub, hpred,
      tdiv_eq_ediv_of_nonneg (by omega), divisionError, if_neg hlow, if_pos hround, add_sub_cancel]
  · rw [flooredDivision_toInt hb (by omega), hsub, divisionError, if_neg hlow, if_neg hround,
      add_zero]

theorem leapError_eq_zero {y : Int} (hy : -2 ^ 63 + 2000 ≤ y) : leapError y = 0 := by
  unfold leapError divisionError
  omega

/-- `_dayFromYear` counts the days before a year modulo `2 ^ 64`, up to the error of the least
years. -/
theorem dayFromYear_eq (y : Int64) :
    dayFromYear y = ofInt (daysBeforeYear y.toInt + leapError y.toInt) := by
  have hsum : daysBeforeYear y.toInt + leapError y.toInt
      = 365 * (y.toInt - 1970) + ((y.toInt - 1969) / 4 + divisionError (y.toInt - 1969) 4)
        - ((y.toInt - 1901) / 100 + divisionError (y.toInt - 1901) 100)
        + ((y.toInt - 1601) / 400 + divisionError (y.toInt - 1601) 400) := by
    rw [daysBeforeYear_eq, leapError]
    omega
  rw [hsum, ofInt_add, ofInt_sub, ofInt_add, ofInt_mul, ofInt_sub, ofInt_toInt, dayFromYear,
    flooredDivision_eq (by decide) (by decide) (by decide),
    flooredDivision_eq (by decide) (by decide) (by decide),
    flooredDivision_eq (by decide) (by decide) (by decide)]
  rfl

/-- The months are carried into the year, unless rounding them down to whole years leaves the 64-bit
range. -/
theorem carryMonth_spec (year month : Int64) :
    (carryMonth year month).2.toInt = (month - 1).toInt % 12 ∧
      (-2 ^ 63 + 8 ≤ (month - 1).toInt →
        (carryMonth year month).1 = year + ofInt ((month - 1).toInt / 12)) := by
  have htwelve : (12 : Int64).toInt = 12 := rfl
  unfold carryMonth
  obtain ⟨z, hz⟩ : ∃ z, month - 1 = z := ⟨_, rfl⟩
  have hreal : (modulo z 12).toInt = z.toInt % 12 := modulo_toInt (by decide)
  simp only [hz]
  by_cases hhigh : z ≥ 12
  · have hhigh' : 12 ≤ z.toInt := le_iff_toInt_le.1 hhigh
    have hdiv : (z / 12).toInt = z.toInt / 12 := by
      rw [toInt_div_of_pos (by decide), htwelve, tdiv_eq_ediv_of_nonneg (by omega)]
    rw [if_pos hhigh, ← hdiv, ofInt_toInt]
    exact ⟨hreal, fun _ => rfl⟩
  · by_cases hlow : z < 0
    · rw [if_neg hhigh, if_pos hlow]
      refine ⟨hreal, fun hmonth => ?_⟩
      have hlow' : z.toInt < 0 := lt_iff_toInt_lt.1 hlow
      have hsub : (z - modulo z 12).toInt = z.toInt - z.toInt % 12 :=
        toInt_sub_eq rfl hreal (by omega)
      have hdiv : ((z - modulo z 12) / 12).toInt = z.toInt / 12 := by
        rw [toInt_div_of_pos (by decide), htwelve, hsub, tdiv_eq_ediv_of_dvd (by omega)]
        omega
      rw [← hdiv, ofInt_toInt]
    · have hlow' : 0 ≤ z.toInt := not_lt.1 fun h => hlow (lt_iff_toInt_lt.2 h)
      have hhigh' : z.toInt < 12 := not_le.1 fun h => hhigh (le_iff_toInt_le.2 h)
      have hdiv : z.toInt / 12 = 0 := by omega
      rw [if_neg hhigh, if_neg hlow, hdiv]
      exact ⟨(emod_eq_of_lt hlow' hhigh').symm, fun _ => by simp⟩

/-- In the remaining nine months the carried years have the wrong sign. -/
theorem carryMonth_year_of_low (hmonth : month.toInt ≤ -2 ^ 63 + 8) :
    (carryMonth year month).1 = year + ofInt 768614336404564650 := by
  have hmin := le_toInt month
  unfold carryMonth
  by_cases hleast : month.toInt = -2 ^ 63
  · obtain rfl : month = minValue := toInt_inj.1 hleast
    rfl
  obtain ⟨z, hz⟩ : ∃ z, month - 1 = z := ⟨_, rfl⟩
  have hz' : z.toInt = month.toInt - 1 := by
    rw [← hz, toInt_pred (by omega)]
  have hlow : z < 0 := lt_iff_toInt_lt.2 (by
    show z.toInt < 0
    omega)
  have hhigh : ¬ z ≥ 12 := fun h => by
    have : 12 ≤ z.toInt := le_iff_toInt_le.1 h
    omega
  have hreal : (modulo z 12).toInt = z.toInt % 12 := modulo_toInt (by decide)
  have hsub : z - modulo z 12 = ofInt (-2 ^ 63 - 4) := by
    have hexact : z.toInt - z.toInt % 12 = -2 ^ 63 - 4 := by omega
    rw [← hexact, ofInt_sub, ← hreal, ofInt_toInt, ofInt_toInt]
  simp only [hz]
  rw [if_neg hhigh, if_pos hlow, hsub]
  rfl

variable {f : Fields}

theorem carryMonth_toInt (f : Fields) :
    (carryMonth f.year f.month).1.toInt = wrappedYear f ∧
      (carryMonth f.year f.month).2.toInt = wrappedMonth f := by
  obtain ⟨hmonth, hyear⟩ := carryMonth_spec f.year f.month
  refine ⟨?_, by rw [hmonth, Int64.toInt_sub]; rfl⟩
  have hwrap : (carryMonth f.year f.month).1 = ofInt (carriedYear f +
      if f.month.toInt ≤ -2 ^ 63 + 8 then 1537228672809129301 else 0) := by
    by_cases hlow : f.month.toInt ≤ -2 ^ 63 + 8
    · have hmin := le_toInt f.month
      have hexact : carriedYear f + 1537228672809129301 = f.year.toInt + 768614336404564650 := by
        unfold carriedYear
        omega
      rw [carryMonth_year_of_low hlow, if_pos hlow, hexact, ofInt_add, ofInt_toInt]
    · have hpred : (f.month - 1).toInt = f.month.toInt - 1 := toInt_pred (by omega)
      rw [hyear (by omega), if_neg hlow, hpred, add_zero, carriedYear, ofInt_add, ofInt_toInt]
  rw [hwrap, toInt_ofInt]
  rfl

theorem wrappedMonth_bounds (f : Fields) : 0 ≤ wrappedMonth f ∧ wrappedMonth f < 12 := by
  unfold wrappedMonth
  omega

theorem sumMicros_eq (f : Fields) : sumMicros f = some (ofInt (wrappedMicros f)) := by
  obtain ⟨hyear, hmonth⟩ := carryMonth_toInt f
  obtain ⟨hnonneg, hlt⟩ := wrappedMonth_bounds f
  rcases hcarry : carryMonth f.year f.month with ⟨year, month⟩
  simp only [hcarry] at hyear hmonth
  -- the month index is always inside the table
  have hindex : month.toNatClampNeg = month.toInt.toNat := rfl
  obtain ⟨u, hget, hu⟩ := daysUntilMonth_get year.toInt (i := month.toNatClampNeg) (by omega)
  have hcast : (month.toNatClampNeg : Int) = wrappedMonth f := by omega
  rw [hcast, hyear] at hu
  have hexact : f.microsIn (wrappedYear f) (wrappedMonth f) +
      leapError (wrappedYear f) * 86400000000
      = microsOf (f.day.toInt - 1 + u.toInt +
        (daysBeforeYear (wrappedYear f) + leapError (wrappedYear f)))
        f.hour.toInt f.minute.toInt f.second.toInt f.millisecond.toInt f.microsecond.toInt := by
    simp only [Fields.microsIn, microsOf, dayNumber, hu]
    omega
  have hwrap : ofInt (wrappedMicros f)
      = ofInt (f.microsIn (wrappedYear f) (wrappedMonth f) +
        leapError (wrappedYear f) * 86400000000) := by
    rw [← toInt_inj, toInt_ofInt, toInt_ofInt]
    exact bmod_bmod
  rw [hwrap, hexact, ← hyear]
  simp only [sumMicros, hcarry, isLeapYear_eq, hget, Lib.some_bind, dayFromYear_eq, microsOf,
    ofInt_add, ofInt_mul, ofInt_sub, ofInt_toInt]
  rfl

theorem daysBeforeMonth_bounds (y : Int) (hm : 0 ≤ m ∧ m < 12) :
    0 ≤ daysBeforeMonth y (m + 1) ∧ daysBeforeMonth y (m + 1) ≤ 366 := by
  have hfirst : daysBeforeMonth y 1 ≤ daysBeforeMonth y (m + 1) :=
    daysBeforeMonth_monotone y (by omega)
  have hlast : daysBeforeMonth y (m + 1) ≤ daysBeforeMonth y 13 :=
    daysBeforeMonth_monotone y (by omega)
  have hyear := yearLength_le y
  rw [daysBeforeMonth_one] at hfirst
  rw [daysBeforeMonth_thirteen] at hlast
  omega

/-- Days and clock fields of 64 bits cannot bring a far away year back into range. -/
theorem carriedYear_bounds (hlow : -2 ^ 63 ≤ carriedMicros f) (hhigh : carriedMicros f < 2 ^ 63) :
    -30000000000000000 ≤ carriedYear f ∧ carriedYear f ≤ 30000000000000000 := by
  have hmonth := daysBeforeMonth_bounds (carriedYear f) (m := (f.month.toInt - 1) % 12) (by omega)
  have hd := le_toInt f.day
  have hd' := toInt_lt f.day
  have hh := le_toInt f.hour
  have hh' := toInt_lt f.hour
  have hm := le_toInt f.minute
  have hm' := toInt_lt f.minute
  have hs := le_toInt f.second
  have hs' := toInt_lt f.second
  have hms := le_toInt f.millisecond
  have hms' := toInt_lt f.millisecond
  have hus := le_toInt f.microsecond
  have hus' := toInt_lt f.microsecond
  have hyear : daysBeforeYear (carriedYear f) = _ := daysBeforeYear_eq (carriedYear f)
  simp only [carriedMicros, Fields.microsIn, microsOf, dayNumber] at hlow hhigh
  generalize daysBeforeMonth (carriedYear f) ((f.month.toInt - 1) % 12 + 1) = u at *
  generalize daysBeforeYear (carriedYear f) = w at *
  generalize carriedYear f = y at *
  omega

/-- Whenever the carried year has 64 bits, the sum is the exact time stamp modulo `2 ^ 64`. -/
theorem wrappedMicros_eq_carried (hmonth : -2 ^ 63 + 8 < f.month.toInt)
    (hlow : -2 ^ 63 + 2000 ≤ carriedYear f) (hhigh : carriedYear f < 2 ^ 63) :
    wrappedMicros f = (carriedMicros f).bmod (2 ^ 64) := by
  have hmax := toInt_lt f.month
  have hyear : wrappedYear f = carriedYear f := by
    rw [wrappedYear, if_neg (not_le.2 hmonth), add_zero]
    exact bmod_eq_of_le (by omega) (by omega)
  have hpred : (f.month.toInt - 1).bmod (2 ^ 64) = f.month.toInt - 1 :=
    bmod_eq_of_le (by omega) (by omega)
  rw [wrappedMicros, wrappedMonth, hyear, hpred, leapError_eq_zero hlow, Int.zero_mul, add_zero,
    carriedMicros]

theorem wrappedMicros_of_fits (hmonth : -2 ^ 63 + 8 < f.month.toInt)
    (hlow : -2 ^ 63 ≤ carriedMicros f) (hhigh : carriedMicros f < 2 ^ 63) :
    wrappedMicros f = carriedMicros f := by
  obtain ⟨hyear, hyear'⟩ := carriedYear_bounds hlow hhigh
  rw [wrappedMicros_eq_carried hmonth (by omega) (by omega)]
  exact bmod_eq_of_le (by omega) (by omega)

/-- Time stamps with the same time of day that agree modulo `2 ^ 64` are a multiple of `2 ^ 51` days
apart. -/
theorem dvd_sub_of_microsOf {d d' : Int}
    (heq : microsOf d h m s ms us % 2 ^ 64 = microsOf d' h m s ms us % 2 ^ 64) :
    (2 : Int) ^ 51 ∣ d - d' := by
  have hsub : microsOf d h m s ms us - microsOf d' h m s ms us =
      2 ^ 13 * (10546875 * (d - d')) := by
    unfold microsOf
    omega
  have hdvd : (2 : Int) ^ 13 * 2 ^ 51 ∣ 2 ^ 13 * (10546875 * (d - d')) := by
    rw [← hsub]
    exact dvd_of_emod_eq_zero (emod_eq_emod_iff_emod_sub_eq_zero.1 heq)
  have hdvd' : (2 : Int) ^ 51 ∣ 10546875 * (d - d') := dvd_of_mul_dvd_mul_left (by decide) hdvd
  exact dvd_of_dvd_mul_right_of_gcd_one hdvd' (by decide)

/-- The years that the least months are off by, in days. -/
theorem daysBeforeYear_distance (y : Int) :
    561461243528488408700 ≤ daysBeforeYear (y + 1537228672809129301) - daysBeforeYear y ∧
      daysBeforeYear (y + 1537228672809129301) - daysBeforeYear y ≤ 561461243528488408740 := by
  rw [daysBeforeYear_eq, daysBeforeYear_eq]
  omega

theorem InRange.fits (h : InRange t) : -2 ^ 63 ≤ t ∧ t < 2 ^ 63 := by
  have hlow : -8640000000000000000 ≤ t := h.1
  have hhigh : t ≤ 8640000000000000000 := h.2
  omega

/-- With one of the nine least months the sum is not the exact time stamp: the year is off by
1537228672809129301, and no multiple of `2 ^ 51` days is near that. -/
theorem wrappedMicros_ne_carried (h : InRange (carriedMicros f))
    (hmonth : f.month.toInt ≤ -2 ^ 63 + 8) : wrappedMicros f ≠ carriedMicros f := by
  obtain ⟨hlow, hhigh⟩ := carriedYear_bounds h.fits.1 h.fits.2
  have hyear : wrappedYear f = carriedYear f + 1537228672809129301 := by
    rw [wrappedYear, if_pos hmonth]
    exact bmod_eq_of_le (by omega) (by omega)
  intro heq
  -- equal sums differ by a multiple of `2 ^ 64`, hence the day numbers by one of `2 ^ 51`
  have hmod := congrArg (· % ((2 ^ 64 : Nat) : Int)) heq
  have hleap : leapError (carriedYear f + 1537228672809129301) = 0 := leapError_eq_zero (by omega)
  simp only [wrappedMicros, bmod_emod, hyear, hleap, Int.zero_mul, add_zero] at hmod
  have hdvd := dvd_sub_of_microsOf hmod
  have hu := daysBeforeMonth_bounds (carriedYear f) (m := (f.month.toInt - 1) % 12) (by omega)
  have hu' := daysBeforeMonth_bounds (carriedYear f + 1537228672809129301) (wrappedMonth_bounds f)
  have hdistance := daysBeforeYear_distance (carriedYear f)
  rw [dayNumber, dayNumber] at hdvd
  clear hmod heq hleap hyear h
  omega

/-! ## Both ways -/

/-- What the final range test lets through; the absolute value of the least integer is negative. -/
def Accepted (t : Int) : Prop := t = -2 ^ 63 ∨ InRange t

instance (t : Int) : Decidable (Accepted t) :=
  inferInstanceAs (Decidable (_ ∨ _))

theorem abs_gt_limit_iff (s : Int64) :
    abs s > maxMillisecondsSinceEpoch * microsecondsPerMillisecond ↔ ¬ Accepted s.toInt := by
  have hlimit : (maxMillisecondsSinceEpoch * microsecondsPerMillisecond).toInt
      = 8640000000000000000 := by decide
  have hmin := le_toInt s
  unfold Accepted InRange limit
  by_cases hleast : s.toInt = -2 ^ 63
  · obtain rfl : s = minValue := toInt_inj.1 hleast
    decide
  have habs := abs_toInt (a := s) (by omega)
  rw [gt_iff_lt, lt_iff_toInt_lt, hlimit, habs]
  omega

theorem toInt_wrappedMicros (f : Fields) : (ofInt (wrappedMicros f)).toInt = wrappedMicros f := by
  rw [toInt_ofInt]
  exact bmod_bmod

theorem brokenDownDateToValue_utc (toLocalTimeOffset : Int64 → Int64) (f : Fields) :
    brokenDownDateToValue toLocalTimeOffset f true
      = some (if Accepted (wrappedMicros f) then some (ofInt (wrappedMicros f)) else none) := by
  have habs := abs_gt_limit_iff (ofInt (wrappedMicros f))
  rw [toInt_wrappedMicros] at habs
  by_cases h : Accepted (wrappedMicros f)
  · have habs : ¬ abs (ofInt (wrappedMicros f)) >
        maxMillisecondsSinceEpoch * microsecondsPerMillisecond := fun h' => habs.1 h' h
    simp [brokenDownDateToValue, sumMicros_eq, habs, h]
  · simp [brokenDownDateToValue, sumMicros_eq, habs.2 h, h]

/-- The fields are carried over: their time stamp is the exact one, and `null` if that is out of
range. -/
def CarriesOver (toLocalTimeOffset : Int64 → Int64) (f : Fields) : Prop :=
  brokenDownDateToValue toLocalTimeOffset f true
    = some (if InRange (carriedMicros f) then some (Int64.ofInt (carriedMicros f)) else none)

/-- The months of fields in range do not wrap around, and fields out of range do not wrap into what
the range test lets through. -/
def DoesNotWrap (f : Fields) : Prop :=
  if InRange (carriedMicros f) then -2 ^ 63 + 8 < f.month.toInt
  else ¬ Accepted (wrappedMicros f)

theorem toInt_ofInt_of_inRange (h : InRange t) : (ofInt t).toInt = t :=
  toInt_ofInt_of_le h.fits.1 h.fits.2

theorem brokenDownDateToValue_of_inRange (toLocalTimeOffset : Int64 → Int64)
    (h : InRange (carriedMicros f)) (hmonth : -2 ^ 63 + 8 < f.month.toInt) :
    brokenDownDateToValue toLocalTimeOffset f true
      = some (some (ofInt (carriedMicros f))) := by
  rw [brokenDownDateToValue_utc, wrappedMicros_of_fits hmonth h.fits.1 h.fits.2, if_pos (.inr h)]

theorem carriesOver_iff (toLocalTimeOffset : Int64 → Int64) (f : Fields) :
    CarriesOver toLocalTimeOffset f ↔ DoesNotWrap f := by
  unfold CarriesOver DoesNotWrap
  by_cases h : InRange (carriedMicros f)
  · rw [if_pos h, if_pos h]
    constructor
    · intro hcarries
      by_contra hmonth
      apply wrappedMicros_ne_carried h (not_lt.1 hmonth)
      rw [brokenDownDateToValue_utc, some_inj] at hcarries
      split at hcarries
      · rw [← toInt_wrappedMicros, some_inj.1 hcarries, toInt_ofInt_of_inRange h]
      · exact absurd hcarries (by simp)
    · exact brokenDownDateToValue_of_inRange toLocalTimeOffset h
  · rw [if_neg h, if_neg h, brokenDownDateToValue_utc]
    simp

theorem Fields.Valid.carriedMicros_eq (h : f.Valid) :
    carriedYear f = f.year.toInt ∧ carriedMicros f
      = microsOf (dayNumber f.year.toInt f.month.toInt f.day.toInt) f.hour.toInt f.minute.toInt
        f.second.toInt f.millisecond.toInt f.microsecond.toInt := by
  have hpos := h.date.month_pos
  have hle := h.date.month_le
  have hyear : carriedYear f = f.year.toInt := by
    unfold carriedYear
    omega
  have hmonth : (f.month.toInt - 1) % 12 + 1 = f.month.toInt := by omega
  exact ⟨hyear, by rw [carriedMicros, Fields.microsIn, hyear, hmonth]⟩

/-- Day and clock fields are the digits of a time stamp. -/
theorem microsOf_digits {d : Int} (hh : 0 ≤ h ∧ h < 24) (hm : 0 ≤ m ∧ m < 60) (hs : 0 ≤ s ∧ s < 60)
    (hms : 0 ≤ ms ∧ ms < 1000) (hus : 0 ≤ us ∧ us < 1000) (ht : microsOf d h m s ms us = t) :
    d = t / 86400000000 ∧ h = t / 3600000000 % 24 ∧ m = t / 60000000 % 60 ∧
      s = t / 1000000 % 60 ∧ ms = t / 1000 % 1000 ∧ us = t % 1000 := by
  unfold microsOf at ht
  omega

theorem Fields.Valid.eq_of_carriedMicros_eq {f g : Fields} (hf : f.Valid) (hg : g.Valid)
    (heq : carriedMicros f = carriedMicros g) : f = g := by
  rw [hf.carriedMicros_eq.2] at heq
  obtain ⟨fd, fh, fm, fs, fms, fus⟩ :=
    microsOf_digits hf.hour hf.minute hf.second hf.millisecond hf.microsecond heq
  obtain ⟨gd, gh, gm, gs, gms, gus⟩ :=
    microsOf_digits hg.hour hg.minute hg.second hg.millisecond hg.microsecond
      hg.carriedMicros_eq.2.symm
  obtain ⟨hyear, hmonth, hday⟩ := hf.date.eq_of_dayNumber_eq hg.date (fd.trans gd.symm)
  cases f with
  | mk year month day hour minute second millisecond microsecond =>
    cases g with
    | mk year' month' day' hour' minute' second' millisecond' microsecond' =>
      simp only [Fields.mk.injEq, ← toInt_inj]
      exact ⟨hyear, hmonth, hday, fh.trans gh.symm, fm.trans gm.symm, fs.trans gs.symm,
        fms.trans gms.symm, fus.trans gus.symm⟩

/-- Microseconds to fields and back: every time stamp in range has the fields of its day, with the
right weekday, and is recovered from them; valid fields in range are recovered from their time
stamp; fields out of range are carried over exactly when nothing wraps around. The sum of the source
is `wrappedMicros`: but for the least months and carried years that need more than 64 bits or are
among the least, the exact time stamp modulo `2 ^ 64`. -/
theorem calendar_roundTrip_iff (toLocalTimeOffset : Int64 → Int64) :
    (∀ t : Int64, InRange t.toInt →
      ∃ p, computeUpperPart t = some p ∧ p.fields.Valid ∧
        p.weekday.toInt = isoWeekday (dayNumber p.year.toInt p.month.toInt p.day.toInt) ∧
        brokenDownDateToValue toLocalTimeOffset p.fields true = some (some t)) ∧
    (∀ f : Fields, f.Valid → InRange (carriedMicros f) →
      ∃ t p, brokenDownDateToValue toLocalTimeOffset f true = some (some t) ∧
        computeUpperPart t = some p ∧ p.fields = f) ∧
    (∀ f : Fields, CarriesOver toLocalTimeOffset f ↔ DoesNotWrap f) ∧
    (∀ f : Fields, sumMicros f = some (Int64.ofInt (wrappedMicros f))) ∧
    (∀ f : Fields, -2 ^ 63 + 8 < f.month.toInt → -2 ^ 63 + 2000 ≤ carriedYear f →
      carriedYear f < 2 ^ 63 → wrappedMicros f = (carriedMicros f).bmod (2 ^ 64)) := by
  have hmonth : ∀ f : Fields, f.Valid → -2 ^ 63 + 8 < f.month.toInt := by
    intro f hf
    have := hf.date.month_pos
    omega
  refine ⟨?_, ?_, carriesOver_iff toLocalTimeOffset, sumMicros_eq,
    fun f => wrappedMicros_eq_carried⟩
  · intro t ht
    obtain ⟨p, hp, hvalid, hweekday, hmicros⟩ := computeUpperPart_spec ht
    have hcarried : carriedMicros p.fields = t.toInt := hvalid.carriedMicros_eq.2.trans hmicros
    refine ⟨p, hp, hvalid, hweekday, ?_⟩
    rw [brokenDownDateToValue_of_inRange toLocalTimeOffset (by rwa [hcarried]) (hmonth _ hvalid),
      hcarried, ofInt_toInt]
  · intro f hf hrange
    have hvalue := toInt_ofInt_of_inRange hrange
    obtain ⟨p, hp, hvalid, -, hmicros⟩ :=
      computeUpperPart_spec (t := ofInt (carriedMicros f)) (by rwa [hvalue])
    refine ⟨_, p, brokenDownDateToValue_of_inRange toLocalTimeOffset hrange (hmonth f hf), hp, ?_⟩
    apply hvalid.eq_of_carriedMicros_eq hf
    rw [hvalid.carriedMicros_eq.2, ← hvalue]
    exact hmicros

/-- Day `2 ^ 51 + 1` of January 1970 is far out of range, but a multiple of `2 ^ 64` microseconds,
so it is taken for the epoch. -/
theorem brokenDownDateToValue_wraps :
    brokenDownDateToValue (fun _ => 0) ⟨1970, 1, 2251799813685249, 0, 0, 0, 0, 0⟩ true
        = some (some 0) ∧
      ¬ InRange (carriedMicros ⟨1970, 1, 2251799813685249, 0, 0, 0, 0, 0⟩) := by
  decide +kernel

/-! ## The UTC constructor -/

/-- The exact time stamp has 64 bits, and the month is not one of the nine least. -/
structure Fields.Safe (f : Fields) : Prop where
  month : -2 ^ 63 + 8 < f.month.toInt
  micros : -2 ^ 63 ≤ carriedMicros f ∧ carriedMicros f < 2 ^ 63

/-- Exactly the time stamps in range are accepted, except for the one that is taken for `null` and
the one whose absolute value is negative. -/
theorem internal_utc_iff (toLocalTimeOffset : Int64 → Int64) (f : Fields) (hsafe : f.Safe) :
    internal toLocalTimeOffset f true =
        (if InRange (carriedMicros f) then some (Int64.ofInt (carriedMicros f)) else none) ↔
      carriedMicros f ≠ -1 ∧ carriedMicros f ≠ -2 ^ 63 := by
  obtain ⟨t, ht⟩ : ∃ t, carriedMicros f = t := ⟨_, rfl⟩
  have hwrapped := wrappedMicros_of_fits hsafe.month hsafe.micros.1 hsafe.micros.2
  have htoInt := toInt_wrappedMicros f
  rw [hwrapped, ht] at htoInt
  have hnull : ofInt t = -1 ↔ t = -1 := by
    rw [← toInt_inj, htoInt]
    rfl
  have hvalue : internal toLocalTimeOffset f true =
      if Accepted t ∧ t ≠ -1 then some (ofInt t) else none := by
    rw [internal, brokenDownDateToValue_utc, hwrapped, ht]
    by_cases haccepted : Accepted t
    · rw [if_pos haccepted]
      by_cases hone : t = -1 <;> simp [haccepted, hone, hnull]
    · simp [haccepted]
  rw [hvalue, ht]
  have hlast : InRange (-1) := by decide
  have hleast : ¬ InRange (-9223372036854775808) := by decide
  by_cases hone : t = -1
  · simp [hone, hlast]
  · by_cases hmin : t = -9223372036854775808
    · simp [hmin, hleast, Accepted]
    · by_cases hrange : InRange t <;> simp [Accepted, hone, hmin, hrange]

/-- The months are carried back into the year before, the clock fields into the next days. -/
theorem internal_utc_carries :
    Fields.Safe ⟨2022, -10, 0, 49, -61, 3599, 1000, -1⟩ ∧
      internal (fun _ => 0) ⟨2022, -10, 0, 49, -61, 3599, 1000, -1⟩ true
        = internal (fun _ => 0) ⟨2021, 2, 2, 0, 58, 59, 999, 999⟩ true := by
  have hsafe : Fields.Safe ⟨2022, -10, 0, 49, -61, 3599, 1000, -1⟩ := ⟨by decide, by decide +kernel⟩
  refine ⟨hsafe, ((internal_utc_iff (fun _ => 0) _ hsafe).2 ?_).trans ?_⟩
  · decide +kernel
  · decide +kernel

/-- The last microsecond of 1969 is rejected. -/
theorem internal_utc_last1969 :
    Fields.Safe ⟨1969, 12, 31, 23, 59, 59, 999, 999⟩ ∧
      InRange (carriedMicros ⟨1969, 12, 31, 23, 59, 59, 999, 999⟩) ∧
      internal (fun _ => 0) ⟨1969, 12, 31, 23, 59, 59, 999, 999⟩ true = none := by
  refine ⟨⟨by decide, by decide +kernel⟩, ?_⟩
  decide +kernel

end Dart2Wasm.DateTime
