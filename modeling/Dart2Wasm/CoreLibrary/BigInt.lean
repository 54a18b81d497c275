import Mathlib.Data.Int.Bitwise

/-!
# BigInt — `_BigIntImpl`

The model of the arithmetic of `bigint_patch.dart`. A big integer has a sign, a number of used
digits and a reference to its array of digits. The arrays live in a heap; reading or writing
outside of an array has no result.

The integers that the loops compute with have 64 bits: `wrap` stands where an operation could leave
their range. The functions on digits return `1` as the number of processed digits, as they do when
they are not replaced by intrinsics.
-/

namespace Dart2Wasm.BigIntImpl

/-! ## Machine integers and digit arrays -/

/-- The 64-bit result of an operation on integers. -/
def wrap (n : Int) : Int := n.bmod (2 ^ 64)

abbrev digitBits : Nat := 32
def digitBase : Nat := 2 ^ 32
abbrev digitMask : Int := 2 ^ 32 - 1
abbrev halfDigitBits : Nat := 16
abbrev halfDigitMask : Int := 2 ^ 16 - 1

/-- The `Uint32List`s of the program; a reference is a position. -/
abbrev Heap := List (List Nat)

abbrev Ref := Nat

def readDigit (h : Heap) (digits : Ref) (i : Nat) : Option Int := do
  let array ← h[digits]?
  let digit ← array[i]?
  some (digit : Int)

/-- An element of a `Uint32List` keeps the low 32 bits of what is stored. -/
def writeDigit (h : Heap) (digits : Ref) (i : Nat) (value : Int) : Option Heap := do
  let array ← h[digits]?
  if i < array.length then some (h.set digits (array.set i (value % digitBase).toNat)) else none

def newDigits (h : Heap) (length : Nat) : Ref × Heap :=
  (h.length, h ++ [List.replicate (length + length % 2) 0])

/-- A loop that computes one digit a round. Round `k` stores its digit at `position k`; the
variables that change are the state. -/
def forDigits {S : Type} (body : Heap → Nat → S → Option (Int × S)) (result : Ref)
    (position : Nat → Nat) : Nat → Nat → S → Heap → Option (S × Heap)
  | 0, _, s, h => some (s, h)
  | n + 1, k, s, h => do
    let (value, s) ← body h k s
    let h ← writeDigit h result (position k) value
    forDigits body result position n (k + 1) s h

/-! ## Big integers -/

structure BigInt where
  isNegative : Bool
  used : Nat
  digits : Ref
  deriving DecidableEq

abbrev Result := Option (BigInt × Heap)

def normalize (h : Heap) (digits : Ref) : Nat → Option Nat
  | 0 => some 0
  | used + 1 => do
    if (← readDigit h digits used) = 0 then normalize h digits used else some (used + 1)

/-- The constructor `_BigIntImpl._`. -/
def make (h : Heap) (isNegative : Bool) (used : Nat) (digits : Ref) : Option BigInt := do
  let used ← normalize h digits used
  some ⟨if used = 0 then false else isNegative, used, digits⟩

def BigInt.isZero (x : BigInt) : Bool := x.used == 0

/-- The arrays of the constants `zero` and `one`, the first ones of the heap. -/
abbrev zeroDigits : Ref := 0
abbrev oneDigits : Ref := 1

def zero : BigInt := ⟨false, 0, zeroDigits⟩
def one : BigInt := ⟨false, 1, oneDigits⟩

/-- `operator -()`; the digits are shared. -/
def BigInt.neg (x : BigInt) : BigInt :=
  if x.used = 0 then x else ⟨!x.isNegative, x.used, x.digits⟩

def minusOne : BigInt := one.neg

/-! ## Addition and subtraction -/

def addBody (digits otherDigits : Ref) (h : Heap) (i : Nat) (carry : Int) : Option (Int × Int) := do
  let digit ← readDigit h digits i
  let otherDigit ← readDigit h otherDigits i
  let carry := wrap (carry + wrap (digit + otherDigit))
  some (Int.land carry digitMask, carry >>> digitBits)

def subBody (digits otherDigits : Ref) (h : Heap) (i : Nat) (carry : Int) : Option (Int × Int) := do
  let digit ← readDigit h digits i
  let otherDigit ← readDigit h otherDigits i
  let carry := wrap (carry + wrap (digit - otherDigit))
  some (Int.land carry digitMask, carry >>> digitBits)

/-- Both loops go on with the digits of the longer operand. -/
def restBody (digits : Ref) (h : Heap) (i : Nat) (carry : Int) : Option (Int × Int) := do
  let digit ← readDigit h digits i
  let carry := wrap (carry + digit)
  some (Int.land carry digitMask, carry >>> digitBits)

/-- `resultDigits[0..used] = digits[0..used-1] + otherDigits[0..otherUsed-1]`. -/
def absAdd (h : Heap) (digits : Ref) (used : Nat) (otherDigits : Ref) (otherUsed : Nat)
    (resultDigits : Ref) : Option Heap := do
  let (carry, h) ← forDigits (addBody digits otherDigits) resultDigits (fun i => i) otherUsed 0 0 h
  let (carry, h) ← forDigits (restBody digits) resultDigits (fun i => i)
    (used - otherUsed) otherUsed
    carry h
  writeDigit h resultDigits used carry

/-- `resultDigits[0..used-1] = digits[0..used-1] - otherDigits[0..otherUsed-1]`. -/
def absSub (h : Heap) (digits : Ref) (used : Nat) (otherDigits : Ref) (otherUsed : Nat)
    (resultDigits : Ref) : Option Heap := do
  let (carry, h) ← forDigits (subBody digits otherDigits) resultDigits (fun i => i) otherUsed 0 0 h
  let (_, h) ← forDigits (restBody digits) resultDigits (fun i => i) (used - otherUsed) otherUsed
    carry h
  some h

/-- `_absAddSetSign` for an operand that is not shorter. -/
def absAddLonger (x other : BigInt) (isNegative : Bool) (h : Heap) : Result :=
  if x.used = 0 then some (zero, h)
  else if other.used = 0 then some (if x.isNegative = isNegative then x else x.neg, h)
  else do
    let resultUsed := x.used + 1
    let (resultDigits, h) := newDigits h resultUsed
    let h ← absAdd h x.digits x.used other.digits other.used resultDigits
    let result ← make h isNegative resultUsed resultDigits
    some (result, h)

def BigInt.absAddSetSign (x other : BigInt) (isNegative : Bool) (h : Heap) :
    Result :=
  if x.used < other.used then absAddLonger other x isNegative h
  else absAddLonger x other isNegative h

def BigInt.absSubSetSign (x other : BigInt) (isNegative : Bool) (h : Heap) :
    Result :=
  if x.used = 0 then some (zero, h)
  else if other.used = 0 then some (if x.isNegative = isNegative then x else x.neg, h)
  else do
    let (resultDigits, h) := newDigits h x.used
    let h ← absSub h x.digits x.used other.digits other.used resultDigits
    let result ← make h isNegative x.used resultDigits
    some (result, h)

/-! ## Comparison -/

/-- The loop of `_compareDigits` from the digit below `n` down. -/
def compareLoop (h : Heap) (digits otherDigits : Ref) : Nat → Option Int
  | 0 => some 0
  | i + 1 => do
    let digit ← readDigit h digits i
    let otherDigit ← readDigit h otherDigits i
    let result := wrap (digit - otherDigit)
    if result ≠ 0 then some result else compareLoop h digits otherDigits i

def compareDigits (h : Heap) (digits : Ref) (used : Nat) (otherDigits : Ref) (otherUsed : Nat) :
    Option Int :=
  let result := (used : Int) - otherUsed
  if result = 0 then compareLoop h digits otherDigits used else some result

def BigInt.absCompare (x other : BigInt) (h : Heap) : Option Int :=
  compareDigits h x.digits x.used other.digits other.used

def BigInt.compareTo (x other : BigInt) (h : Heap) : Option Int :=
  if x.isNegative = other.isNegative then do
    let result ← x.absCompare other h
    some (if x.isNegative then 0 - result else result)
  else some (if x.isNegative then -1 else 1)

def BigInt.equals (x other : BigInt) (h : Heap) : Option Bool := do
  some ((← x.compareTo other h) == 0)

/-! ## Hash code -/

def combine (hash value : Int) : Int :=
  let hash := Int.land 0x1fffffff (wrap (hash + value))
  let hash := Int.land 0x1fffffff (wrap (hash + wrap (Int.land 0x0007ffff hash <<< 10)))
  Int.xor hash (hash >>> 6)

def finish (hash : Int) : Int :=
  let hash := Int.land 0x1fffffff (wrap (hash + wrap (Int.land 0x03ffffff hash <<< 3)))
  let hash := Int.xor hash (hash >>> 11)
  Int.land 0x1fffffff (wrap (hash + wrap (Int.land 0x00003fff hash <<< 15)))

def hashLoop (h : Heap) (digits : Ref) : Nat → Nat → Int → Option Int
  | 0, _, hash => some hash
  | n + 1, i, hash => do
    let digit ← readDigit h digits i
    hashLoop h digits n (i + 1) (combine hash digit)

def BigInt.hashCode (x : BigInt) (h : Heap) : Option Int :=
  if x.isZero then some 6707
  else do
    let hash ← hashLoop h x.digits x.used 0 (if x.isNegative then 83585 else 429689)
    some (finish hash)

/-! ## Digitwise operations -/

def copyBody (digits : Ref) (source : Nat → Nat) (h : Heap) (k : Nat) (_ : Unit) :
    Option (Int × Unit) := do
  let digit ← readDigit h digits (source k)
  some (digit, ())

def zipBody (op : Int → Int → Int) (digits otherDigits : Ref) (h : Heap) (i : Nat) (_ : Unit) :
    Option (Int × Unit) := do
  let digit ← readDigit h digits i
  let otherDigit ← readDigit h otherDigits i
  some (op digit otherDigit, ())

def copyDigits (h : Heap) (digits resultDigits : Ref) (start stop : Nat) : Option Heap := do
  let (_, h) ← forDigits (copyBody digits (fun i => i)) resultDigits (fun i => i)
    (stop - start) start
    () h
  some h

def zipDigits (op : Int → Int → Int) (h : Heap) (digits otherDigits resultDigits : Ref) (m : Nat) :
    Option Heap := do
  let (_, h) ← forDigits (zipBody op digits otherDigits) resultDigits (fun i => i) m 0 () h
  some h

def BigInt.absAndSetSign (x other : BigInt) (isNegative : Bool) (h : Heap) :
    Result := do
  let resultUsed := min x.used other.used
  let (resultDigits, h) := newDigits h resultUsed
  let h ← zipDigits Int.land h x.digits other.digits resultDigits resultUsed
  let result ← make h isNegative resultUsed resultDigits
  some (result, h)

def BigInt.absAndNotSetSign (x other : BigInt) (isNegative : Bool) (h : Heap) :
    Result := do
  let resultUsed := x.used
  let (resultDigits, h) := newDigits h resultUsed
  let m := min resultUsed other.used
  let h ← zipDigits (fun digit otherDigit => Int.land digit (Int.lnot otherDigit)) h x.digits
    other.digits resultDigits m
  let h ← copyDigits h x.digits resultDigits m resultUsed
  let result ← make h isNegative resultUsed resultDigits
  some (result, h)

/-- `_absOrSetSign` and `_absXorSetSign`: the rest comes from the longer operand. -/
def absLongerSetSign (op : Int → Int → Int) (x other : BigInt) (isNegative : Bool) (h : Heap) :
    Result := do
  let resultUsed := max x.used other.used
  let (resultDigits, h) := newDigits h resultUsed
  let (l, m) := if x.used < other.used then (other, x.used) else (x, other.used)
  let h ← zipDigits op h x.digits other.digits resultDigits m
  let h ← copyDigits h l.digits resultDigits m resultUsed
  let result ← make h isNegative resultUsed resultDigits
  some (result, h)

def BigInt.absOrSetSign (x other : BigInt) (isNegative : Bool) (h : Heap) :
    Result :=
  absLongerSetSign Int.lor x other isNegative h

def BigInt.absXorSetSign (x other : BigInt) (isNegative : Bool) (h : Heap) :
    Result :=
  absLongerSetSign Int.xor x other isNegative h

/-! ## Operators -/

/-- The operands of different signs, the positive one first. -/
def signed (x other : BigInt) : BigInt × BigInt :=
  if x.isNegative then (other, x) else (x, other)

def BigInt.and (x other : BigInt) (h : Heap) : Result :=
  if x.isZero || other.isZero then some (zero, h)
  else if x.isNegative = other.isNegative then
    if x.isNegative then do
      let (this1, h) ← x.absSubSetSign one true h
      let (other1, h) ← other.absSubSetSign one true h
      let (r, h) ← this1.absOrSetSign other1 true h
      r.absAddSetSign one true h
    else x.absAndSetSign other false h
  else do
    let (p, n) := signed x other
    let (n1, h) ← n.absSubSetSign one false h
    p.absAndNotSetSign n1 false h

def BigInt.or (x other : BigInt) (h : Heap) : Result :=
  if x.isZero then some (other, h)
  else if other.isZero then some (x, h)
  else if x.isNegative = other.isNegative then
    if x.isNegative then do
      let (this1, h) ← x.absSubSetSign one true h
      let (other1, h) ← other.absSubSetSign one true h
      let (r, h) ← this1.absAndSetSign other1 true h
      r.absAddSetSign one true h
    else x.absOrSetSign other false h
  else do
    let (p, n) := signed x other
    let (n1, h) ← n.absSubSetSign one true h
    let (r, h) ← n1.absAndNotSetSign p true h
    r.absAddSetSign one true h

def BigInt.xor (x other : BigInt) (h : Heap) : Result :=
  if x.isZero then some (other, h)
  else if other.isZero then some (x, h)
  else if x.isNegative = other.isNegative then
    if x.isNegative then do
      let (this1, h) ← x.absSubSetSign one true h
      let (other1, h) ← other.absSubSetSign one true h
      this1.absXorSetSign other1 false h
    else x.absXorSetSign other false h
  else do
    let (p, n) := signed x other
    let (n1, h) ← n.absSubSetSign one true h
    let (r, h) ← p.absXorSetSign n1 true h
    r.absAddSetSign one true h

def BigInt.not (x : BigInt) (h : Heap) : Result :=
  if x.isZero then some (minusOne, h)
  else if x.isNegative then x.absSubSetSign one false h
  else x.absAddSetSign one true h

/-- The operands have different signs, or the second one is subtracted. -/
def subMagnitudes (x other : BigInt) (h : Heap) : Result := do
  if (← x.absCompare other h) ≥ 0 then x.absSubSetSign other x.isNegative h
  else other.absSubSetSign x (!x.isNegative) h

def BigInt.add (x other : BigInt) (h : Heap) : Result :=
  if x.isZero then some (other, h)
  else if other.isZero then some (x, h)
  else if x.isNegative = other.isNegative then x.absAddSetSign other x.isNegative h
  else subMagnitudes x other h

def BigInt.sub (x other : BigInt) (h : Heap) : Result :=
  if x.isZero then some (other.neg, h)
  else if other.isZero then some (x, h)
  else if x.isNegative ≠ other.isNegative then x.absAddSetSign other x.isNegative h
  else subMagnitudes x other h

/-! ## Multiplication -/

/-- The loop that adds the rest of the carry; the fuel is the room that is left. -/
def carryLoop (accumulatorDigits : Ref) : Nat → Nat → Int → Heap → Option Heap
  | 0, _, carry, h => if carry = 0 then some h else none
  | fuel + 1, j, carry, h =>
    if carry = 0 then some h
    else do
      let digit ← readDigit h accumulatorDigits j
      let l := wrap (digit + carry)
      let h ← writeDigit h accumulatorDigits j (Int.land l digitMask)
      carryLoop accumulatorDigits fuel (j + 1) (l >>> digitBits) h

/-- One digit of the product, from half digits. -/
def mulBody (xl xh : Int) (multiplicandDigits : Ref) (i : Nat) (accumulatorDigits : Ref) (j : Nat)
    (h : Heap) (k : Nat) (carry : Int) : Option (Int × Int) := do
  let digit ← readDigit h multiplicandDigits (i + k)
  let accumulator ← readDigit h accumulatorDigits (j + k)
  let ml := Int.land digit halfDigitMask
  let mh := digit >>> halfDigitBits
  let ph := wrap (wrap (xh * ml) + wrap (mh * xl))
  let pl := wrap (wrap (wrap (wrap (xl * ml) +
    wrap (Int.land ph halfDigitMask <<< halfDigitBits)) + accumulator) + carry)
  let carry := wrap (wrap ((pl >>> digitBits) + (ph >>> halfDigitBits)) + wrap (xh * mh))
  some (Int.land pl digitMask, carry)

/-- `accumulatorDigits[j..j+n] += xDigits[xIndex] * multiplicandDigits[i..i+n-1]`. -/
def mulAdd (h : Heap) (xDigits : Ref) (xIndex : Nat) (multiplicandDigits : Ref) (i : Nat)
    (accumulatorDigits : Ref) (j n : Nat) : Option (Nat × Heap) := do
  let x ← readDigit h xDigits xIndex
  if x = 0 then some (1, h)
  else do
    let xl := Int.land x halfDigitMask
    let xh := x >>> halfDigitBits
    let (carry, h) ← forDigits (mulBody xl xh multiplicandDigits i accumulatorDigits j)
      accumulatorDigits (fun k => j + k) n 0 0 h
    let array ← h[accumulatorDigits]?
    let h ← carryLoop accumulatorDigits (array.length - (j + n)) (j + n) carry h
    some (1, h)

/-- The loop of `operator *`; each round adds the number of processed digits. -/
def mulLoop (digits : Ref) (used : Nat) (otherDigits : Ref) (otherUsed : Nat)
    (resultDigits : Ref) : Nat → Nat → Heap → Option Heap
  | 0, i, h => if i < otherUsed then none else some h
  | fuel + 1, i, h =>
    if i < otherUsed then do
      let (processed, h) ← mulAdd h otherDigits i digits 0 resultDigits i used
      mulLoop digits used otherDigits otherUsed resultDigits fuel (i + processed) h
    else some h

def BigInt.mul (x other : BigInt) (h : Heap) : Result :=
  if x.used = 0 ∨ other.used = 0 then some (zero, h)
  else do
    let resultUsed := x.used + other.used
    let (resultDigits, h) := newDigits h resultUsed
    let h ← mulLoop x.digits x.used other.digits other.used resultDigits other.used 0 h
    let result ← make h (x.isNegative != other.isNegative) resultUsed resultDigits
    some (result, h)

/-! ## Shifts -/

/-- `this << n*_digitBits`. -/
def BigInt.dlShift (x : BigInt) (n : Nat) (h : Heap) : Result :=
  if x.used = 0 then some (zero, h)
  else do
    let resultUsed := x.used + n
    let (resultDigits, h) := newDigits h resultUsed
    -- from the last digit down
    let (_, h) ← forDigits (copyBody x.digits (fun k => x.used - 1 - k)) resultDigits
      (fun k => x.used - 1 - k + n) x.used 0 () h
    let result ← make h x.isNegative resultUsed resultDigits
    some (result, h)

/-- The loop of `_lsh` goes from the last digit down. -/
def lshBody (xDigits : Ref) (xUsed bitShift carryBitShift : Nat) (h : Heap) (k : Nat)
    (carry : Int) :
    Option (Int × Int) := do
  let bitMask : Int := (1 : Int) <<< carryBitShift - 1
  let digit ← readDigit h xDigits (xUsed - 1 - k)
  some (Int.lor (digit >>> carryBitShift) carry, wrap (Int.land digit bitMask <<< bitShift))

/-- `resultDigits[ds..xUsed+ds] = xDigits[0..xUsed-1] << (n % _digitBits)`. -/
def lsh (h : Heap) (xDigits : Ref) (xUsed n : Nat) (resultDigits : Ref) : Option Heap := do
  let digitShift := n / digitBits
  let bitShift := n % digitBits
  let carryBitShift := digitBits - bitShift
  let (carry, h) ← forDigits (lshBody xDigits xUsed bitShift carryBitShift) resultDigits
    (fun k => xUsed - 1 - k + digitShift + 1) xUsed 0 0 h
  writeDigit h resultDigits digitShift carry

/-- `operator <<` for a shift amount that is not negative. -/
def BigInt.shiftLeft (x : BigInt) (shiftAmount : Nat) (h : Heap) : Result :=
  if x.isZero then some (x, h)
  else
    let digitShift := shiftAmount / digitBits
    let bitShift := shiftAmount % digitBits
    if bitShift = 0 then x.dlShift digitShift h
    else do
      let resultUsed := x.used + digitShift + 1
      let (resultDigits, h) := newDigits h (resultUsed + 1)
      let h ← lsh h x.digits x.used shiftAmount resultDigits
      let result ← make h x.isNegative resultUsed resultDigits
      some (result, h)

/-- Whether one of the digits from `i` on, `n` of them, is not zero. -/
def anyDigit (h : Heap) (digits : Ref) : Nat → Nat → Option Bool
  | 0, _ => some false
  | n + 1, i => do
    if (← readDigit h digits i) ≠ 0 then some true else anyDigit h digits n (i + 1)

/-- `this >> n*_digitBits`. -/
def BigInt.drShift (x : BigInt) (n : Nat) (h : Heap) : Result :=
  if x.used = 0 then some (zero, h)
  else if (x.used : Int) - n ≤ 0 then some (if x.isNegative then minusOne else zero, h)
  else do
    let resultUsed := x.used - n
    let (resultDigits, h) := newDigits h resultUsed
    let (_, h) ← forDigits (copyBody x.digits (fun k => n + k)) resultDigits
      (fun k => k) resultUsed 0
      () h
    let result ← make h x.isNegative resultUsed resultDigits
    if x.isNegative then do
      if ← anyDigit h x.digits n 0 then result.sub one h else some (result, h)
    else some (result, h)

def rshBody (xDigits : Ref) (digitsShift bitShift carryBitShift : Nat) (h : Heap) (i : Nat)
    (carry : Int) : Option (Int × Int) := do
  let bitMask : Int := (1 : Int) <<< bitShift - 1
  let digit ← readDigit h xDigits (i + digitsShift + 1)
  some (Int.lor (wrap (Int.land digit bitMask <<< carryBitShift)) carry, digit >>> bitShift)

/-- `resultDigits[0..resultUsed-1] = xDigits[0..xUsed-1] >> n`. -/
def rsh (h : Heap) (xDigits : Ref) (xUsed n : Nat) (resultDigits : Ref) : Option Heap := do
  let digitsShift := n / digitBits
  let bitShift := n % digitBits
  let carryBitShift := digitBits - bitShift
  let carry := (← readDigit h xDigits digitsShift) >>> bitShift
  let last := xUsed - digitsShift - 1
  let (carry, h) ← forDigits (rshBody xDigits digitsShift bitShift carryBitShift) resultDigits
    (fun i => i) last 0 carry h
  writeDigit h resultDigits last carry

/-- `operator >>` for a shift amount that is not negative. -/
def BigInt.shiftRight (x : BigInt) (shiftAmount : Nat) (h : Heap) : Result :=
  if x.isZero then some (x, h)
  else
    let digitShift := shiftAmount / digitBits
    let bitShift := shiftAmount % digitBits
    if bitShift = 0 then x.drShift digitShift h
    else if (x.used : Int) - digitShift ≤ 0 then
      some (if x.isNegative then minusOne else zero, h)
    else do
      let resultUsed := x.used - digitShift
      let (resultDigits, h) := newDigits h resultUsed
      let h ← rsh h x.digits x.used shiftAmount resultDigits
      let result ← make h x.isNegative resultUsed resultDigits
      if x.isNegative then do
        let digit ← readDigit h x.digits digitShift
        if Int.land digit ((1 : Int) <<< bitShift - 1) ≠ 0 then result.sub one h
        else if ← anyDigit h x.digits digitShift 0 then result.sub one h
        else some (result, h)
      else some (result, h)

/-! ## Widths -/

/-- `bitLength`; the top digit is not negative, also less one. -/
def BigInt.bitLength (x : BigInt) (h : Heap) : Option Nat :=
  if x.used = 0 then some 0
  else do
    let highBits ← readDigit h x.digits (x.used - 1)
    let highBits := if x.isNegative then highBits - 1 else highBits
    some (digitBits * (x.used - 1) + highBits.toNat.size)

def BigInt.toUnsigned (x : BigInt) (width : Nat) (h : Heap) : Result := do
  let (power, h) ← one.shiftLeft width h
  let (mask, h) ← power.sub one h
  x.and mask h

def BigInt.toSigned (x : BigInt) (width : Nat) (h : Heap) : Result := do
  let (signMask, h) ← one.shiftLeft (width - 1) h
  let (mask, h) ← signMask.sub one h
  let (low, h) ← x.and mask h
  let (sign, h) ← x.and signMask h
  low.sub sign h

end Dart2Wasm.BigIntImpl
