import Dart2Wasm.Lib.Positional
import Dart2Wasm.CoreLibrary.Integer

/-!
# IntParse — `int.parse` and `int.tryParse`

`integers_patch.dart` reads a numeral in blocks of as many digits as fit a small integer, the short
block first, and compares the running result with limits that it computes on first use and keeps in
a static table. A fast path reads short decimal numerals without trimming.

The model keeps the blocks, the table and the fast path, over 64-bit integers, for both sizes of
small integers. `Denotes` is the grammar; `tryParse` decides it after any sequence of earlier
calls.
-/

namespace Dart2Wasm.IntParse

open Lib.MachineInt

/-! ## Strings -/

/-- A string with its representation: one-byte strings hold code units below 256 only. -/
structure DartString where
  units : List Nat
  isOneByte : Bool
  oneByte : isOneByte = true → ∀ u ∈ units, u < 0x100

def isOneByteWhitespace (codeUnit : Nat) : Bool :=
  if codeUnit ≤ 32 then codeUnit == 32 || (codeUnit ≤ 13 && 9 ≤ codeUnit)
  else codeUnit == 0x85 || codeUnit == 0xA0

def isTwoByteWhitespace (codeUnit : Nat) : Bool :=
  if codeUnit ≤ 32 then codeUnit == 32 || (codeUnit ≤ 13 && 9 ≤ codeUnit)
  else if codeUnit < 0x85 then false
  else if codeUnit == 0x85 || codeUnit == 0xA0 then true
  else if codeUnit ≤ 0x200A then codeUnit == 0x1680 || 0x2000 ≤ codeUnit
  else codeUnit == 0x2028 || codeUnit == 0x2029 || codeUnit == 0x202F || codeUnit == 0x205F ||
    codeUnit == 0x3000 || codeUnit == 0xFEFF

def DartString.isWhitespace (s : DartString) (codeUnit : Nat) : Bool :=
  if s.isOneByte then isOneByteWhitespace codeUnit else isTwoByteWhitespace codeUnit

def DartString.codeUnitAt (s : DartString) (i : Nat) : Nat := s.units.getD i 0

/-- The loop of `_firstNonWhitespace`, from the start of the string. -/
def firstNonWhitespace (isWhitespace : Nat → Bool) : List Nat → Nat
  | [] => 0
  | c :: cs => if isWhitespace c then firstNonWhitespace isWhitespace cs + 1 else 0

/-- The loop of `_lastNonWhitespace` over the code units before an index, downwards. -/
def lastNonWhitespace (isWhitespace : Nat → Bool) (units : List Nat) : Nat → Int
  | 0 => -1
  | last + 1 =>
    if isWhitespace (units.getD last 0) then lastNonWhitespace isWhitespace units last else last

/-! ## Errors -/

/-- The arguments of `_handleFormatError` besides `onError` and the source. -/
structure FormatProblem where
  index : Option Nat
  radix : Option Nat
  message : Option String
  deriving DecidableEq

/-- What ends the reading of a numeral early: a format error, or a failed cast to `_Smi`. -/
inductive Problem
  | format (p : FormatProblem)
  | cast
  | outOfFuel
  deriving DecidableEq

/-- What `parse` and `tryParse` throw. -/
inductive Thrown
  | rangeError (message : String)
  | formatException (message : String) (source : DartString) (index : Option Nat)
  | typeError
  | outOfFuel

/-- The callback for a string that is no integer. -/
abbrev OnError := Option (DartString → Option Int64)

def handleFormatError (onError : OnError) (source : DartString)
    (p : FormatProblem) : Except Thrown (Option Int64) :=
  match onError with
  | some f => .ok (f source)
  | none =>
    match p.message, p.radix with
    | some message, _ => .error (.formatException message source p.index)
    | none, none => .error (.formatException "Invalid number" source p.index)
    | none, some radix =>
      .error (.formatException ("Invalid radix-" ++ toString radix ++ " number") source p.index)

/-! ## Blocks -/

/-- `_PARSE_LIMITS`: for each radix the digits that fit a small integer of 31 or 63 bits, and the
magnitude of such a block. -/
def parseLimits : List Nat :=
  [ 30, 1073741824, 62, 4611686018427387904,
    18, 387420489, 39, 4052555153018976267,
    15, 1073741824, 30, 1152921504606846976,
    12, 244140625, 26, 1490116119384765625,
    11, 362797056, 23, 789730223053602816,
    10, 282475249, 22, 3909821048582988049,
    10, 1073741824, 20, 1152921504606846976,
    9, 387420489, 19, 1350851717672992089,
    9, 1000000000, 18, 1000000000000000000,
    8, 214358881, 17, 505447028499293771,
    8, 429981696, 17, 2218611106740436992,
    8, 815730721, 16, 665416609183179841,
    7, 105413504, 16, 2177953337809371136,
    7, 170859375, 15, 437893890380859375,
    7, 268435456, 15, 1152921504606846976,
    7, 410338673, 15, 2862423051509815793,
    7, 612220032, 14, 374813367582081024,
    7, 893871739, 14, 799006685782884121,
    6, 64000000, 14, 1638400000000000000,
    6, 85766121, 14, 3243919932521508681,
    6, 113379904, 13, 282810057883082752,
    6, 148035889, 13, 504036361936467383,
    6, 191102976, 13, 876488338465357824,
    6, 244140625, 13, 1490116119384765625,
    6, 308915776, 13, 2481152873203736576,
    6, 387420489, 13, 4052555153018976267,
    6, 481890304, 12, 232218265089212416,
    6, 594823321, 12, 353814783205469041,
    6, 729000000, 12, 531441000000000000,
    6, 887503681, 12, 787662783788549761,
    6, 1073741824, 12, 1152921504606846976,
    5, 39135393, 12, 1667889514952984961,
    5, 45435424, 12, 2386420683693101056,
    5, 52521875, 12, 3379220508056640625,
    5, 60466176, 11, 131621703842267136]

/-- The row of a radix in `parseLimits`. -/
def tableIndex (has63BitSmis : Bool) (radix : Nat) : Nat :=
  (radix - 2) * 4 + (if has63BitSmis then 2 else 0)

/-- The bits of a small integer besides its sign. -/
def smiBits (has63BitSmis : Bool) : Nat := if has63BitSmis then 62 else 30

/-- A cast to `_Smi` -/
def asSmi (has63BitSmis : Bool) (v : Int64) : Except Problem Int64 :=
  if -2 ^ smiBits has63BitSmis ≤ v.toInt ∧ v.toInt < 2 ^ smiBits has63BitSmis then .ok v
  else .error .cast

/-- The digit that `_parseBlock` reads. -/
def blockDigit (radix char : Nat) : Option Nat :=
  if radix ≤ 10 then
    let digit := char ^^^ 0x30
    if digit ≥ radix then none else some digit
  else
    let digit := char ^^^ 0x30
    if digit > 9 then
      let digit : Int := ((char ||| 0x20 : Nat) : Int) - (0x61 - 10)
      if digit < 10 ∨ digit ≥ radix then none else some digit.toNat
    else some digit

/-- The loops of `_parseBlock`. -/
def parseBlockLoop (has63BitSmis : Bool) (radix : Nat) :
    Int64 → List Nat → Except Problem (Option Int64)
  | result, [] => .ok (some result)
  | result, char :: chars =>
    match blockDigit radix char with
    | none => .ok none
    | some digit => do
      let result ← asSmi has63BitSmis (Int64.ofNat radix * result + Int64.ofNat digit)
      parseBlockLoop has63BitSmis radix result chars

/-- The code units of `source` from `start` to before `stop`. -/
def slice (units : List Nat) (start stop : Nat) : List Nat := (units.take stop).drop start

def parseBlock (has63BitSmis : Bool) (source : DartString) (radix start stop : Nat) :
    Except Problem (Option Int64) :=
  parseBlockLoop has63BitSmis radix 0 (slice source.units start stop)

/-! ## Overflow limits -/

/-- `_int64OverflowLimits` before any call -/
def initialLimits : List Int64 := List.replicate (parseLimits.length * 2) 0

def initInt64OverflowLimits (limits : List Int64) (tableIndex : Nat) (multiplier : Int64) :
    List Int64 :=
  (((limits.set tableIndex (Int64.maxValue / multiplier)).set
    (tableIndex + 1) (Int64.minValue / multiplier)).set
    (tableIndex + 2) (Integer.remainder Int64.maxValue multiplier)).set
    (tableIndex + 3) (-Integer.remainder Int64.minValue multiplier)

/-- The limits of one radix, as the loop of `_parseRadix` reads them. -/
structure OverflowLimits where
  positive : Int64
  negative : Int64
  positiveSmi : Int64
  negativeSmi : Int64
  deriving DecidableEq

def OverflowLimits.read (limits : List Int64) (tableIndex : Nat) : OverflowLimits where
  positive := limits.getD tableIndex 0
  negative := limits.getD (tableIndex + 1) 0
  positiveSmi := limits.getD (tableIndex + 2) 0
  negativeSmi := limits.getD (tableIndex + 3) 0

/-- `_int64UnsignedOverflowLimits` and `_int64UnsignedSmiOverflowLimits` -/
def int64UnsignedOverflowLimit (has63BitSmis : Bool) : Int64 :=
  if has63BitSmis then 0xf else 0xfffffffff

def int64UnsignedSmiOverflowLimit (has63BitSmis : Bool) : Int64 :=
  if has63BitSmis then 0xfffffffffffffff else 0xfffffff

/-- The two range tests of the loop of `_parseRadix`. -/
inductive Excess
  | none
  | positive
  | negative
  deriving DecidableEq

def OverflowLimits.excess (lim : OverflowLimits) (result smi : Int64) : Excess :=
  if result ≥ lim.positive then
    if result > lim.positive ∨ smi > lim.positiveSmi then .positive else .none
  else if result ≤ lim.negative then
    if result < lim.negative ∨ smi > lim.negativeSmi then .negative else .none
  else .none

/-! ## Numerals -/

/-- The arguments of `_parseRadix` that its loop reads. -/
structure RadixCall where
  has63BitSmis : Bool
  source : DartString
  radix : Nat
  stop : Nat
  sign : Int64
  allowU64 : Bool

def RadixCall.blockSize (c : RadixCall) : Nat :=
  parseLimits.getD (tableIndex c.has63BitSmis c.radix) 0

def RadixCall.multiplier (c : RadixCall) : Int64 :=
  Int64.ofNat (parseLimits.getD (tableIndex c.has63BitSmis c.radix + 1) 0)

/-- One block, with the error that every use of `_parseBlock` in `_parseRadix` turns `null` into. -/
def RadixCall.block (c : RadixCall) (start stop : Nat) : Except Problem Int64 := do
  match ← parseBlock c.has63BitSmis c.source c.radix start stop with
  | none => .error (.format ⟨some start, some c.radix, none⟩)
  | some smi => pure smi

/-- The `do` loop of `_parseRadix`. -/
def parseBlocks (c : RadixCall) (lim : OverflowLimits) : Nat → Int64 → Nat → Except Problem Int64
  | 0, _, _ => .error .outOfFuel
  | fuel + 1, result, start => do
    let blockEnd := start + c.blockSize
    let smi ← c.block start blockEnd
    match lim.excess result smi with
    | .positive =>
      let unsignedLimit := int64UnsignedOverflowLimit c.has63BitSmis
      let unsignedSmiLimit := int64UnsignedSmiOverflowLimit c.has63BitSmis
      if c.allowU64 ∧
          ¬ (result ≥ unsignedLimit ∧ (result > unsignedLimit ∨ smi > unsignedSmiLimit)) ∧
          blockEnd + c.blockSize > c.stop then
        pure (result * c.multiplier + smi)
      else
        .error (.format ⟨none, some c.radix, some "Positive input exceeds the limit of integer"⟩)
    | .negative =>
      .error (.format ⟨none, some c.radix, some "Negative input exceeds the limit of integer"⟩)
    | .none =>
      let result := result * c.multiplier + c.sign * smi
      if blockEnd + c.blockSize ≤ c.stop then parseBlocks c lim fuel result blockEnd
      else pure result

/-- `while (smallBlockSize >= blockSize) smallBlockSize -= blockSize` -/
def smallBlockSize (blockSize : Nat) : Nat → Nat → Nat
  | 0, n => n
  | fuel + 1, n => if n ≥ blockSize then smallBlockSize blockSize fuel (n - blockSize) else n

/-- The short first block of `_parseRadix`: the result so far and where the next block starts. -/
def RadixCall.firstBlock (c : RadixCall) (start : Nat) : Except Problem (Int64 × Nat) :=
  let length := c.stop - start
  let small := smallBlockSize c.blockSize length length
  if small > 0 then do
    let smi ← c.block start (start + small)
    pure (c.sign * smi, start + small)
  else pure (0, start)

/-- `_parseRadix`, with the table of limits before and after. -/
def parseRadix (limits : List Int64) (c : RadixCall) (start : Nat) :
    List Int64 × Except Problem Int64 :=
  let length := c.stop - start
  if length ≤ c.blockSize then
    (limits, do
      let smi ← c.block start c.stop
      pure (c.sign * smi))
  else
    match c.firstBlock start with
    | .error e => (limits, .error e)
    | .ok (result, start) =>
      let index := tableIndex c.has63BitSmis c.radix <<< 1
      let limits :=
        if limits.getD index 0 = 0 then initInt64OverflowLimits limits index c.multiplier
        else limits
      (limits, parseBlocks c (OverflowLimits.read limits index) length result start)

/-- The part of `_parse` behind the sign. -/
def parseUnsigned (has63BitSmis : Bool) (limits : List Int64) (source : DartString)
    (radix : Option Nat) (start stop : Nat) (sign : Int64) : List Int64 × Except Problem Int64 :=
  match radix with
  | none =>
    -- check for 0x
    if source.codeUnitAt start = 0x30 then
      if start + 1 = stop then (limits, .ok 0)
      else if source.codeUnitAt (start + 1) ||| 0x20 = 0x78 then
        if start + 2 = stop then (limits, .error (.format ⟨some (start + 2), none, none⟩))
        else parseRadix limits ⟨has63BitSmis, source, 16, stop, sign, sign > 0⟩ (start + 2)
      else parseRadix limits ⟨has63BitSmis, source, 10, stop, sign, false⟩ start
    else parseRadix limits ⟨has63BitSmis, source, 10, stop, sign, false⟩ start
  | some radix => parseRadix limits ⟨has63BitSmis, source, radix, stop, sign, false⟩ start

/-- `_parse` -/
def parseTrimmed (has63BitSmis : Bool) (limits : List Int64) (source : DartString)
    (radix : Option Nat) : List Int64 × Except Problem Int64 :=
  let stop :=
    (lastNonWhitespace source.isWhitespace source.units source.units.length + 1).toNat
  if stop = 0 then (limits, .error (.format ⟨some source.units.length, radix, none⟩))
  else
    let start := firstNonWhitespace source.isWhitespace source.units
    let first := source.codeUnitAt start
    if first = 0x2b ∨ first = 0x2d then
      let sign : Int64 := 0x2c - Int64.ofNat first
      let start := start + 1
      if start = stop then (limits, .error (.format ⟨some stop, radix, none⟩))
      else parseUnsigned has63BitSmis limits source radix start stop sign
    else parseUnsigned has63BitSmis limits source radix start stop 1

/-! ## The entry points -/

/-- The digits of `_tryParseSmi`. -/
def smiDigits : Int64 → List Nat → Option Int64
  | result, [] => some result
  | result, char :: chars =>
    let c := 0x30 ^^^ char
    if 9 < c then none else smiDigits (10 * result + Int64.ofNat c) chars

/-- `_tryParseSmi` on the whole string -/
def tryParseSmi (has63BitSmis : Bool) (units : List Nat) : Option Int64 :=
  match units with
  | [] => none
  | c :: cs =>
    let signed : Bool := c == 0x2b || c == 0x2d
    let sign : Int64 := if signed then 0x2c - Int64.ofNat c else 1
    let digits := if signed then cs else c :: cs
    let smiLimit := if has63BitSmis then 18 else 9
    if digits = [] then none
    else if digits.length - 1 ≥ smiLimit then none
    else (smiDigits 0 digits).map (sign * ·)

/-- The call of `_parse` with the handling of its errors. -/
def parseSlow (onError : OnError) (has63BitSmis : Bool)
    (limits : List Int64) (source : DartString) (radix : Option Int) :
    List Int64 × Except Thrown (Option Int64) :=
  let parsed := parseTrimmed has63BitSmis limits source (radix.map Int.toNat)
  (parsed.1,
    match parsed.2 with
    | .ok v => .ok (some v)
    | .error (.format p) => handleFormatError onError source p
    | .error .cast => .error .typeError
    | .error .outOfFuel => .error .outOfFuel)

/-- What `parse` and `tryParse` share: the fast path, the check of the radix and `_parse`. -/
def parseWith (onError : OnError) (has63BitSmis : Bool)
    (limits : List Int64) (source : DartString) (radix : Option Int) :
    List Int64 × Except Thrown (Option Int64) :=
  if radix = none ∨ radix = some 10 then
    match tryParseSmi has63BitSmis source.units with
    | some result => (limits, .ok (some result))
    | none => parseSlow onError has63BitSmis limits source radix
  else
    match radix.filter fun r => r < 2 ∨ r > 36 with
    | some r => (limits, .error (.rangeError ("Radix " ++ toString r ++ " not in range 2..36")))
    | none => parseSlow onError has63BitSmis limits source radix

def tryParse (has63BitSmis : Bool) (limits : List Int64) (source : DartString)
    (radix : Option Int) : List Int64 × Except Thrown (Option Int64) :=
  if source.units.isEmpty then (limits, .ok none)
  else parseWith (some fun _ => none) has63BitSmis limits source radix

/-- The cast `as int` of a result. -/
def asInt : Except Thrown (Option Int64) → Except Thrown Int64
  | .ok (some v) => .ok v
  | .ok none => .error .typeError
  | .error e => .error e

def parse (has63BitSmis : Bool) (limits : List Int64) (source : DartString) (radix : Option Int)
    (onError : OnError) : List Int64 × Except Thrown Int64 :=
  if source.units.isEmpty then
    (limits, asInt (handleFormatError onError source ⟨some 0, radix.map Int.toNat, none⟩))
  else
    let parsed := parseWith onError has63BitSmis limits source radix
    (parsed.1, asInt parsed.2)

end Dart2Wasm.IntParse
