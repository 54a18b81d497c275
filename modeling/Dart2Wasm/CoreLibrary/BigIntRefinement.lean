import Dart2Wasm.CoreLibrary.BigIntShifts

/-!
# BigIntRefinement — big integers refine the integers

`Operation` collects the operators, with `run` as the operation of the code and `eval` as the
operation on the integers. `operation_returns` compares them for one operation, and `program_run`
for a program that keeps its results and goes on with them.

A normal form is determined by the integer that it denotes (`normal_unique`), so equality and hash
codes depend on the integer only.

`toUnsigned` and `toSigned` are programs, and `bitLength` is compared with the least width of the
integer (`bitLength_spec`).
-/

namespace Dart2Wasm.BigIntImpl

open Lib List Nat Option BigInt

variable {x y : BigInt} {registers : List BigInt}

/-! ## Operations -/

inductive Operation
  | add | sub | mul | neg | not | and | or | xor
  | shl (shiftAmount : Nat)
  | shr (shiftAmount : Nat)
  deriving DecidableEq

def Operation.run (op : Operation) (x y : BigInt) (h : Heap) : Result :=
  match op with
  | add => x.add y h
  | sub => x.sub y h
  | mul => x.mul y h
  | neg => some (x.neg, h)
  | not => x.not h
  | and => x.and y h
  | or => x.or y h
  | xor => x.xor y h
  | shl shiftAmount => x.shiftLeft shiftAmount h
  | shr shiftAmount => x.shiftRight shiftAmount h

/-- The operation on integers; the bitwise ones are those of infinite two's complement. -/
def Operation.eval (op : Operation) (a b : Int) : Int :=
  match op with
  | add => a + b
  | sub => a - b
  | mul => a * b
  | neg => -a
  | not => Int.lnot a
  | and => Int.land a b
  | or => Int.lor a b
  | xor => Int.xor a b
  | shl shiftAmount => a * 2 ^ shiftAmount
  | shr shiftAmount => a / 2 ^ shiftAmount

variable {h : Heap} {values : List Int}

theorem operation_returns (hp : Prepared h) (hx : Normal h x) (hy : Normal h y) (op : Operation) :
    Returns h (op.eval (toInt h x) (toInt h y)) (op.run x y h) := by
  cases op with
  | add => exact add_returns hp hx hy
  | sub => exact sub_returns hp hx hy
  | mul => exact mul_returns hp hx hy
  | neg => exact neg_returns hx
  | not => exact not_returns hp hx
  | and => exact and_returns hp hx hy
  | or => exact or_returns hp hx hy
  | xor => exact xor_returns hp hx hy
  | shl n =>
    have hvalue : toInt h x * 2 ^ n = signedInt x.isNegative (magnitude h x * 2 ^ n) := by
      rw [toInt, signedInt]
      push_cast
      split
      · ring
      · rfl
    have hreturns := (shiftLeft_yields hp hx n).returns
    rw [← hvalue] at hreturns
    exact hreturns
  | shr n => exact shiftRight_returns hp hx n

/-! ## Programs -/

structure Instruction where
  op : Operation
  left : Nat
  right : Nat

def runProgram : List Instruction → List BigInt → Heap → Option (List BigInt × Heap)
  | [], registers, h => some (registers, h)
  | i :: program, registers, h => do
    let x ← registers[i.left]?
    let y ← registers[i.right]?
    let (r, h) ← i.op.run x y h
    runProgram program (registers ++ [r]) h

def evalProgram : List Instruction → List Int → Option (List Int)
  | [], values => some values
  | i :: program, values => do
    let a ← values[i.left]?
    let b ← values[i.right]?
    evalProgram program (values ++ [i.op.eval a b])

/-- The registers denote the values. -/
structure Denotes (h : Heap) (registers : List BigInt) (values : List Int) : Prop where
  prepared : Prepared h
  normal : ∀ x ∈ registers, Normal h x
  values : registers.map (toInt h) = values

section

variable (hd : Denotes h registers values)
include hd

theorem Denotes.lookup (i : Nat) : values[i]? = (registers[i]?).map (toInt h) := by
  rw [← hd.values, getElem?_map]

theorem Denotes.step (hx : x ∈ registers) (hy : y ∈ registers) (op : Operation) :
    ∃ r h', op.run x y h = some (r, h') ∧ h <+: h' ∧
      Denotes h' (registers ++ [r]) (values ++ [op.eval (toInt h x) (toInt h y)]) := by
  obtain ⟨r, h', hrun, hh, hr, hvalue⟩ :=
    operation_returns hd.prepared (hd.normal x hx) (hd.normal y hy) op
  refine ⟨r, h', hrun, hh, hd.prepared.mono hh, ?_, ?_⟩
  · intro z hz
    rcases mem_append.1 hz with hz | hz
    · exact (hd.normal z hz).mono hh
    · rw [mem_singleton.1 hz]
      exact hr
  · rw [map_append, ← hd.values]
    congr 1
    · exact map_congr_left fun z hz => toInt_mono hh (hd.normal z hz)
    · exact congrArg (fun v => [v]) hvalue

/-- A program has a result exactly when it has one on the integers, and it denotes that result. -/
theorem program_run (program : List Instruction) :
    match evalProgram program values with
    | none => runProgram program registers h = none
    | some values' => ∃ registers' h', runProgram program registers h = some (registers', h') ∧
        h <+: h' ∧ Denotes h' registers' values' := by
  induction program generalizing h registers values with
  | nil => exact ⟨registers, h, rfl, prefix_rfl, hd⟩
  | cons i program ih =>
    rw [evalProgram, runProgram, hd.lookup, hd.lookup]
    cases hx : registers[i.left]? with
    | none => rfl
    | some x =>
      cases hy : registers[i.right]? with
      | none => rfl
      | some y =>
        obtain ⟨r, h', hrun, hh, hd'⟩ :=
          hd.step (mem_of_getElem? hx) (mem_of_getElem? hy) i.op
        simp only [map_some, Lib.some_bind]
        rw [hrun]
        have hrest := ih hd'
        split at hrest
        · exact hrest
        · obtain ⟨registers', h₁, hrun', hh', hd₁⟩ := hrest
          exact ⟨registers', h₁, hrun', hh.trans hh', hd₁⟩

end

/-! ## Equality and hash codes -/

theorem normal_unique (hx : Normal h x) (hy : Normal h y) (heq : toInt h x = toInt h y) :
    x.isNegative = y.isNegative ∧ x.used = y.used ∧
      ∀ k < x.used, digitOf h x k = digitOf h y k := by
  have hsigns : x.isNegative = y.isNegative ∧ magnitude h x = magnitude h y := by
    cases hxn : x.isNegative <;> cases hyn : y.isNegative
    · rw [toInt_nonneg hxn, toInt_nonneg hyn] at heq
      exact ⟨rfl, Int.ofNat.inj heq⟩
    · rw [toInt_nonneg hxn, (toInt_negative hy hyn).2] at heq
      cases heq
    · rw [(toInt_negative hx hxn).2, toInt_nonneg hyn] at heq
      cases heq
    · have hxpos := toInt_negative hx hxn
      have hypos := toInt_negative hy hyn
      exact ⟨rfl, by omega⟩
  obtain ⟨hsign, hmag⟩ := hsigns
  have hused : x.used = y.used := le_antisymm
    (used_le_of_magnitude hy hx (le_of_eq hmag)) (used_le_of_magnitude hx hy (le_of_eq hmag.symm))
  refine ⟨hsign, hused, digit_unique (fun k _ => hx.small k) (fun k _ => hy.small k) ?_⟩
  rw [magnitude, magnitude, ← hused] at hmag
  exact hmag

theorem equals_spec (hx : Normal h x) (hy : Normal h y) :
    x.equals y h = some (decide (toInt h x = toInt h y)) := by
  obtain ⟨result, hresult, -, hequal, -⟩ := compareTo_spec hx hy
  rw [equals, hresult]
  simp only [Lib.some_bind, some.injEq]
  rw [Bool.eq_iff_iff, beq_iff_eq, hequal, decide_eq_true_iff]

def hashDigits (f : Nat → Nat) : Nat → Nat → Int → Int
  | 0, _, hash => hash
  | n + 1, i, hash => hashDigits f n (i + 1) (combine hash (f i))

theorem hashLoop_spec (hx : Normal h x) {n i : Nat} (hn : i + n ≤ x.used) (hash : Int) :
    hashLoop h x.digits n i hash = some (hashDigits (digitOf h x) n i hash) := by
  induction n generalizing i hash with
  | zero => rfl
  | succ n ih =>
    rw [hashLoop, hx.read' (by omega)]
    exact ih (by omega) _

theorem hashDigits_congr {f g : Nat → Nat} {n i : Nat} (hfg : ∀ k < i + n, f k = g k)
    (hash : Int) : hashDigits f n i hash = hashDigits g n i hash := by
  induction n generalizing i hash with
  | zero => rfl
  | succ n ih =>
    rw [hashDigits, hashDigits, hfg i (by omega)]
    exact ih (fun k hk => hfg k (by omega)) _

theorem hashCode_spec (hx : Normal h x) :
    x.hashCode h = some (if x.used = 0 then 6707
      else finish (hashDigits (digitOf h x) x.used 0
        (if x.isNegative then 83585 else 429689))) := by
  rw [hashCode, isZero]
  by_cases hzero : x.used = 0
  · simp [hzero]
  · rw [if_neg (by simpa using hzero), if_neg hzero, hashLoop_spec hx (by omega)]
    rfl

theorem hashCode_congr (hx : Normal h x) (hy : Normal h y)
    (heq : toInt h x = toInt h y) : x.hashCode h = y.hashCode h := by
  obtain ⟨hsign, hused, hdigits⟩ := normal_unique hx hy heq
  rw [hashCode_spec hx, hashCode_spec hy, ← hsign, ← hused,
    hashDigits_congr (n := x.used) fun k hk => hdigits k (by omega)]

/-! ## Refinement -/

/-- Every operation on big integers has a result, leaves all arrays as they were, and makes the
normal form of the result on the integers. Comparison and equality are those of the integers, and
equal integers have equal hash codes. -/
theorem bigInt_refines {h : Heap} (hp : Prepared h) {x y : BigInt} (hx : Normal h x)
    (hy : Normal h y) (op : Operation) :
    (∃ r h', op.run x y h = some (r, h') ∧ h <+: h' ∧ Normal h' r ∧
      toInt h' r = op.eval (toInt h x) (toInt h y)) ∧
    (∃ result, x.compareTo y h = some result ∧ (result < 0 ↔ toInt h x < toInt h y) ∧
      (result = 0 ↔ toInt h x = toInt h y) ∧ (0 < result ↔ toInt h y < toInt h x)) ∧
    x.equals y h = some (decide (toInt h x = toInt h y)) ∧
    (∃ hash, x.hashCode h = some hash) ∧
    (toInt h x = toInt h y → x.hashCode h = y.hashCode h) :=
  ⟨operation_returns hp hx hy op, compareTo_spec hx hy, equals_spec hx hy,
    ⟨_, hashCode_spec hx⟩, hashCode_congr hx hy⟩

/-- What a program computes from one, with its results as later operands: the results are the
integers, and two of them are equal, with one hash code, if the integers are. -/
theorem program_refines (program : List Instruction) :
    (evalProgram program [1]).elim (runProgram program [one] [[0, 0], [1, 0]] = none)
      fun values => ∃ registers h, runProgram program [one] [[0, 0], [1, 0]] = some (registers, h) ∧
        registers.map (toInt h) = values ∧ ∀ x ∈ registers, ∀ y ∈ registers,
          x.equals y h = some (decide (toInt h x = toInt h y)) ∧
            (toInt h x = toInt h y → x.hashCode h = y.hashCode h) := by
  have hp : Prepared [[0, 0], [1, 0]] := ⟨rfl, rfl⟩
  have hd : Denotes _ [one] [1] := ⟨hp, by simp [hp.normal_one], by decide⟩
  have hrun := program_run hd program
  cases heval : evalProgram program [1] with
  | none => rwa [heval] at hrun
  | some values =>
    rw [heval] at hrun
    obtain ⟨registers, h, hrun, -, hd⟩ := hrun
    refine ⟨registers, h, hrun, hd.values, fun x hx y hy => ?_⟩
    have hx := hd.normal x hx
    have hy := hd.normal y hy
    exact ⟨equals_spec hx hy, hashCode_congr hx hy⟩

/-- Two big integers of two digits, and the constants. -/
def sampleHeap : Heap := [[0, 0], [1, 0], [5, 7], [4294967295, 4294967295]]

theorem sampleHeap_prepared : Prepared sampleHeap := ⟨rfl, rfl⟩

theorem digit_lt_of_forall {R : List Nat} (hR : ∀ d ∈ R, d < digitBase) (k : Nat) :
    digit R k < digitBase := by
  rw [digit, getD_eq_getElem?_getD]
  cases hk : R[k]? with
  | none => exact base_pos
  | some d => exact hR d (mem_of_getElem? hk)

theorem sampleHeap_normal : Normal sampleHeap ⟨true, 2, 2⟩ ∧ Normal sampleHeap ⟨false, 2, 3⟩ := by
  constructor
  · exact ⟨rfl, digit_lt_of_forall (by decide), by decide, by decide, by decide, by decide, nofun⟩
  · exact ⟨rfl, digit_lt_of_forall (by decide), by decide, by decide, by decide, by decide, nofun⟩

theorem bigInt_refines_sample :
    ∃ r h', (Operation.shr 33).run ⟨true, 2, 2⟩ ⟨false, 2, 3⟩ sampleHeap = some (r, h') ∧
      sampleHeap <+: h' ∧ Normal h' r ∧ toInt h' r = -(7 * 2 ^ 32 + 5) / 2 ^ 33 :=
  (bigInt_refines sampleHeap_prepared sampleHeap_normal.1 sampleHeap_normal.2 (.shr 33)).1

/-! ## Widths -/

def lastResult (o : Option (List BigInt × Heap)) : Result :=
  o.bind fun p => p.1.getLast?.map (·, p.2)

theorem lastResult_returns (hp : Prepared h) (hx : Normal h x) {program : List Instruction}
    (heval : evalProgram program [toInt h x, 1] = some values) {v : Int}
    (hv : values.getLast? = some v) : Returns h v (lastResult (runProgram program [x, one] h)) := by
  have hone : toInt h one = 1 := by
    rw [toInt_nonneg rfl, hp.magnitude_one]
    rfl
  have hd : Denotes h [x, one] [toInt h x, 1] :=
    ⟨hp, by simp [hx, hp.normal_one], by simp [hone]⟩
  have hrun := program_run hd program
  rw [heval] at hrun
  obtain ⟨registers', h', hrun, hh, hd'⟩ := hrun
  rw [← hd'.values, getLast?_map] at hv
  obtain ⟨r, hr, rfl⟩ := map_eq_some_iff.1 hv
  refine ⟨r, h', ?_, hh, hd'.normal r (mem_of_getLast? hr), rfl⟩
  simp [lastResult, hrun, hr]

/-- The lower bits less the sign bit are the residue of least size. -/
theorem low_sub_sign (a : Int) (k : Nat) :
    a % 2 ^ k - (a % 2 ^ (k + 1) - a % 2 ^ k) = a.bmod (2 ^ (k + 1)) := by
  have hlow : a % 2 ^ (k + 1) % 2 ^ k = a % 2 ^ k :=
    Int.emod_emod_of_dvd a (pow_dvd_pow 2 k.le_succ)
  have hdouble : (2 : Int) ^ (k + 1) = 2 * 2 ^ k := pow_succ' 2 k
  have hpos : (0 : Int) < 2 ^ k := by positivity
  have hnonneg := Int.emod_nonneg a (show (2 : Int) ^ (k + 1) ≠ 0 by omega)
  rw [Int.bmod_def, ← two_pow_cast, ← hlow]
  by_cases hsign : a % 2 ^ (k + 1) < 2 ^ k
  · rw [Int.emod_eq_of_lt hnonneg hsign, if_pos (by omega)]
    omega
  · rw [← Int.sub_emod_right, Int.emod_eq_of_lt (by omega) (by omega), if_neg (by omega)]
    omega

section

variable (hp : Prepared h) (hx : Normal h x) (w : Nat)
include hp hx

theorem toUnsigned_returns : Returns h (toInt h x % 2 ^ w) (x.toUnsigned w h) := by
  have hrun : x.toUnsigned w h = lastResult
      (runProgram [⟨.shl w, 1, 1⟩, ⟨.sub, 2, 1⟩, ⟨.and, 0, 3⟩] [x, one] h) := by
    simp [lastResult, runProgram, Operation.run, toUnsigned, bind_assoc]
  rw [hrun]
  refine lastResult_returns hp hx rfl ?_
  simp [Operation.eval, land_mask]

theorem toSigned_returns : Returns h ((toInt h x).bmod (2 ^ (w - 1 + 1))) (x.toSigned w h) := by
  have hrun : x.toSigned w h = lastResult (runProgram [⟨.shl (w - 1), 1, 1⟩, ⟨.sub, 2, 1⟩,
      ⟨.and, 0, 3⟩, ⟨.and, 0, 2⟩, ⟨.sub, 4, 5⟩] [x, one] h) := by
    simp [lastResult, runProgram, Operation.run, toSigned, bind_assoc]
  rw [hrun]
  refine lastResult_returns hp hx rfl ?_
  simp [Operation.eval, land_mask, land_two_pow, low_sub_sign]

end

/-- The numbers of bits that hold an integer, without its sign. -/
def widths (a : Int) : Set Nat := {n | -2 ^ n ≤ a ∧ a < 2 ^ n}

theorem bmod_widths (a : Int) (k : Nat) :
    k ∈ widths (a.bmod (2 ^ (k + 1))) ∧ (a.bmod (2 ^ (k + 1)) = a ↔ k ∈ widths a) := by
  have hlow := Int.le_bmod (x := a) (Nat.two_pow_pos (k + 1))
  have hhigh := Int.bmod_lt (x := a) (Nat.two_pow_pos (k + 1))
  have hdouble : 2 ^ (k + 1) = 2 * 2 ^ k := pow_succ' 2 k
  simp only [widths, Set.mem_ofPred_eq, two_pow_cast]
  exact ⟨by omega, fun _ => by omega, fun _ => Int.bmod_eq_of_le (by omega) (by omega)⟩

theorem le_size_iff {b d low n : Nat} (hlow : 0 < low ∧ low ≤ 2 ^ b) (hd : d ≠ 0 ∨ low = 2 ^ b) :
    d * 2 ^ b + low ≤ 2 ^ n ↔ b + d.size ≤ n := by
  constructor
  · intro hle
    by_cases hzero : d = 0
    · rw [hzero, hd.resolve_left (not_not_intro hzero), zero_mul, zero_add] at hle
      rw [hzero]
      exact (Nat.pow_le_pow_iff_right (by decide)).1 hle
    · rw [add_comm, ← size_shiftLeft hzero, size_le, shiftLeft_eq]
      omega
  · intro hle
    calc
      d * 2 ^ b + low ≤ (d + 1) * 2 ^ b := by rw [succ_mul]; omega
      _ ≤ 2 ^ d.size * 2 ^ b := mul_le_mul_right _ (lt_size_self d)
      _ = 2 ^ (b + d.size) := by rw [pow_add, mul_comm]
      _ ≤ 2 ^ n := Nat.pow_le_pow_right (by decide) hle

/-- The width of an integer by its top digit `d` and the lower digits. -/
theorem isLeast_widths {b d low : Nat} (hlow : low < 2 ^ b) (hd : d ≠ 0) (n : Nat) :
    (IsLeast (widths (low + d * 2 ^ b : Nat)) n ↔ n = b + d.size) ∧
      (IsLeast (widths (-(low + d * 2 ^ b : Nat))) n ↔
        n = b + (if low = 0 then d - 1 else d).size) := by
  have hleast : ∀ {a w}, (∀ k, k ∈ widths a ↔ w ≤ k) → (IsLeast (widths a) n ↔ n = w) := by
    intro a w hw
    rw [show widths a = Set.Ici w from Set.ext hw]
    exact ⟨fun hn => hn.unique isLeast_Ici, fun hn => hn ▸ isLeast_Ici⟩
  constructor
  · refine hleast fun k => ?_
    rw [← le_size_iff ⟨succ_pos low, hlow⟩ (.inl hd)]
    simp only [widths, Set.mem_ofPred_eq, two_pow_cast]
    omega
  · refine hleast fun k => ?_
    have hneg : k ∈ widths (-(low + d * 2 ^ b : Nat)) ↔ low + d * 2 ^ b ≤ 2 ^ k := by
      have hpos := Nat.two_pow_pos k
      simp only [widths, Set.mem_ofPred_eq, two_pow_cast]
      omega
    rw [hneg]
    by_cases hzero : low = 0
    · rw [if_pos hzero, ← le_size_iff ⟨Nat.two_pow_pos b, le_rfl⟩ (.inr rfl), ← Nat.succ_mul,
        Nat.succ_eq_add_one, Nat.sub_add_cancel (Nat.pos_of_ne_zero hd), hzero, Nat.zero_add]
    · rw [if_neg hzero, ← le_size_iff ⟨pos_of_ne_zero hzero, hlow.le⟩ (.inl hd), add_comm]

/--
`bitLength` takes one off the top digit of a negative integer, which gets shorter, although a lower
digit is not zero and the borrow stops there. -/
def BorrowLost (h : Heap) (x : BigInt) : Prop :=
  x.isNegative = true ∧ digitSum digitBase (digitOf h x) (x.used - 1) ≠ 0 ∧
    (digitOf h x (x.used - 1) - 1).size ≠ (digitOf h x (x.used - 1)).size

theorem bitLength_spec (hx : Normal h x) :
    ∃ n, x.bitLength h = some n ∧ (IsLeast (widths (toInt h x)) n ↔ ¬ BorrowLost h x) := by
  rw [bitLength]
  by_cases hused : x.used = 0
  · have hlost : ¬ BorrowLost h x := fun hlost => by
      rw [BorrowLost, hx.sign hused] at hlost
      exact absurd hlost.1 (by decide)
    refine ⟨0, if_pos hused, iff_of_true ?_ hlost⟩
    rw [toInt_of_isZero (by simpa [isZero] using hused)]
    exact ⟨by simp [widths], fun _ _ => zero_le _⟩
  have hlow := digitSum_lt (n := x.used - 1) fun k _ => hx.small k
  have hm : magnitude h x = digitSum digitBase (digitOf h x) (x.used - 1) +
      digitOf h x (x.used - 1) * digitBase ^ (x.used - 1) := by
    rw [magnitude, ← digitSum_succ, Nat.sub_add_cancel (by omega)]
  have hbase : digitBase ^ (x.used - 1) = 2 ^ (digitBits * (x.used - 1)) := (pow_mul 2 32 _).symm
  rw [hbase] at hlow hm
  have hleast := fun n => isLeast_widths hlow (hx.leading hused) n
  rw [if_neg hused, hx.read' (by omega), some_bind, toInt, hm, BorrowLost]
  generalize digitSum digitBase (digitOf h x) (x.used - 1) = low at *
  generalize digitOf h x (x.used - 1) = d at *
  cases hneg : x.isNegative with
  | false => exact ⟨_, rfl, iff_of_true ((hleast _).1.2 rfl) (by simp)⟩
  | true =>
    refine ⟨_, rfl, (hleast _).2.trans ?_⟩
    have hpred : ((d : Int) - 1).toNat = d - 1 := by omega
    simp only [if_true, hpred, true_and, add_left_cancel_iff]
    split <;> simp [*]

/-- The laws of the widths of `x`, where `y` is `-x - 1`. -/
def WidthLaws (h : Heap) (x : BigInt) (h' : Heap) (y : BigInt) : Prop :=
  ∃ n, x.bitLength h = some n ∧ IsLeast (widths (toInt h x)) n ∧ y.bitLength h' = some n ∧
    ∀ w ≥ 1, (∃ r h₁, x.toUnsigned w h = some (r, h₁) ∧ toInt h₁ r = toInt h x % 2 ^ w) ∧
      ∃ r h₁, x.toSigned w h = some (r, h₁) ∧ w - 1 ∈ widths (toInt h₁ r) ∧
        toInt h₁ r % 2 ^ w = toInt h x % 2 ^ w ∧ r.equals x h₁ = some (decide (n < w))

/-- The laws of the widths hold unless a borrow is lost. -/
theorem widthLaws_iff {h : Heap} (hp : Prepared h) {x : BigInt} (hx : Normal h x) :
    ∃ y h', x.neg.sub one h = some (y, h') ∧
      (WidthLaws h x h' y ↔ ¬ BorrowLost h x ∧ ¬ BorrowLost h' y) := by
  have hcomplement : Returns h (-toInt h x - 1)
      (lastResult (runProgram [⟨.neg, 0, 0⟩, ⟨.sub, 2, 1⟩] [x, one] h)) :=
    lastResult_returns hp hx rfl rfl
  obtain ⟨y, h', hy, -, hnormal, hvalue⟩ := hcomplement
  refine ⟨y, h', ?_, ?_⟩
  · simpa [lastResult, runProgram, Operation.run, bind_assoc] using hy
  obtain ⟨n, hn, hleast⟩ := bitLength_spec hx
  obtain ⟨n', hn', hleast'⟩ := bitLength_spec hnormal
  have hsame : widths (-toInt h x - 1) = widths (toInt h x) := by
    ext k
    simp only [widths, Set.mem_ofPred_eq]
    omega
  rw [hvalue, hsame] at hleast'
  constructor
  · rintro ⟨k, hk, hkleast, hk', -⟩
    obtain rfl : n = k := some.inj (hn.symm.trans hk)
    obtain rfl : n' = n := some.inj (hn'.symm.trans hk')
    exact ⟨hleast.1 hkleast, hleast'.1 hkleast⟩
  · rintro ⟨hx', hy'⟩
    have hwidth := hleast.2 hx'
    obtain rfl : n' = n := (hleast'.2 hy').unique hwidth
    refine ⟨n', hn, hwidth, hn', fun w hw => ?_⟩
    obtain ⟨r, h₁, hr, -, -, hunsigned⟩ := toUnsigned_returns hp hx w
    obtain ⟨s, h₂, hs, hh, hnormal, hsigned⟩ := toSigned_returns hp hx w
    obtain ⟨hin, heq⟩ := bmod_widths (toInt h x) (w - 1)
    have hlt : w - 1 ∈ widths (toInt h x) ↔ n' < w := by
      constructor
      · intro hmem
        have := hwidth.2 hmem
        omega
      · intro hlt
        have hle : (2 : Int) ^ n' ≤ 2 ^ (w - 1) := pow_le_pow_right₀ (by decide) (by omega)
        have hmem : -2 ^ n' ≤ toInt h x ∧ toInt h x < 2 ^ n' := hwidth.1
        exact ⟨by omega, by omega⟩
    refine ⟨⟨r, h₁, hr, hunsigned⟩, s, h₂, hs, hsigned ▸ hin, ?_, ?_⟩
    · rw [hsigned, Nat.sub_add_cancel hw, two_pow_cast, Int.bmod_emod]
    · rw [equals_spec hnormal (hx.mono hh), hsigned, toInt_mono hh hx]
      simp only [heq, hlt]

theorem widthLaws_iff_sample :
    ∃ y h', (⟨true, 2, 2⟩ : BigInt).neg.sub one sampleHeap = some (y, h') ∧
    (WidthLaws sampleHeap ⟨true, 2, 2⟩ h' y ↔
      ¬ BorrowLost sampleHeap ⟨true, 2, 2⟩ ∧ ¬ BorrowLost h' y) :=
  widthLaws_iff sampleHeap_prepared sampleHeap_normal.1

/-- The constants, and an integer of two digits with a top digit of one. -/
def shortHeap : Heap := [[0, 0], [1, 0], [1, 1]]

/-- `-(2 ^ 32 + 1)` needs 33 bits. -/
theorem bitLength_short : Prepared shortHeap ∧ Normal shortHeap ⟨true, 2, 2⟩ ∧
    (⟨true, 2, 2⟩ : BigInt).bitLength shortHeap = some 32 ∧
    32 ∉ widths (toInt shortHeap ⟨true, 2, 2⟩) := by
  have hvalue : toInt shortHeap ⟨true, 2, 2⟩ = -(2 ^ 32 + 1) := by decide
  refine ⟨⟨rfl, rfl⟩,
    ⟨rfl, digit_lt_of_forall (by decide), by decide, by decide, by decide, by decide, nofun⟩, rfl,
      ?_⟩
  simp [widths, hvalue]

end Dart2Wasm.BigIntImpl
