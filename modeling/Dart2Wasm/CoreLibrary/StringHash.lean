/-!
# StringHash — the hash codes of strings

`string_patch.dart` computes the hash code of a string in 64-bit integers and masks only some of the
intermediate results; the VM (`runtime/vm/hash.h`) computes it in 32-bit ones. The lower halves of
the two accumulators agree after every code unit.
-/

namespace Dart2Wasm.StringBase

open List

/-- A string in one of its two representations -/
inductive Str
  | oneByte (array : List (BitVec 8))
  | twoByte (array : List (BitVec 16))
  deriving DecidableEq

/-- The code units, each as `readUnsigned` returns it -/
def Str.codeUnits : Str → List (BitVec 64)
  | .oneByte array => array.map (·.setWidth 64)
  | .twoByte array => array.map (·.setWidth 64)

def combineHashes (hash otherHash : BitVec 64) : BitVec 64 :=
  let hash := hash + otherHash
  let hash := hash + hash <<< 10
  hash ^^^ (hash &&& 0xFFFFFFFF) >>> 6

def finalizeHash (hash : BitVec 64) : BitVec 64 :=
  let hash := hash + hash <<< 3
  let hash := hash ^^^ (hash &&& 0xFFFFFFFF) >>> 11
  let hash := hash + hash <<< 15
  let hash := hash &&& 0x3FFFFFFF
  if hash = 0 then 1 else hash

/-- `_computeHashCode` of the class of the string -/
def Str.computeHashCode : Str → BitVec 64
  | .oneByte array =>
    finalizeHash (array.foldl (fun hash unit => combineHashes hash (unit.setWidth 64)) 0)
  | .twoByte array =>
    finalizeHash (array.foldl (fun hash unit => combineHashes hash (unit.setWidth 64)) 0)

/-- `==`; `identical` strings have the same contents. -/
def Str.equals (s t : Str) : Bool :=
  s == t || s.codeUnits.length == t.codeUnits.length &&
    (List.range s.codeUnits.length).all fun i => s.codeUnits[i]? == t.codeUnits[i]?

namespace VM

/-- `CombineHashes` of the VM -/
def combineHashes (hash otherHash : BitVec 32) : BitVec 32 :=
  let hash := hash + otherHash
  let hash := hash + hash <<< 10
  hash ^^^ hash >>> 6

/-- `FinalizeHash` of the VM, whose mask has the width of a word -/
def finalizeHash (hash : BitVec 32) (hashbits : Nat) : BitVec 32 :=
  let hash := hash + hash <<< 3
  let hash := hash ^^^ hash >>> 11
  let hash := hash + hash <<< 15
  let hash := hash &&& (1#64 <<< hashbits - 1).setWidth 32
  if hash = 0 then 1 else hash

/-- The hash of a string of the VM, which has 30 bits -/
def hash (units : List (BitVec 32)) : BitVec 32 := finalizeHash (units.foldl combineHashes 0) 30

end VM

theorem setWidth_add_shiftLeft (x : BitVec 64) (n : Nat) :
    (x + x <<< n).setWidth 32 = x.setWidth 32 + x.setWidth 32 <<< n := by
  rw [BitVec.setWidth_add _ _ (by decide), BitVec.setWidth_shiftLeft_of_le (by decide)]

theorem setWidth_xor_shiftRight (x : BitVec 64) (n : Nat) :
    (x ^^^ (x &&& 0xFFFFFFFF) >>> n).setWidth 32 = x.setWidth 32 ^^^ x.setWidth 32 >>> n := by
  have hmask : (x &&& 0xFFFFFFFF).toNat = x.toNat % 2 ^ 32 :=
    (BitVec.toNat_and ..).trans (Nat.and_two_pow_sub_one_eq_mod _ 32)
  rw [BitVec.setWidth_xor]
  congr 1
  apply BitVec.eq_of_toNat_eq
  simp only [BitVec.toNat_setWidth, BitVec.toNat_ushiftRight, hmask]
  exact Nat.mod_eq_of_lt (Nat.lt_of_le_of_lt (Nat.shiftRight_le ..) (Nat.mod_lt _ (by decide)))

theorem setWidth_combineHashes (hash otherHash : BitVec 64) :
    (combineHashes hash otherHash).setWidth 32 =
      VM.combineHashes (hash.setWidth 32) (otherHash.setWidth 32) := by
  rw [combineHashes, setWidth_xor_shiftRight, setWidth_add_shiftLeft,
    BitVec.setWidth_add _ _ (by decide), VM.combineHashes]

theorem finalizeHash_eq (hash : BitVec 64) :
    finalizeHash hash = (VM.finalizeHash (hash.setWidth 32) 30).setWidth 64 := by
  have hmask (x : BitVec 64) : x &&& (0x3FFFFFFF : BitVec 64) =
      (x.setWidth 32 &&& (1#64 <<< 30 - 1).setWidth 32).setWidth 64 := by
    apply BitVec.eq_of_toNat_eq
    rw [BitVec.toNat_setWidth_of_le (by decide), BitVec.toNat_and, BitVec.toNat_and,
      BitVec.toNat_setWidth]
    show x.toNat &&& (2 ^ 30 - 1) = x.toNat % 2 ^ 32 &&& (2 ^ 30 - 1)
    rw [Nat.and_two_pow_sub_one_eq_mod, Nat.and_two_pow_sub_one_eq_mod, Nat.mod_mod_of_dvd]
    decide
  have hzero (x : BitVec 32) : (if x.setWidth 64 = 0 then 1 else x.setWidth 64) =
      (if x = 0 then (1 : BitVec 32) else x).setWidth 64 := by
    by_cases h : x = 0
    · rw [h]
      rfl
    · rw [if_neg h, if_neg fun h' => h ?_]
      have := congrArg (BitVec.setWidth 32) h'
      simpa using this
  rw [finalizeHash, VM.finalizeHash, hmask, setWidth_add_shiftLeft, setWidth_xor_shiftRight,
    setWidth_add_shiftLeft, hzero]

/-- After every code unit the lower half of the accumulator is the accumulator of the VM. -/
theorem setWidth_foldl (units : List (BitVec 64)) (hash : BitVec 64) :
    (units.foldl combineHashes hash).setWidth 32 =
      (units.map (·.setWidth 32)).foldl VM.combineHashes (hash.setWidth 32) := by
  induction units generalizing hash with
  | nil => rfl
  | cons unit units ih =>
    rw [foldl_cons, ih, setWidth_combineHashes, map_cons, foldl_cons]

theorem Str.codeUnits_of_equals {s t : Str} (h : s.equals t = true) :
    s.codeUnits = t.codeUnits := by
  simp only [equals, Bool.or_eq_true, Bool.and_eq_true, beq_iff_eq, all_eq_true, mem_range] at h
  rcases h with rfl | ⟨hlength, hunits⟩
  · rfl
  · apply ext_getElem?
    intro i
    by_cases hi : i < s.codeUnits.length
    · exact hunits i hi
    · rw [getElem?_eq_none, getElem?_eq_none] <;> omega

/-- Both classes hash the code units. -/
theorem Str.computeHashCode_eq (s : Str) :
    s.computeHashCode = finalizeHash (s.codeUnits.foldl combineHashes 0) := by
  cases s with
  | oneByte array => rw [computeHashCode, codeUnits, foldl_map]
  | twoByte array => rw [computeHashCode, codeUnits, foldl_map]

theorem Str.computeHashCode_agrees (s : Str) :
    s.computeHashCode = (VM.hash (s.codeUnits.map (·.setWidth 32))).setWidth 64 ∧
    s.computeHashCode ≠ 0 ∧
    (∀ t : Str, t.codeUnits = s.codeUnits → t.computeHashCode = s.computeHashCode) ∧
    ∀ t : Str, s.equals t = true → s.computeHashCode = t.computeHashCode := by
  refine ⟨?_, ?_, fun t h => ?_, fun t h => ?_⟩
  · rw [computeHashCode_eq, finalizeHash_eq, setWidth_foldl]
    rfl
  · rw [computeHashCode_eq, finalizeHash]
    split
    · decide
    · assumption
  · rw [computeHashCode_eq, h, computeHashCode_eq]
  · rw [computeHashCode_eq, codeUnits_of_equals h, computeHashCode_eq]

end Dart2Wasm.StringBase
