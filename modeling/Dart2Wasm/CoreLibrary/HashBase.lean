import Mathlib.Data.List.ReduceOption
import Mathlib.Data.Nat.Bitwise
import Dart2Wasm.Lib.OpenAddressing
import Dart2Wasm.Lib.Run

/-!
# HashBase — the index of the compact hash collections

`compact_hash.dart` keeps the keys of a map or a set in insertion order in `_data` and finds them
through `_index`, a list of 32-bit pairs `[ hash pattern | entry ]` that is searched by linear
probing. How many bits of a pair belong to the entry depends on the size of the index.

1. The static helpers of `_HashBase`, and the probe loop that all lookups share.
2. `Indexed`, the invariant that ties the index to the keys stored in `_data`.
3. What a probe finds in such an index, and how inserting and removing a key keep it.
-/

namespace Dart2Wasm.CompactHash

open Lib.OpenAddressing List Nat Option

variable {K : Type*}
variable {index : List UInt32} {i j size n p : Nat} {α : Type*} {k k' : K}
variable {pair : UInt32} {entries : List (Option α)} {key : K} {keys : List (Option K)}

/-- `_hashCode` and `_equals` of a collection. A hash code is a Dart integer, given by its bits. -/
structure Hashing (K : Type*) where
  hashCode : K → UInt64
  equals : K → K → Bool

/-- Equality is an equivalence, and equal keys have equal hash codes. -/
structure Hashing.Lawful (hashing : Hashing K) : Prop where
  refl : ∀ a, hashing.equals a a = true
  symm : ∀ a b, hashing.equals a b = true → hashing.equals b a = true
  trans : ∀ a b c, hashing.equals a b = true → hashing.equals b c = true →
    hashing.equals a c = true
  hashCode_eq : ∀ a b, hashing.equals a b = true → hashing.hashCode a = hashing.hashCode b

theorem Hashing.Lawful.equals_comm {hashing : Hashing K} (hlaw : hashing.Lawful) (a b : K) :
    hashing.equals a b = hashing.equals b a :=
  Bool.eq_iff_iff.2 ⟨hlaw.symm a b, hlaw.symm b a⟩

/-- Numbers, compared by value; all of them have the hash code 7. -/
def collidingNumbers : Hashing Nat where
  hashCode _ := 7
  equals a b := a == b

theorem collidingNumbers_lawful : collidingNumbers.Lawful where
  refl a := beq_self_eq_true a
  symm _ _ h := beq_iff_eq.2 (beq_iff_eq.1 h).symm
  trans _ _ _ h h' := beq_iff_eq.2 ((beq_iff_eq.1 h).trans (beq_iff_eq.1 h'))
  hashCode_eq _ _ _ := rfl

/-! ## Static members of `_HashBase` -/

def initialIndexBits : Nat := 2

def initialIndexSize : Nat := 1 <<< (initialIndexBits + 1)

def uninitializedIndexSize : Nat := 1

def uninitializedHashMask : Nat := 0

def unusedPair : UInt32 := 0

def deletedPair : UInt32 := 1

def bitLength (n : Nat) : Nat :=
  if n = 0 then 0 else n.log2 + 1

/-- `_indexSizeToHashMask`. A shift by a negative count throws. -/
def indexSizeToHashMask (has63BitSmis : Bool) (indexSize : Nat) : Option Nat :=
  if indexSize = uninitializedIndexSize then some uninitializedHashMask
  else
    let indexBits := bitLength indexSize - 2
    let pairBits := if has63BitSmis then 32 else 30
    if indexBits ≤ pairBits then some ((1 <<< (pairBits - indexBits)) - 1) else none

def hashPattern (fullHash : UInt64) (hashMask size : Nat) : Nat :=
  let maskedHash := fullHash.toNat &&& hashMask
  if maskedHash = 0 then size >>> 1 else maskedHash * (size >>> 1)

def firstProbe (fullHash : UInt64) (sizeMask : Nat) : Nat :=
  let i := fullHash.toNat &&& sizeMask
  ((i <<< 1) + i) &&& sizeMask

def nextProbe (i sizeMask : Nat) : Nat :=
  (i + 1) &&& sizeMask

def newIndex (size : Nat) : List UInt32 :=
  List.replicate size 0

/-- The index all collections share until their first insertion. -/
def uninitializedIndex : List UInt32 :=
  newIndex uninitializedIndexSize

/-- `list[i] = x` on a list of fixed length; out of range it throws. -/
def store {α : Type*} (list : List α) (i : Nat) (x : α) : Option (List α) :=
  if i < list.length then some (list.set i x) else none

/-- The first lines of `_init`: no index is allocated with less than the initial size. -/
def initialSize (has63BitSmis : Bool) (size hashMask : Nat) : Option (Nat × Nat) :=
  if size < initialIndexSize then
    (indexSizeToHashMask has63BitSmis initialIndexSize).map fun mask => (initialIndexSize, mask)
  else some (size, hashMask)

/-! ## The probe loop -/

/-- How a probe loop ends: at the slot of the key sought, or where the key would be inserted. -/
inductive ProbeEnd
  | found (i entry : Nat)
  | absent (insertionPoint : Nat)
  deriving DecidableEq

/-- The loop that every lookup runs over `_index`. `isKey` compares the key sought with that of an
entry. A loop that does not end, an index out of range and a cell without key give no result. -/
def probeLoop (index : List UInt32) (pattern : Nat) (isKey : Nat → Option Bool) :
    Nat → Nat → Option Nat → Option ProbeEnd
  | 0, _, _ => none
  | fuel + 1, i, firstDeleted =>
    match index[i]? with
    | none => none
    | some pair =>
      if pair = unusedPair then some (.absent (firstDeleted.getD i))
      else if pair = deletedPair then
        probeLoop index pattern isKey fuel (nextProbe i (index.length - 1))
          (some (firstDeleted.getD i))
      else
        let entry := pattern ^^^ pair.toNat
        if entry < index.length >>> 1 then
          match isKey entry with
          | none => none
          | some true => some (.found i entry)
          | some false =>
            probeLoop index pattern isKey fuel (nextProbe i (index.length - 1)) firstDeleted
        else probeLoop index pattern isKey fuel (nextProbe i (index.length - 1)) firstDeleted

/-- A lookup in `_index`. A loop that has seen every slot has seen all, so one round of fuel tells
whether it ends. -/
def probe (index : List UInt32) (fullHash : UInt64) (pattern : Nat) (isKey : Nat → Option Bool) :
    Option ProbeEnd :=
  probeLoop index pattern isKey index.length (firstProbe fullHash (index.length - 1)) none

variable {isKey : Nat → Option Bool}

/-- A key that was found did compare equal, and its entry came from a pair. -/
theorem probeLoop_found {pattern : Nat} {fuel start : Nat} {firstDeleted : Option Nat}
    (h : probeLoop index pattern isKey fuel start firstDeleted = some (.found i j)) :
    isKey j = some true ∧ ∃ pair : UInt32, j = pattern ^^^ pair.toNat ∧ j < index.length >>> 1 := by
  induction fuel generalizing start firstDeleted with
  | zero => cases h
  | succ fuel ih =>
    rw [probeLoop] at h
    cases hpair : index[start]? with
    | none =>
      rw [hpair] at h
      cases h
    | some pair =>
      rw [hpair] at h
      dsimp only at h
      split at h
      · cases h
      split at h
      · exact ih h
      split at h
      · rename_i hlt
        cases hkey : isKey (pattern ^^^ pair.toNat) with
        | none =>
          rw [hkey] at h
          cases h
        | some same =>
          rw [hkey] at h
          cases same with
          | true =>
            cases h
            exact ⟨hkey, pair, rfl, hlt⟩
          | false => exact ih h
      · exact ih h

/-! ## The index as a table of slots -/

def slotOf (pair : UInt32) : Slot UInt32 :=
  if pair = unusedPair then .unused else if pair = deletedPair then .deleted else .taken pair

def slots (index : List UInt32) : List (Slot UInt32) :=
  index.map slotOf

/-- The test of the probe loop on a pair that is in use. -/
def isMatch (size pattern : Nat) (isKey : Nat → Option Bool) (pair : UInt32) : Option Bool :=
  if pattern ^^^ pair.toNat < size >>> 1 then isKey (pattern ^^^ pair.toNat) else some false

def probeEnd (pattern : Nat) : Outcome UInt32 → ProbeEnd
  | .found i pair => .found i (pattern ^^^ pair.toNat)
  | .vacant i => .absent i

@[simp] theorem slots_length (index : List UInt32) : (slots index).length = index.length := by
  rw [slots, length_map]

theorem slots_getElem? (index : List UInt32) (i : Nat) :
    (slots index)[i]? = index[i]?.map slotOf := by
  rw [slots, getElem?_map]

theorem slotOf_unused : slotOf unusedPair = .unused := rfl

theorem slotOf_deleted : slotOf deletedPair = .deleted := rfl

theorem slotOf_taken (h : 2 ≤ pair.toNat) : slotOf pair = .taken pair := by
  have hne : pair ≠ unusedPair := by
    rintro rfl
    exact absurd h (by decide)
  have hne' : pair ≠ deletedPair := by
    rintro rfl
    exact absurd h (by decide)
  rw [slotOf, if_neg hne, if_neg hne']

theorem slots_set (index : List UInt32) (i : Nat) (pair : UInt32) :
    slots (index.set i pair) = (slots index).set i (slotOf pair) := by
  rw [slots, map_set, slots]

theorem slots_newIndex (size : Nat) : slots (newIndex size) = replicate size .unused := by
  rw [slots, newIndex, map_replicate]
  rfl

theorem slots_taken (h : (slots index)[i]? = some (Slot.taken pair)) : index[i]? = some pair := by
  rw [slots_getElem?] at h
  obtain ⟨pair', hpair, hslot⟩ := map_eq_some_iff.1 h
  rw [slotOf] at hslot
  split at hslot
  · cases hslot
  · split at hslot
    · cases hslot
    · cases hslot
      exact hpair

theorem and_sizeMask (h : size = 2 ^ n) (i : Nat) : i &&& (size - 1) = i % size := by
  rw [h, and_two_pow_sub_one_eq_mod]

theorem firstProbe_lt (h : size = 2 ^ n) (fullHash : UInt64) :
    firstProbe fullHash (size - 1) < size := by
  rw [firstProbe, and_sizeMask h ((_ <<< 1) + _)]
  exact Nat.mod_lt _ (by rw [h]; exact Nat.two_pow_pos n)

theorem probeLoop_eq (hsize : index.length = 2 ^ n)
    (pattern : Nat) (isKey : Nat → Option Bool) (fuel i : Nat) (firstDeleted : Option Nat) :
    probeLoop index pattern isKey fuel i firstDeleted =
      (Lib.OpenAddressing.probe (slots index) (isMatch index.length pattern isKey) fuel i
        firstDeleted).map (probeEnd pattern) := by
  induction fuel generalizing i firstDeleted with
  | zero => rfl
  | succ fuel ih =>
    have hnext : nextProbe i (index.length - 1) = (i + 1) % (slots index).length := by
      rw [nextProbe, and_sizeMask hsize, slots_length]
    rw [probeLoop, Lib.OpenAddressing.probe, slots_getElem?, ← hnext]
    cases hpair : index[i]? with
    | none => rfl
    | some pair =>
      by_cases hunused : pair = unusedPair
      · subst hunused
        simp only [if_true, map_some, slotOf_unused, probeEnd]
      by_cases hdeleted : pair = deletedPair
      · subst hdeleted
        simp only [if_neg hunused, if_true, map_some, slotOf_deleted]
        exact ih _ _
      have hslot : slotOf pair = .taken pair := by
        rw [slotOf, if_neg hunused, if_neg hdeleted]
      simp only [if_neg hunused, if_neg hdeleted, map_some, hslot, isMatch]
      split
      · cases isKey (pattern ^^^ pair.toNat) with
        | none => rfl
        | some same =>
          cases same with
          | true => rfl
          | false => exact ih _ _
      · exact ih _ _

/-! ## Pairs of pattern and entry -/

section Pairs

variable {b hashMask : Nat}

/-- A hash pattern is a positive multiple of the number of entries, and leaves room for them. -/
theorem hashPattern_eq (hb : b ≤ 31) (hmask : hashMask < 2 ^ (32 - b)) (fullHash : UInt64) :
    ∃ p, 0 < p ∧ p < 2 ^ (32 - b) ∧ hashPattern fullHash hashMask (2 ^ (b + 1)) = 2 ^ b * p := by
  have hhalf : 2 ^ (b + 1) >>> 1 = 2 ^ b := by
    rw [Nat.shiftRight_eq_div_pow, Nat.pow_succ, Nat.pow_one, Nat.mul_div_cancel _ Nat.two_pos]
  rw [hashPattern, hhalf]
  split
  · refine ⟨1, Nat.one_pos, ?_, (Nat.mul_one _).symm⟩
    exact Nat.one_lt_two_pow (by omega)
  · rename_i hne
    exact ⟨_, Nat.pos_of_ne_zero hne, Nat.lt_of_le_of_lt Nat.and_le_right hmask, mul_comm _ _⟩

/-- The pair of an entry is a 32-bit number, and neither of the two special pairs. -/
theorem pair_bounds (hb : 2 ≤ b) (hb' : b ≤ 31) (hp : 0 < p) (hp' : p < 2 ^ (32 - b))
    (hj : j < 2 ^ b) : 2 ≤ 2 ^ b * p ||| j ∧ 2 ^ b * p ||| j < 2 ^ 32 := by
  rw [← Nat.two_pow_add_eq_or_of_lt hj]
  have hfour : 2 ^ 2 ≤ 2 ^ b := Nat.pow_le_pow_right Nat.two_pos hb
  have hlow : 2 ^ b * 1 ≤ 2 ^ b * p := Nat.mul_le_mul_left _ hp
  have hhigh : 2 ^ b * (p + 1) ≤ 2 ^ b * 2 ^ (32 - b) := Nat.mul_le_mul_left _ hp'
  rw [← Nat.pow_add, Nat.add_sub_cancel' (by omega), Nat.mul_add] at hhigh
  omega

/-- A pattern combined with a pair gives an entry exactly when the patterns agree. -/
theorem xor_pair {q : Nat} (hj : j < 2 ^ b) :
    (2 ^ b * p ^^^ (2 ^ b * q ||| j) < 2 ^ b ↔ p = q) ∧
    (p = q → 2 ^ b * p ^^^ (2 ^ b * q ||| j) = j) := by
  have hpos : 0 < 2 ^ b := Nat.two_pow_pos b
  have hdiv : (2 ^ b * p ^^^ (2 ^ b * q ||| j)) / 2 ^ b = p ^^^ q := by
    rw [Nat.xor_div_two_pow, ← Nat.two_pow_add_eq_or_of_lt hj, Nat.mul_div_cancel_left _ hpos,
      mul_add_div hpos, div_eq_of_lt hj, add_zero]
  have hlt : 2 ^ b * p ^^^ (2 ^ b * q ||| j) < 2 ^ b ↔ p = q := by
    rw [← div_eq_zero_iff_lt hpos, hdiv, xor_eq_zero_iff]
  refine ⟨hlt, fun hpq => ?_⟩
  rw [← mod_eq_of_lt (hlt.2 hpq), xor_mod_two_pow, ← two_pow_add_eq_or_of_lt hj,
    mul_mod_right, mul_add_mod, zero_xor, mod_eq_of_lt hj]

theorem pair_mod (hj : j < 2 ^ b) : (2 ^ b * p ||| j) % 2 ^ b = j := by
  rw [← two_pow_add_eq_or_of_lt hj, mul_add_mod, mod_eq_of_lt hj]

/-- With an index of `2 ^ 33` pairs the pattern does not fit into a pair, and nothing is found. -/
theorem probe_of_overflow (hindex : index.length = 2 ^ 33)
    (hmask : hashMask = 0) {fullHash fullHash' : UInt64} :
    probe index fullHash (hashPattern fullHash' hashMask index.length) isKey ≠
      some (.found i j) := by
  intro hfind
  obtain ⟨-, pair, rfl, hlt⟩ := probeLoop_found hfind
  have hpattern : hashPattern fullHash' hashMask index.length = 2 ^ 32 * 1 := by
    rw [hashPattern, hmask, and_zero, if_pos rfl, hindex]
    rfl
  have hpair : pair.toNat = 2 ^ 32 * 0 ||| pair.toNat := by
    rw [mul_zero, zero_or]
  have hhalf : index.length >>> 1 = 2 ^ 32 := by
    rw [hindex]
    rfl
  rw [hpattern, hhalf, hpair, (xor_pair pair.toNat_lt).1] at hlt
  cases hlt

end Pairs

/-! ## Sizes -/

theorem initialSize_of_two_le {b : Nat} (hb : 2 ≤ b) (has63BitSmis : Bool) (hashMask : Nat) :
    initialSize has63BitSmis (2 ^ (b + 1)) hashMask = some (2 ^ (b + 1), hashMask) := by
  have hsize : 2 ^ (2 + 1) ≤ 2 ^ (b + 1) := Nat.pow_le_pow_right Nat.two_pos (by omega)
  rw [initialSize, if_neg]
  exact not_lt.2 hsize

theorem initialSize_of_lt (hsize : size < 8) (has63BitSmis : Bool) (hashMask : Nat) :
    ∃ mask < 2 ^ 30, initialSize has63BitSmis size hashMask = some (2 ^ (2 + 1), mask) := by
  rw [initialSize, if_pos (show size < initialIndexSize from hsize)]
  cases has63BitSmis with
  | false => exact ⟨2 ^ 28 - 1, by decide, rfl⟩
  | true => exact ⟨2 ^ 30 - 1, by decide, rfl⟩

/-- Doubling the index halves the mask, so that the pairs keep their 32 bits. -/
theorem mask_half_lt {b hashMask : Nat} (hmask : hashMask < 2 ^ (32 - b)) (hb : b < 31) :
    hashMask >>> 1 < 2 ^ (32 - (b + 1)) := by
  rw [show 32 - b = 32 - (b + 1) + 1 by omega, pow_succ] at hmask
  omega

/-- While a collection holds no more keys than this, its index stays within `2 ^ 32` pairs. -/
def maxKeys : Nat := 2 ^ 30

/-- A full collection below the bound has many removed entries or an index that can still grow. -/
theorem grows_of_lt_maxKeys {b live : Nat} (hfull : n = 2 ^ b) (hlive : live < maxKeys)
    {removed : Nat} (hcount : live + removed = n) : n < 2 * removed ∨ b < 31 := by
  by_contra hcon
  rw [not_or, not_lt, not_lt] at hcon
  -- the index has its greatest size and at least half of its entries are live
  have hpow : 2 ^ 31 ≤ 2 ^ b := Nat.pow_le_pow_right Nat.two_pos hcon.2
  rw [maxKeys] at hlive
  omega

theorem probe_uninitializedIndex (fullHash : UInt64) (pattern : Nat) (isKey : Nat → Option Bool) :
    probe uninitializedIndex fullHash pattern isKey = some (.absent 0) := by
  have hstart : firstProbe fullHash (uninitializedIndex.length - 1) = 0 := and_zero _
  rw [probe, hstart]
  rfl

/-! ## Lists of entries -/

theorem shiftLeft_one (n : Nat) : n <<< 1 = 2 * n := by
  rw [shiftLeft_eq, pow_one, mul_comm]

theorem shiftRight_one_double (n : Nat) : (2 * n) >>> 1 = n := by
  rw [Nat.shiftRight_eq_div_pow, Nat.pow_one, Nat.mul_div_cancel_left n Nat.two_pos]

theorem store_eq_some {l l' : List α} {x : α} (h : store l i x = some l') :
    i < l.length ∧ l' = l.set i x := by
  rw [store] at h
  split at h
  · rename_i hi
    cases h
    exact ⟨hi, rfl⟩
  · cases h

theorem reduceOption_length_add (entries : List (Option α)) :
    entries.reduceOption.length + entries.countP isNone = entries.length := by
  rw [reduceOption_length_eq, ← countP_eq_length_filter, length_eq_countP_add_countP isSome]
  congr
  funext e
  cases e <;> rfl

theorem countP_set_none {p : α} (hj : entries[j]? = some (some p)) :
    (entries.set j none).countP isNone = entries.countP isNone + 1 := by
  obtain ⟨hlt, hp⟩ := List.getElem?_eq_some_iff.1 hj
  rw [countP_set hlt, hp]
  simp

theorem countP_set_some {p q : α} (hj : entries[j]? = some (some p)) :
    (entries.set j (some q)).countP isNone = entries.countP isNone := by
  obtain ⟨hlt, hp⟩ := List.getElem?_eq_some_iff.1 hj
  rw [countP_set hlt, hp]
  simp

/-! ## Keys -/

def Distinct (hashing : Hashing K) (ks : List K) : Prop :=
  ks.Pairwise fun a b => hashing.equals a b = false

variable {hashing : Hashing K} {ks : List K}

theorem Distinct.equals_before (hlaw : hashing.Lawful) {xs ys : List K}
    (h : Distinct hashing (xs ++ k :: ys)) (heq : hashing.equals key k = true) :
    ∀ x ∈ xs, hashing.equals key x = false := by
  intro x hx
  have hne : hashing.equals x k = false := (pairwise_append.1 h).2.2 x hx k mem_cons_self
  rw [← Bool.not_eq_true]
  intro hkx
  rw [hlaw.trans x key k (hlaw.symm key x hkx) heq] at hne
  cases hne

theorem Distinct.ne_last (hlaw : hashing.Lawful) {ks' : List K}
    (h : Distinct hashing ((ks ++ [key]) ++ ks')) : ∀ k ∈ ks, hashing.equals key k = false := by
  intro k hk
  rw [hlaw.equals_comm]
  exact (pairwise_append.1 (pairwise_append.1 h).1).2.2 k hk key mem_cons_self

theorem Distinct.concat (hlaw : hashing.Lawful) (h : Distinct hashing ks)
    (hnew : ∀ k ∈ ks, hashing.equals key k = false) : Distinct hashing (ks ++ [key]) := by
  refine pairwise_append.2 ⟨h, pairwise_singleton _ _, fun k hk x hx => ?_⟩
  rw [mem_singleton.1 hx, hlaw.equals_comm]
  exact hnew k hk

theorem reduceOption_map_some (l : List α) : (l.map some).reduceOption = l := by
  rw [reduceOption, filterMap_map]
  exact filterMap_some

/-- A loop over offsets passes the removed entries and comes by the others. -/
inductive Passes (entries : List (Option α)) : List Nat → List α → Prop
  | nil : Passes entries [] []
  | removed {i : Nat} {offsets : List Nat} {rest : List α} (hi : entries[i]? = some none)
      (h : Passes entries offsets rest) : Passes entries (i :: offsets) rest
  | left {i : Nat} {offsets : List Nat} {e : α} {rest : List α} (hi : entries[i]? = some (some e))
      (h : Passes entries offsets rest) : Passes entries (i :: offsets) (e :: rest)

theorem passes_filterMap (offsets : List Nat) (h : ∀ i ∈ offsets, i < entries.length) :
    Passes entries offsets (offsets.filterMap fun i => entries[i]?.join) := by
  induction offsets with
  | nil => exact .nil
  | cons i offsets ih =>
    have ih := ih fun j hj => h j (mem_cons_of_mem _ hj)
    obtain ⟨e, hi⟩ : ∃ e, entries[i]? = some e :=
      ⟨_, getElem?_eq_getElem (h i mem_cons_self)⟩
    rw [filterMap_cons, hi]
    cases e with
    | none => exact .removed hi ih
    | some e => exact .left hi ih

theorem filterMap_range_join (entries : List (Option α)) :
    ((range entries.length).filterMap fun i => entries[i]?.join) = entries.reduceOption := by
  have hmap : (range entries.length).map (fun i => entries[i]?) = entries.map some := by
    refine ext_getElem (by simp) fun i _ _ => ?_
    simp
  have hcomp : ((range entries.length).filterMap fun i => entries[i]?.join) =
      ((range entries.length).map fun i => entries[i]?).filterMap join := by
    rw [filterMap_map]
    rfl
  rw [hcomp, hmap, filterMap_map]
  rfl

theorem passes_range (entries : List (Option α)) :
    Passes entries (range entries.length) entries.reduceOption := by
  rw [← filterMap_range_join]
  exact passes_filterMap _ fun i hi => mem_range.1 hi

theorem split_at {l : List α} {x : α} (h : l[j]? = some x) :
    ∃ pre post, l = pre ++ x :: post ∧ pre.length = j ∧
      ∀ y, l.set j y = pre ++ y :: post := by
  obtain ⟨hlt, rfl⟩ := List.getElem?_eq_some_iff.1 h
  refine ⟨l.take j, l.drop (j + 1), ?_, ?_, fun y => ?_⟩
  · rw [← drop_eq_getElem_cons hlt, take_append_drop]
  · rw [length_take]
    omega
  · rw [set_eq_take_append_cons_drop, if_pos hlt]

theorem Distinct.split_found {keyOf : α → K} {e : α} (h : Distinct hashing ks)
    (hks : entries.reduceOption.map keyOf = ks) (hlaw : hashing.Lawful)
    (hj : entries[j]? = some (some e)) (heq : hashing.equals key (keyOf e) = true) :
    ∃ l l', entries.reduceOption = l ++ e :: l' ∧
      (∀ p ∈ l, hashing.equals key (keyOf p) = false) ∧
      (∀ e', (entries.set j (some e')).reduceOption = l ++ e' :: l') ∧
      (entries.set j none).reduceOption = l ++ l' := by
  obtain ⟨pre, post, hentries, -, hset⟩ := split_at hj
  have hsplit : entries.reduceOption = pre.reduceOption ++ e :: post.reduceOption := by
    rw [hentries, reduceOption_append, reduceOption_cons_of_some]
  refine ⟨pre.reduceOption, post.reduceOption, hsplit, fun p hp => ?_, fun e' => ?_, ?_⟩
  · rw [← hks, hsplit, map_append] at h
    exact h.equals_before hlaw heq (keyOf p) (mem_map_of_mem hp)
  · rw [hset, reduceOption_append, reduceOption_cons_of_some]
  · rw [hset, reduceOption_append, reduceOption_cons_of_none]

theorem Distinct.ne_of_lt (h : Distinct hashing keys.reduceOption) (hi : keys[i]? = some (some k))
    (hj : keys[j]? = some (some k')) (hij : i < j) : hashing.equals k k' = false := by
  obtain ⟨pre, post, rfl, hlen, -⟩ := split_at hj
  rw [getElem?_append_left (by omega)] at hi
  rw [reduceOption_append, reduceOption_cons_of_some] at h
  exact (pairwise_append.1 h).2.2 k
    (reduceOption_mem_iff.2 (mem_of_getElem? hi)) k' mem_cons_self

theorem Distinct.index_eq (hlaw : hashing.Lawful) (h : Distinct hashing keys.reduceOption)
    (hi : keys[i]? = some (some k)) (hj : keys[j]? = some (some k'))
    (heq : hashing.equals k k' = true) : i = j := by
  rcases lt_trichotomy i j with hlt | hij | hgt
  · rw [h.ne_of_lt hi hj hlt] at heq
    cases heq
  · exact hij
  · rw [hlaw.equals_comm, h.ne_of_lt hj hi hgt] at heq
    cases heq

/-! ## The invariant -/

/-- The pair that `_index` holds for a key stored as entry `j`. -/
def pairOf (hashing : Hashing K) (hashMask size : Nat) (k : K) (j : Nat) : UInt32 :=
  UInt32.ofNat (hashPattern (hashing.hashCode k) hashMask size ||| j)

/-- The pairs that should be in the index: those of the entries that hold a key. -/
def LivePair (hashing : Hashing K) (hashMask size : Nat) (keys : List (Option K))
    (pair : UInt32) (home : Nat) : Prop :=
  ∃ j k, keys[j]? = some (some k) ∧ pair = pairOf hashing hashMask size k j ∧
    home = firstProbe (hashing.hashCode k) (size - 1)

/-- The index holds the entries `keys` of `_data`, with `none` for those removed. The last fields
bound the number of slots in use and say that no key is stored twice. -/
structure Indexed (hashing : Hashing K) (b : Nat) (index : List UInt32) (hashMask : Nat)
    (keys : List (Option K)) : Prop where
  size_eq : index.length = 2 ^ (b + 1)
  two_le : 2 ≤ b
  le_31 : b ≤ 31
  mask_lt : hashMask < 2 ^ (32 - b)
  keys_le : keys.length ≤ 2 ^ b
  holds : Holds (slots index) (LivePair hashing hashMask index.length keys)
  occupied_le : occupied (slots index) ≤ keys.length
  distinct : Distinct hashing keys.reduceOption

namespace Indexed

variable {hashing : Hashing K} {b hashMask : Nat} {index : List UInt32} {keys : List (Option K)}

section

variable (h : Indexed hashing b index hashMask keys)
include h

theorem entry_lt (hj : keys[j]? = some (some k)) : j < 2 ^ b :=
  lt_of_lt_of_le (List.getElem?_eq_some_iff.1 hj).1 h.keys_le

/-- A pair is stored unchanged, and marks its slot as taken. -/
theorem pairOf_spec (k : K) (hj : j < 2 ^ b) :
    (pairOf hashing hashMask index.length k j).toNat =
        hashPattern (hashing.hashCode k) hashMask index.length ||| j ∧
      slotOf (pairOf hashing hashMask index.length k j) =
        .taken (pairOf hashing hashMask index.length k j) := by
  obtain ⟨p, hp, hp', hpat⟩ := hashPattern_eq h.le_31 h.mask_lt (hashing.hashCode k)
  rw [← h.size_eq] at hpat
  have hbounds := pair_bounds h.two_le h.le_31 hp hp' hj
  have hnat : (pairOf hashing hashMask index.length k j).toNat = 2 ^ b * p ||| j := by
    rw [pairOf, hpat, UInt32.toNat_ofNat', mod_eq_of_lt hbounds.2]
  refine ⟨by rw [hnat, hpat], slotOf_taken ?_⟩
  rw [hnat]
  exact hbounds.1

theorem slots_pairOf (hj : keys[j]? = some (some k))
    (hi : index[i]? = some (pairOf hashing hashMask index.length k j)) :
    (slots index)[i]? = some (Slot.taken (pairOf hashing hashMask index.length k j)) := by
  rw [slots_getElem?, hi, map_some, (h.pairOf_spec k (h.entry_lt hj)).2]

theorem pairOf_inj {j' : Nat} (hj : j < 2 ^ b) (hj' : j' < 2 ^ b)
    (heq : pairOf hashing hashMask index.length k j = pairOf hashing hashMask index.length k' j') :
    j = j' := by
  have hnat := congrArg UInt32.toNat heq
  rw [(h.pairOf_spec k hj).1, (h.pairOf_spec k' hj').1] at hnat
  obtain ⟨p, -, -, hp⟩ := hashPattern_eq h.le_31 h.mask_lt (hashing.hashCode k)
  obtain ⟨q, -, -, hq⟩ := hashPattern_eq h.le_31 h.mask_lt (hashing.hashCode k')
  rw [h.size_eq, hp, hq] at hnat
  rw [← pair_mod (p := p) hj, hnat, pair_mod hj']

theorem isMatch_pairOf (hlaw : hashing.Lawful) (hj : keys[j]? = some (some k))
    (hisKey : isKey j = some (hashing.equals key k)) :
    isMatch index.length (hashPattern (hashing.hashCode key) hashMask index.length) isKey
        (pairOf hashing hashMask index.length k j) = some (hashing.equals key k) ∧
      (hashing.equals key k = true →
        hashPattern (hashing.hashCode key) hashMask index.length ^^^
          (pairOf hashing hashMask index.length k j).toNat = j) := by
  have hlt := h.entry_lt hj
  obtain ⟨p, -, -, hp⟩ := hashPattern_eq h.le_31 h.mask_lt (hashing.hashCode key)
  obtain ⟨q, -, -, hq⟩ := hashPattern_eq h.le_31 h.mask_lt (hashing.hashCode k)
  have hhalf : index.length >>> 1 = 2 ^ b := by
    rw [h.size_eq, shiftRight_eq_div_pow, pow_succ, pow_one, Nat.mul_div_cancel _ Nat.two_pos]
  rw [← h.size_eq] at hp hq
  have hxor := xor_pair (p := p) (q := q) hlt
  rw [isMatch, (h.pairOf_spec k hlt).1, hhalf, hp, hq]
  by_cases hpq : p = q
  · rw [if_pos (hxor.1.2 hpq), hxor.2 hpq]
    exact ⟨hisKey, fun _ => rfl⟩
  -- equal keys have equal patterns
  have hne : hashing.equals key k = false := by
    rw [← Bool.not_eq_true]
    intro heq
    rw [hlaw.hashCode_eq key k heq] at hp
    have : 2 ^ b * p = 2 ^ b * q := hp.symm.trans hq
    exact hpq (Nat.eq_of_mul_eq_mul_left (Nat.two_pow_pos b) this)
  rw [if_neg (fun hcon => hpq (hxor.1.1 hcon)), hne]
  exact ⟨rfl, fun hcon => by cases hcon⟩

theorem exists_unused : ∃ i : Nat, (slots index)[i]? = some Slot.unused := by
  refine Lib.OpenAddressing.exists_unused ?_
  have := h.occupied_le
  have := h.keys_le
  have := Nat.two_pow_pos b
  rw [slots_length, h.size_eq, Nat.pow_succ]
  omega

/-- What a lookup finds: the entry of an equal key and the slot of its pair, or, without an equal
key, a slot where it can be inserted. So the probe loop ends. -/
theorem probe_cases (hlaw : hashing.Lawful) (key : K)
    (hisKey : ∀ (j : Nat) k, keys[j]? = some (some k) → isKey j = some (hashing.equals key k)) :
    (∃ i j k, probe index (hashing.hashCode key)
        (hashPattern (hashing.hashCode key) hashMask index.length) isKey = some (.found i j) ∧
      keys[j]? = some (some k) ∧ hashing.equals key k = true ∧
      index[i]? = some (pairOf hashing hashMask index.length k j)) ∨
    (∃ i, probe index (hashing.hashCode key)
        (hashPattern (hashing.hashCode key) hashMask index.length) isKey = some (.absent i) ∧
      Free (slots index) i ∧
      Reaches (slots index) (firstProbe (hashing.hashCode key) (index.length - 1)) i ∧
      ∀ k ∈ keys.reduceOption, hashing.equals key k = false) := by
  have hstart : firstProbe (hashing.hashCode key) (index.length - 1) < (slots index).length := by
    rw [slots_length]
    exact firstProbe_lt h.size_eq _
  have hcases := h.holds.probe_cases h.exists_unused hstart
    (isMatch index.length (hashPattern (hashing.hashCode key) hashMask index.length) isKey)
    (by
      rintro pair home ⟨j, k, hj, rfl, rfl⟩
      rw [(h.isMatch_pairOf hlaw hj (hisKey j k hj)).1]
      simp)
    (by
      rintro pair home ⟨j, k, hj, rfl, rfl⟩ htrue
      rw [(h.isMatch_pairOf hlaw hj (hisKey j k hj)).1] at htrue
      rw [hlaw.hashCode_eq key k (by simpa using htrue)])
    index.length (by rw [slots_length])
  rw [probe, probeLoop_eq h.size_eq]
  rcases hcases with ⟨i, pair, hprobe, htaken, htrue⟩ | ⟨i, hprobe, hfree, hreach, hfalse⟩
  · obtain ⟨home, j, k, hj, rfl, -⟩ := h.holds.taken_live i pair htaken
    have hmatch := h.isMatch_pairOf hlaw hj (hisKey j k hj)
    have heq : hashing.equals key k = true := by
      rw [hmatch.1] at htrue
      simpa using htrue
    refine .inl ⟨i, j, k, ?_, hj, heq, slots_taken htaken⟩
    rw [hprobe, map_some, probeEnd, hmatch.2 heq]
  · refine .inr ⟨i, by rw [hprobe, map_some, probeEnd], hfree, hreach, fun k hk => ?_⟩
    obtain ⟨j, hj⟩ := mem_iff_getElem?.1 (reduceOption_mem_iff.1 hk)
    have := hfalse _ _ ⟨j, k, hj, rfl, rfl⟩
    rw [(h.isMatch_pairOf hlaw hj (hisKey j k hj)).1] at this
    simpa using this

end

theorem empty (hashing : Hashing K) (hb : 2 ≤ b) (hb' : b ≤ 31) (hmask : hashMask < 2 ^ (32 - b)) :
    Indexed hashing b (newIndex (2 ^ (b + 1))) hashMask [] where
  size_eq := length_replicate
  two_le := hb
  le_31 := hb'
  mask_lt := hmask
  keys_le := zero_le _
  holds := by
    rw [slots_newIndex]
    exact (Holds.empty _).congr fun pair home => by simp [LivePair]
  occupied_le := by
    rw [slots_newIndex, occupied, countP_replicate, if_neg (by simp [Slot.isOccupied])]
    exact zero_le _
  distinct := List.Pairwise.nil

theorem concat_cases (h : (keys ++ [some key])[j]? = some (some k)) :
    keys[j]? = some (some k) ∨ j = keys.length ∧ k = key := by
  rcases lt_trichotomy j keys.length with hlt | rfl | hgt
  · rw [getElem?_append_left hlt] at h
    exact .inl h
  · rw [getElem?_concat_length] at h
    cases h
    exact .inr ⟨rfl, rfl⟩
  · rw [getElem?_eq_none (by simp; omega)] at h
    cases h

theorem insert (h : Indexed hashing b index hashMask keys) (hlaw : hashing.Lawful)
    (hroom : keys.length < 2 ^ b) (hfree : Free (slots index) i)
    (hreach : Reaches (slots index) (firstProbe (hashing.hashCode key) (index.length - 1)) i)
    (hnew : ∀ k ∈ keys.reduceOption, hashing.equals key k = false) :
    Indexed hashing b (index.set i (pairOf hashing hashMask index.length key keys.length)) hashMask
      (keys ++ [some key]) where
  size_eq := by rw [length_set, h.size_eq]
  two_le := h.two_le
  le_31 := h.le_31
  mask_lt := h.mask_lt
  keys_le := by
    rw [length_append, length_singleton]
    exact hroom
  holds := by
    rw [slots_set, length_set, (h.pairOf_spec key hroom).2]
    refine (h.holds.take hfree hreach ?_).congr fun pair home => ?_
    · rintro home ⟨j, k, hj, heq, -⟩
      have := h.pairOf_inj hroom (h.entry_lt hj) heq
      have := (List.getElem?_eq_some_iff.1 hj).1
      omega
    · constructor
      · rintro (⟨j, k, hj, hpair, hhome⟩ | ⟨rfl, rfl⟩)
        · refine ⟨j, k, ?_, hpair, hhome⟩
          rw [List.getElem?_append_left (List.getElem?_eq_some_iff.1 hj).1, hj]
        · exact ⟨keys.length, key, getElem?_concat_length, rfl, rfl⟩
      · rintro ⟨j, k, hj, rfl, rfl⟩
        rcases concat_cases hj with hold | ⟨rfl, rfl⟩
        · exact .inl ⟨j, k, hold, rfl, rfl⟩
        · exact .inr ⟨rfl, rfl⟩
  occupied_le := by
    rw [slots_set, length_append, length_singleton]
    exact (occupied_set_le _ _ _).trans (succ_le_succ h.occupied_le)
  distinct := by
    rw [reduceOption_append, reduceOption_singleton]
    exact h.distinct.concat hlaw hnew

theorem remove (h : Indexed hashing b index hashMask keys) (hj : keys[j]? = some (some k))
    (hi : index[i]? = some (pairOf hashing hashMask index.length k j)) :
    Indexed hashing b (index.set i deletedPair) hashMask (keys.set j none) where
  size_eq := by rw [length_set, h.size_eq]
  two_le := h.two_le
  le_31 := h.le_31
  mask_lt := h.mask_lt
  keys_le := by
    rw [length_set]
    exact h.keys_le
  holds := by
    rw [slots_set, length_set, slotOf_deleted]
    refine (h.holds.delete (h.slots_pairOf hj hi)).congr fun pair home => ?_
    constructor
    · rintro ⟨⟨j', k', hj', rfl, rfl⟩, hne⟩
      refine ⟨j', k', ?_, rfl, rfl⟩
      rw [getElem?_set_ne, hj']
      rintro rfl
      rw [hj] at hj'
      cases hj'
      exact hne rfl
    · rintro ⟨j', k', hj', rfl, rfl⟩
      by_cases hjj : j = j'
      · subst hjj
        rw [List.getElem?_set_self (List.getElem?_eq_some_iff.1 hj).1] at hj'
        cases hj'
      · rw [getElem?_set_ne hjj] at hj'
        refine ⟨⟨j', k', hj', rfl, rfl⟩, fun heq => hjj ?_⟩
        exact (h.pairOf_inj (h.entry_lt hj') (h.entry_lt hj) heq).symm
  occupied_le := by
    rw [slots_set, length_set]
    exact (occupied_set_of_occupied (h.slots_pairOf hj hi) rfl _).trans h.occupied_le
  distinct := by
    obtain ⟨pre, post, hkeys, -, hset⟩ := split_at hj
    have hdistinct := h.distinct
    rw [hkeys, reduceOption_append, reduceOption_cons_of_some] at hdistinct
    rw [hset, reduceOption_append, reduceOption_cons_of_none]
    refine List.Pairwise.sublist ?_ hdistinct
    exact (List.Sublist.refl _).append (sublist_cons_self _ _)

end Indexed

end Dart2Wasm.CompactHash
