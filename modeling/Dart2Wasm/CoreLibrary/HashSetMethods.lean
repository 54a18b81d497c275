import Dart2Wasm.CoreLibrary.HashSet

/-!
# HashSetMethods — the methods of a set against a list without duplicates

What a set stands for is the list of the entries that are left, and every method does to that list
what the methods of a list without duplicates do.
-/

namespace Dart2Wasm.CompactHash.LinkedHashSet

open Lib.OpenAddressing Lib LinkedHashSet List Nat Option

variable {K : Type} {hashing : Hashing K} {b : Nat} {m : Fields K} {entries : List (Option K)}
  {spare : Nat}
variable {l source : List K} {k : K} {j mask : Nat}
variable {key : K}

/-! ## Lists without duplicates -/

def findElement (hashing : Hashing K) (key : K) (l : List K) : Option K :=
  l.find? (hashing.equals key)

/-- A new element goes to the end; an element that has an equal one is not added. -/
def addElement (hashing : Hashing K) (l : List K) (key : K) : List K :=
  if (findElement hashing key l).isSome then l else l ++ [key]

def eraseElement (hashing : Hashing K) (key : K) (l : List K) : List K :=
  l.eraseP (hashing.equals key)

section

variable (h : ∀ x ∈ l, hashing.equals key x = false)
include h

theorem findElement_absent : findElement hashing key l = none :=
  find?_eq_none.2 fun x hx => by simp [h x hx]

theorem findElement_present {l' : List K} (heq : hashing.equals key k = true) :
    findElement hashing key (l ++ k :: l') = some k := by
  rw [findElement, find?_append, show l.find? (hashing.equals key) = none from
    findElement_absent h, none_or, find?_cons_of_pos heq]

theorem addElement_absent : addElement hashing l key = l ++ [key] := by
  rw [addElement, findElement_absent h]
  rfl

end

theorem addElement_present (h : findElement hashing key l = some k) :
    addElement hashing l key = l := by
  rw [addElement, h]
  rfl

theorem length_le_addElement (l : List K) (key : K) :
    l.length ≤ (addElement hashing l key).length := by
  rw [addElement]
  split
  · exact le_refl _
  · rw [length_append]
    exact le_add_right _ _

/-! ## Methods that search for an element -/

@[simp]
theorem keyOf_eq (k : K) : kind.keyOf k = k :=
  rfl

theorem used_eq (h : Layout kind m entries spare) : m.usedData = entries.length :=
  h.used_eq.trans (Nat.one_mul _)

theorem entry_cell (h : Layout kind m entries spare) {e : Option K} (hj : entries[j]? = some e) :
    m.data[j]? = some (cell e) := by
  obtain ⟨pre, post, hdata, hpre, -⟩ := h.split hj
  rw [hdata, ← show pre.length = j from hpre.trans (Nat.one_mul j)]
  simp [kind]

theorem puts_add (has63BitSmis : Bool) (hashing : Hashing K) :
    kind.Puts has63BitSmis hashing
      fun depth m key => (add has63BitSmis hashing depth m key).map Prod.fst where
  zero _ _ := rfl
  none depth m key h := by
    rw [add, show kind.find hashing m key = none from h]
    rfl
  absent depth m key i h := by
    rw [add, show kind.find hashing m key = some (.absent i) from h]
    exact (Option.map_map _ _ _).trans (congrFun Option.map_id _)
  found depth m key i j m' h hadd := by
    rw [add, show kind.find hashing m key = some (.found i j) from h] at hadd
    cases hadd
    exact ⟨m.data, rfl, rfl⟩

theorem add_absent (h : kind.find hashing m key = some (.absent i)) {has63BitSmis : Bool}
    {depth : Nat} {m' : Fields K}
    (hadd : (add has63BitSmis hashing (depth + 1) m key).map Prod.fst = some m') :
    add has63BitSmis hashing (depth + 1) m key = some (m', true) := by
  rw [add, h] at hadd ⊢
  obtain ⟨_, hinsert, rfl⟩ := map_eq_some_iff.1 hadd
  obtain ⟨m'', hinsert, rfl⟩ := map_eq_some_iff.1 hinsert
  simp only [hinsert]

section Lawful

variable (hlaw : hashing.Lawful) (h : Valid kind hashing m entries)
include hlaw h

theorem valid_add (has63BitSmis : Bool) (depth : Nat) (key : K)
    (hcap : (addElement hashing entries.reduceOption key).length ≤ maxKeys) :
    ∃ m' entries', add has63BitSmis hashing (depth + 2) m key =
        some (m', (findElement hashing key entries.reduceOption).isNone) ∧
      Valid kind hashing m' entries' ∧
      entries'.reduceOption = addElement hashing entries.reduceOption key := by
  rcases h.find_cases hlaw key with
    ⟨i, j, k, b, l, l', hfind, -, -, heq, -, hsplit, hbefore, -⟩ | ⟨i, hfind, hnew⟩
  · have hfound : findElement hashing key entries.reduceOption = some k := by
      rw [hsplit, findElement_present hbefore (k := k) heq]
    refine ⟨m, entries, ?_, h, (addElement_present hfound).symm⟩
    rw [add, hfind, hfound]
    rfl
  · rw [addElement_absent hnew] at hcap ⊢
    obtain ⟨m', entries', hadd, hm', hlive⟩ :=
      h.put_new (puts_add has63BitSmis hashing) hlaw depth hnew hcap
    refine ⟨m', entries', ?_, hm', hlive⟩
    rw [add_absent hfind hadd, findElement_absent hnew]
    rfl

theorem valid_add_self (has63BitSmis : Bool) (depth : Nat) (hmem : k ∈ entries.reduceOption) :
    add has63BitSmis hashing (depth + 1) m k = some (m, false) := by
  rcases h.find_cases hlaw k with ⟨i, j, _, _, _, _, hfind, -⟩ | ⟨i, -, hnew⟩
  · rw [add, hfind]
  · have := hnew _ hmem
    rw [keyOf_eq, hlaw.refl] at this
    cases this

theorem valid_getKeyOrData (key : K) :
    getKeyOrData hashing m key = some (findElement hashing key entries.reduceOption) := by
  rw [getKeyOrData]
  rcases h.find_cases hlaw key with
    ⟨i, j, k, b, l, l', hfind, hsound, hj, heq, -, hsplit, hbefore, -⟩ | ⟨i, hfind, hnew⟩
  · rw [hfind, hsplit, findElement_present hbefore (k := k) heq]
    simp only [elementAt, entry_cell hsound.layout hj, cell, map_some]
  · rw [hfind, findElement_absent hnew]

theorem valid_remove (key : K) :
    ∃ m' entries', remove hashing m key =
        some (m', (findElement hashing key entries.reduceOption).isSome) ∧
      Valid kind hashing m' entries' ∧
      entries'.reduceOption = eraseElement hashing key entries.reduceOption := by
  rcases h.find_cases hlaw key with
    ⟨i, j, k, b, l, l', hfind, hsound, hj, heq, hi, hsplit, hbefore, -, herased⟩ |
    ⟨i, hfind, hnew⟩
  · obtain ⟨pre, post, hindex, hdata, hpre, hremoved⟩ := hsound.remove hj hi
    have hstore : store m.data j .deleted = some (pre ++ (kind.cells none ++ post)) := by
      rw [hdata, ← show pre.length = j from hpre.trans (Nat.one_mul j)]
      exact store_append ..
    refine ⟨_, entries.set j none, ?_, .inr ⟨b, hremoved⟩, ?_⟩
    · rw [hsplit, findElement_present hbefore (k := k) heq, remove, hfind]
      simp only [hindex, hstore, some_bind]
      rfl
    · rw [herased, hsplit, eraseElement,
        eraseP_append_right _ fun x hx => by simpa using hbefore x hx,
          eraseP_cons_of_pos (a := k) heq]
  · refine ⟨m, entries, ?_, h, (eraseP_of_forall_not fun x hx => by simpa using hnew x hx).symm⟩
    rw [remove, hfind, findElement_absent hnew]
    rfl

omit h in
theorem add_putsInto (has63BitSmis : Bool) (depth : Nat) :
    kind.PutsInto hashing (fun m key => (add has63BitSmis hashing (depth + 2) m key).map Prod.fst)
      (addElement hashing) where
  absent _ _ h := addElement_absent h
  self l k _ hk := by
    have hsome : (findElement hashing k l).isSome = true := by
      rw [findElement, find?_isSome]
      exact ⟨k, hk, hlaw.refl k⟩
    rw [addElement, if_pos hsome]
  length_le := length_le_addElement
  valid _ _ k h hcap := by
    obtain ⟨m', entries', hadd, hvalid, hl⟩ := valid_add hlaw h has63BitSmis depth k hcap
    exact ⟨m', entries', map_eq_some_iff.2 ⟨_, hadd, rfl⟩, hvalid, hl⟩
  valid_self m _ _ h hk :=
    ⟨m, map_eq_some_iff.2 ⟨_, valid_add_self hlaw h has63BitSmis (depth + 1) hk, rfl⟩, h, rfl, rfl⟩

end Lawful

theorem valid_distinct (h : Valid kind hashing m entries) :
    Distinct hashing entries.reduceOption := by
  simpa [funext keyOf_eq] using h.distinct

/-! ## The ends and the iteration -/

section

variable (h : Layout kind m entries spare)
include h

theorem endLoop_eq {offsets : List Nat} {rest : List K}
    (hpasses : Passes entries offsets rest) : endLoop m.data offsets = some rest.head? := by
  induction hpasses with
  | removed hi _ ih =>
    rw [endLoop, entry_cell h hi]
    exact ih
  | left hi =>
    rw [endLoop, entry_cell h hi]
    rfl
  | nil => rfl

theorem layout_first : first m = some entries.reduceOption.head? := by
  rw [first, used_eq h, endLoop_eq h (passes_range entries)]

theorem layout_last : last m = some entries.reduceOption.getLast? := by
  rw [last, used_eq h,
    endLoop_eq h (passes_filterMap _ fun i hi => mem_range.1 (mem_reverse.1 hi)),
    filterMap_reverse, filterMap_range_join, head?_reverse]

end

theorem forIn_traverses {σ : Type} : (kind (K := K)).Traverses (LinkedHashSet.forIn (σ := σ)) := by
  intro table action entries dataId sum I s htable haction hstart
  have hunmodified : ∀ {m : Fields K}, m.dataId = dataId → checkSum m = sum →
      isModifiedSince m dataId sum = false := by
    intro m hid hsum
    rw [isModifiedSince, hid, hsum]
    simp
  have hloop : ∀ {offsets : List Nat} {rest : List K}, Passes entries offsets rest →
      ∀ done s, entries.reduceOption = done ++ rest → I done s →
        ∃ s', iterLoop table action dataId sum offsets s = some (s', false) ∧
          I entries.reduceOption s' := by
    intro offsets rest hpasses done s hdone hI
    induction hpasses generalizing done s with
    | nil =>
      obtain ⟨m, spare, hm, -, hid, hsum⟩ := htable _ s hI
      rw [append_nil] at hdone
      refine ⟨s, ?_, hdone ▸ hI⟩
      rw [iterLoop, hm]
      simp only [some_bind, hunmodified hid hsum]
    | removed hi _ ih =>
      obtain ⟨m, spare, hm, hlayout, hid, hsum⟩ := htable _ s hI
      rw [iterLoop, hm]
      simp only [some_bind, hunmodified hid hsum, entry_cell hlayout hi]
      exact ih done s hdone hI
    | @left i offsets k rest hi _ ih =>
      obtain ⟨m, spare, hm, hlayout, hid, hsum⟩ := htable _ s hI
      obtain ⟨s₁, hact, hI₁⟩ := haction _ k rest s hdone hI
      rw [iterLoop, hm]
      simp only [some_bind, hunmodified hid hsum, entry_cell hlayout hi, cell, hact]
      exact ih _ s₁ (hdone.trans (append_cons ..)) hI₁
  obtain ⟨m, spare, hm, hlayout, hid, hsum⟩ := htable _ s hstart
  rw [LinkedHashSet.forIn, hm]
  simp only [some_bind]
  rw [used_eq hlayout, hid, hsum]
  exact hloop (passes_range entries) [] s rfl hstart

theorem layout_elements (h : Layout kind m entries spare) :
    elements m = some entries.reduceOption := by
  obtain ⟨seen, hloop, rfl⟩ := forIn_traverses (fun _ : List K => some m)
    (fun seen k => some (seen ++ [k])) entries m.dataId (checkSum m)
    (fun done seen => seen = done) [] (fun _ _ _ => ⟨m, spare, rfl, h, rfl, rfl⟩)
    (fun done k rest seen _ hI => ⟨_, rfl, by rw [hI]⟩) rfl
  rw [elements, hloop]
  rfl

/-! ## Regenerating the index -/

theorem or_shiftRight_ones (n k : Nat) : (2 ^ n - 1) ||| ((2 ^ n - 1) >>> k) = 2 ^ n - 1 := by
  refine eq_of_testBit_eq fun i => ?_
  rw [testBit_or, testBit_shiftRight, testBit_two_pow_sub_one, testBit_two_pow_sub_one]
  by_cases hi : i < n
  · simp [hi]
  · simp [hi, show ¬ k + i < n by omega]

theorem roundUpToPowerOfTwo_two_pow (n : Nat) : roundUpToPowerOfTwo (2 ^ n) = 2 ^ n := by
  have hpos := Nat.two_pow_pos n
  simp only [roundUpToPowerOfTwo, or_shiftRight_ones]
  omega

theorem indexSizeToHashMask_two_pow {b : Nat} (hb : b ≤ 30) (has63BitSmis : Bool) :
    ∃ mask < 2 ^ (32 - b), indexSizeToHashMask has63BitSmis (2 ^ (b + 1)) = some mask := by
  have hne : ¬ 2 ^ (b + 1) = uninitializedIndexSize := by
    have : 1 < 2 ^ (b + 1) := Nat.one_lt_two_pow (by omega)
    exact fun hone => absurd this (by rw [hone]; decide)
  have hbits : bitLength (2 ^ (b + 1)) - 2 = b := by
    rw [bitLength, if_neg (Nat.two_pow_pos _).ne', Nat.log2_two_pow]
    omega
  rw [indexSizeToHashMask, if_neg hne, hbits]
  have hpos := Nat.two_pow_pos (32 - b)
  cases has63BitSmis with
  | false =>
    refine ⟨2 ^ (30 - b) - 1, ?_, ?_⟩
    · have : 2 ^ (30 - b) ≤ 2 ^ (32 - b) := Nat.pow_le_pow_right Nat.two_pos (by omega)
      omega
    · simp [hb, Nat.one_shiftLeft]
  | true =>
    refine ⟨2 ^ (32 - b) - 1, by omega, ?_⟩
    simp [show b ≤ 32 by omega, Nat.one_shiftLeft]

theorem valid_regenerateIndex (h : Valid kind hashing m entries) (hlaw : hashing.Lawful)
    (has63BitSmis : Bool) (depth : Nat) :
    ∃ m' entries', regenerateIndex has63BitSmis hashing (depth + 1) m = some m' ∧
      Valid kind hashing m' entries' ∧ entries'.reduceOption = entries.reduceOption := by
  rcases h with ⟨hfresh, rfl⟩ | ⟨b, hsound⟩
  · have hlen : m.data.length = 0 := hfresh.layout.length_data
    have hfresh' : Fresh kind { m with
        index := uninitializedIndex, hashMask := uninitializedHashMask } :=
      ⟨{ hfresh.layout with
          index_length := .inl ⟨rfl, length_eq_zero_iff.1 hlen⟩
          shared_empty := fun _ => ⟨rfl, rfl, length_eq_zero_iff.1 hlen⟩ }, rfl⟩
    obtain ⟨m', hrehash, hm'⟩ := hfresh'.rehash hashing has63BitSmis
      fun m key => (add has63BitSmis hashing (depth + 1) m key).map Prod.fst
    refine ⟨m', [], ?_, .inr ⟨2, hm'⟩, rfl⟩
    rw [regenerateIndex]
    simp only [if_pos hlen]
    exact hrehash
  · have htwo := hsound.indexed.two_le
    have h31 := hsound.indexed.le_31
    have hkeys := hsound.length_le
    have hlen : m.data.length = 2 ^ b := by
      rw [hsound.layout.length_data, Nat.add_sub_cancel' hkeys]
      exact Nat.one_mul _
    -- the new index is as long as `_data`, but not shorter than eight pairs
    obtain ⟨c, hc, hc', hbc, hmax⟩ : ∃ c, 2 ≤ c ∧ c ≤ 30 ∧ b ≤ c + 1 ∧
        max m.data.length initialIndexSize = 2 ^ (c + 1) := by
      rcases lt_or_ge b 3 with hlt | hge
      · obtain rfl : b = 2 := by omega
        exact ⟨2, le_refl _, by decide, by decide, by rw [hlen]; rfl⟩
      · refine ⟨b - 1, by omega, by omega, by omega, ?_⟩
        have hle : initialIndexSize ≤ 2 ^ b := Nat.pow_le_pow_right Nat.two_pos hge
        rw [hlen, Nat.max_eq_left hle, Nat.sub_add_cancel (by omega)]
    obtain ⟨mask, hmask, hsize⟩ := indexSizeToHashMask_two_pow hc' has63BitSmis
    have hpow : 2 ^ b ≤ 2 ^ (c + 1) := Nat.pow_le_pow_right Nat.two_pos hbc
    have hindex : (newIndex (2 ^ (c + 1))).length = 2 ^ (c + 1) := length_replicate
    obtain ⟨m', b', hrehash, hm', -⟩ := rehash_sound (puts_add has63BitSmis hashing) hlaw depth
      hsound.layout hsound.distinct hindex hc (by omega) hmask (hkeys.trans hpow) (.inr (by omega))
    refine ⟨m', _, ?_, .inr ⟨b', hm'⟩, reduceOption_map_some _⟩
    have hne : ¬ m.data.length = 0 := by
      rw [hlen]
      exact (Nat.two_pow_pos b).ne'
    rw [regenerateIndex]
    simp only [if_neg hne, hmax, roundUpToPowerOfTwo_two_pow, hindex, hsize, some_bind]
    exact hrehash

end Dart2Wasm.CompactHash.LinkedHashSet
