import Dart2Wasm.CoreLibrary.HashMapHistory

/-!
# HashMapMethods — the methods of a map against an association list

What a map stands for is the list of the entries that are left, and every method does to that list
what the methods of an association list in insertion order do.
-/

namespace Dart2Wasm.CompactHash.LinkedHashMap

open Lib.OpenAddressing List Nat Option

variable {K V : Type}
variable {k : K} {m : Fields K V} {i j spare : Nat}

/-! ## Association lists in insertion order -/

section AssocList

variable (hashing : Hashing K)

/-- A key that is there keeps its place, a new one goes to the end. -/
def put (key : K) (value : V) : List (K × V) → List (K × V)
  | [] => [(key, value)]
  | (k, v) :: rest =>
    if hashing.equals key k then (k, value) :: rest else (k, v) :: put key value rest

def lookup (key : K) (l : List (K × V)) : Option V :=
  (l.find? fun p => hashing.equals key p.1).map Prod.snd

def erase (key : K) (l : List (K × V)) : List (K × V) :=
  l.eraseP fun p => hashing.equals key p.1

def putAll (l source : List (K × V)) : List (K × V) :=
  source.foldl (fun l p => put hashing p.1 p.2 l) l

variable {hashing} {key : K} {l l' : List (K × V)}

section

variable (h : ∀ p ∈ l, hashing.equals key p.1 = false)
include h

theorem put_absent (value : V) : put hashing key value l = l ++ [(key, value)] := by
  induction l with
  | nil => rfl
  | cons p l ih =>
    have hp : ¬ hashing.equals key p.1 = true := by simp [h p mem_cons_self]
    rw [put, if_neg hp, ih fun q hq => h q (mem_cons_of_mem _ hq)]
    rfl

theorem put_present (v : V) (heq : hashing.equals key k = true) (value : V) :
    put hashing key value (l ++ (k, v) :: l') = l ++ (k, value) :: l' := by
  induction l with
  | nil =>
    show put hashing key value ((k, v) :: l') = _
    rw [put, if_pos heq]
    rfl
  | cons p l ih =>
    have hp : ¬ hashing.equals key p.1 = true := by simp [h p mem_cons_self]
    rw [cons_append, put, if_neg hp, ih fun q hq => h q (mem_cons_of_mem _ hq)]
    rfl

theorem lookup_absent : lookup hashing key l = none := by
  rw [lookup, map_eq_none_iff, find?_eq_none]
  intro p hp
  rw [h p hp]
  simp

theorem lookup_present (v : V)
    (heq : hashing.equals key k = true) : lookup hashing key (l ++ (k, v) :: l') = some v := by
  have hnone : l.find? (fun p => hashing.equals key p.1) = none :=
    find?_eq_none.2 fun p hp => by simp [h p hp]
  rw [lookup, find?_append, hnone, none_or, find?_cons, heq]
  rfl

theorem erase_absent : erase hashing key l = l :=
  eraseP_of_forall_not fun p hp => by simp [h p hp]

theorem erase_present (v : V)
    (heq : hashing.equals key k = true) : erase hashing key (l ++ (k, v) :: l') = l ++ l' := by
  rw [erase, eraseP_append_right _ fun p hp => by simp [h p hp], eraseP_cons, heq]
  rfl

end

theorem length_le_put (value : V) : l.length ≤ (put hashing key value l).length := by
  induction l with
  | nil => exact zero_le _
  | cons p l ih =>
    rw [put]
    split
    · exact le_refl _
    · exact succ_le_succ ih

/-- Writing the value that a key already has. -/
theorem put_self (hlaw : hashing.Lawful) (h : Distinct hashing (l.map Prod.fst)) {p : K × V}
    (hp : p ∈ l) : put hashing p.1 p.2 l = l := by
  obtain ⟨xs, ys, rfl⟩ := append_of_mem hp
  rw [map_append] at h
  have hbefore : ∀ q ∈ xs, hashing.equals p.1 q.1 = false := fun q hq =>
    h.equals_before hlaw (hlaw.refl p.1) q.1 (mem_map_of_mem hq)
  exact put_present hbefore p.2 (hlaw.refl p.1) p.2

end AssocList

/-! ## Insertions -/

variable {hashing : Hashing K} {key : K} {b : Nat} {entries : List (Option (K × V))}

theorem offsets_two (n : Nat) : offsets 2 (2 * n) = (range n).map (2 * ·) :=
  offsets_mul Nat.two_pos n

theorem findValueOrInsertPoint_found (h : kind.find hashing m key = some (.found i j)) :
    findValueOrInsertPoint hashing m key = some (((2 * j : Nat) : Int) + 1) := by
  rw [findValueOrInsertPoint, h, ← shiftLeft_one]

theorem findValueOrInsertPoint_absent (h : kind.find hashing m key = some (.absent i)) :
    findValueOrInsertPoint hashing m key = some (-(i : Int)) := by
  rw [findValueOrInsertPoint, h]

theorem indexSet_found (h : kind.find hashing m key = some (.found i j)) (has63BitSmis : Bool)
    (depth : Nat) (value : V) :
    indexSet has63BitSmis hashing (depth + 1) m key value =
      (store m.data (2 * j + 1) (.value value)).map fun data => { m with data := data } := by
  rw [indexSet, findValueOrInsertPoint_found h]
  have hnat : (((2 * j : Nat) : Int) + 1).toNat = 2 * j + 1 := by omega
  simp only [hnat, if_pos (show ((2 * j : Nat) : Int) + 1 > 0 by omega)]
  cases store m.data (2 * j + 1) (.value value) <;> rfl

theorem indexSet_absent
    (h : kind.find hashing m key = some (.absent i)) (has63BitSmis : Bool) (depth : Nat)
    (value : V) :
    indexSet has63BitSmis hashing (depth + 1) m key value =
      kind.insert has63BitSmis (fun m e => indexSet has63BitSmis hashing depth m e.1 e.2) m
        (key, value) (hashPattern (hashing.hashCode key) m.hashMask m.index.length) i := by
  rw [indexSet, findValueOrInsertPoint_absent h]
  have hneg : ¬ (-(i : Int) > 0) := by omega
  have hi : (- -(i : Int)).toNat = i := by omega
  simp only [if_neg hneg, hi]

theorem puts_indexSet (has63BitSmis : Bool) (hashing : Hashing K) :
    (kind (V := V)).Puts has63BitSmis hashing
      fun depth m e => indexSet has63BitSmis hashing depth m e.1 e.2 where
  zero _ _ := rfl
  none depth m e h := by
    show indexSet _ _ (depth + 1) m e.1 e.2 = none
    rw [indexSet, findValueOrInsertPoint, show kind.find hashing m e.1 = none from h]
  absent depth m e i h := indexSet_absent h has63BitSmis depth e.2
  found depth m e i j m' h hset := by
    rw [indexSet_found (show kind.find hashing m e.1 = _ from h)] at hset
    obtain ⟨data, hstore, rfl⟩ := map_eq_some_iff.1 hset
    exact ⟨data, rfl, by rw [(store_eq_some hstore).2, length_set]⟩

theorem sound_overwrite {v : V} (h : Sound kind hashing b m entries)
    (hfind : kind.find hashing m key = some (.found i j)) (hj : entries[j]? = some (some (k, v)))
    (has63BitSmis : Bool) (depth : Nat) (value : V) :
    ∃ m', indexSet has63BitSmis hashing (depth + 1) m key value = some m' ∧
      Sound kind hashing b m' (entries.set j (some (k, value))) ∧ m'.dataId = m.dataId ∧
      checkSum m' = checkSum m := by
  obtain ⟨data, hstore, hlayout⟩ := store_value h.layout hj value
  refine ⟨{ m with data := data }, ?_, ⟨?_, ?_⟩, rfl, rfl⟩
  · rw [indexSet_found hfind, hstore]
    rfl
  · rw [length_set]
    exact hlayout
  · have hkeys : kind.keysOf (entries.set j (some (k, value))) = kind.keysOf entries := by
      obtain ⟨hlt, hget⟩ := List.getElem?_eq_some_iff.1 (keysOf_getElem? (T := kind) hj)
      rw [Kind.keysOf, map_set]
      show (kind.keysOf entries).set j (some k) = _
      rw [← show _ = some k from hget, set_getElem_self]
    rw [hkeys]
    exact h.indexed

section Lawful

variable (hlaw : hashing.Lawful) (has63BitSmis : Bool) (depth : Nat)
  (h : Valid kind hashing m entries)
include hlaw h

theorem valid_indexSet (key : K) (value : V)
    (hcap : (put hashing key value entries.reduceOption).length ≤ maxKeys) :
    ∃ m' entries', indexSet has63BitSmis hashing (depth + 2) m key value = some m' ∧
      Valid kind hashing m' entries' ∧
      entries'.reduceOption = put hashing key value entries.reduceOption := by
  rcases h.find_cases hlaw key with
    ⟨i, j, ⟨k, v⟩, b, l, l', hfind, hsound, hj, heq, -, hsplit, hbefore, hwritten, -⟩ | ⟨i, -, hnew⟩
  · obtain ⟨m', hset, hm', -⟩ := sound_overwrite hsound hfind hj has63BitSmis (depth + 1) value
    refine ⟨m', _, hset, .inr ⟨b, hm'⟩, ?_⟩
    rw [hwritten, hsplit, put_present hbefore v (k := k) heq]
  · rw [put_absent hnew] at hcap ⊢
    exact h.put_new (puts_indexSet has63BitSmis hashing) hlaw depth (e := (key, value)) hnew hcap

/-- Writing the value that a key already has, as a map does that is added to itself. -/
theorem valid_indexSet_self {v : V} (hmem : (k, v) ∈ entries.reduceOption) :
    ∃ m', indexSet has63BitSmis hashing (depth + 2) m k v = some m' ∧
      Valid kind hashing m' entries ∧ m'.dataId = m.dataId ∧ checkSum m' = checkSum m := by
  rcases h.find_cases hlaw k with
    ⟨i, j, ⟨k', v'⟩, b, -, -, hfind, hsound, hj, heq, -⟩ | ⟨i, -, hnew⟩
  · obtain ⟨j₀, hj₀, hget⟩ := getElem_of_mem (reduceOption_mem_iff.1 hmem)
    have hentry : entries[j₀]? = some (some (k, v)) := by rw [getElem?_eq_getElem hj₀, hget]
    obtain rfl := hsound.indexed.distinct.index_eq hlaw (keysOf_getElem? hentry)
      (keysOf_getElem? hj) heq
    rw [hentry] at hj
    cases hj
    obtain ⟨m', hset, hm', hid, hsum⟩ :=
      sound_overwrite hsound hfind hentry has63BitSmis (depth + 1) v
    have hsame : entries.set j₀ (some (k, v)) = entries := by
      rw [← hget, set_getElem_self]
    rw [hsame] at hm'
    exact ⟨m', hset, .inr ⟨b, hm'⟩, hid, hsum⟩
  · have := hnew _ hmem
    rw [show kind.keyOf (k, v) = k from rfl, hlaw.refl] at this
    cases this

omit has63BitSmis depth in
theorem valid_getValueOrData (key : K) :
    getValueOrData hashing m key = some (lookup hashing key entries.reduceOption) := by
  rw [getValueOrData]
  rcases h.find_cases hlaw key with
    ⟨i, j, ⟨k, v⟩, b, l, l', hfind, hsound, hj, heq, -, hsplit, hbefore, -⟩ | ⟨i, hfind, hnew⟩
  · rw [hfind, hsplit, lookup_present hbefore v (k := k) heq]
    simp only [shiftLeft_one, valueAt_eq hsound.layout hj, map_some]
  · rw [hfind, lookup_absent hnew]

omit has63BitSmis depth in
theorem valid_remove (key : K) :
    ∃ m' entries',
      remove hashing m key = some (m', lookup hashing key entries.reduceOption) ∧
      Valid kind hashing m' entries' ∧
      entries'.reduceOption = erase hashing key entries.reduceOption := by
  rcases h.find_cases hlaw key with
    ⟨i, j, ⟨k, v⟩, b, l, l', hfind, hsound, hj, heq, hi, hsplit, hbefore, -, herased⟩ |
    ⟨i, hfind, hnew⟩
  · obtain ⟨pre, post, hindex, hdata, hpre, hremoved⟩ := hsound.remove hj hi
    obtain ⟨data, hkey, hvalue, hdeleted⟩ := store_deleted pre post k v
    rw [← hdata, show pre.length = 2 * j from hpre] at hkey
    rw [show pre.length = 2 * j from hpre] at hvalue hdeleted
    refine ⟨_, entries.set j none, ?_, .inr ⟨b, hremoved⟩, ?_⟩
    · rw [hsplit, lookup_present hbefore v (k := k) heq, remove, hfind]
      simp only [shiftLeft_one, hindex, hkey, hvalue, hdeleted, Lib.some_bind]
    · rw [herased, hsplit, erase_present hbefore v (k := k) heq]
  · refine ⟨m, entries, ?_, h, (erase_absent hnew).symm⟩
    rw [remove, hfind, lookup_absent hnew]

/-- The end of `putIfAbsent`, when the callback has left a later state of the map. -/
theorem valid_putAbsent {old : Fields K V} (hfind : kind.find hashing old key = some (.absent i))
    (hevolves : Evolves old m) (value : V)
    (hcap : (put hashing key value entries.reduceOption).length ≤ maxKeys) :
    ∃ m' entries',
      putAbsent has63BitSmis hashing (depth + 2) old m key value (-(i : Int)) = some m' ∧
      Valid kind hashing m' entries' ∧
      entries'.reduceOption = put hashing key value entries.reduceOption := by
  rw [putAbsent]
  split
  · exact valid_indexSet hlaw has63BitSmis depth h key value hcap
  rename_i hmod
  obtain ⟨hindex, hmask, hkeys⟩ := hevolves.of_not_modified (Bool.not_eq_true _ ▸ hmod)
  -- the index and the keys are as they were, so the search would end where it ended
  have hfind' : kind.find hashing m key = some (.absent i) := by
    rw [← hfind, Kind.find, Kind.find, hindex, hmask]
    congr 1
    funext entry
    rw [kind.offset_eq]
    exact congrArg _ (hkeys entry)
  have hi : (- -(i : Int)).toNat = i := by omega
  rw [hi, ← hindex, ← hmask, ← indexSet_absent hfind']
  exact valid_indexSet hlaw has63BitSmis (depth + 1) h key value hcap

end Lawful

theorem indexSet_putsInto (hlaw : hashing.Lawful) (has63BitSmis : Bool) (depth : Nat) :
    (kind (V := V)).PutsInto hashing
      (fun m p => indexSet has63BitSmis hashing (depth + 2) m p.1 p.2)
      (fun l p => put hashing p.1 p.2 l) where
  absent _ p h := put_absent h p.2
  self _ _ h hp := put_self hlaw h hp
  length_le _ p := length_le_put p.2
  valid _ _ p h := valid_indexSet hlaw has63BitSmis depth h p.1 p.2
  valid_self _ _ _ h := valid_indexSet_self hlaw has63BitSmis depth h

/-! ## Visiting the pairs -/

theorem forEach_traverses {σ : Type} : (kind (K := K) (V := V)).Traverses (forEach (σ := σ)) := by
  intro table action entries dataId sum I s htable haction hstart
  have hloop : ∀ {offsets : List Nat} {rest : List (K × V)}, Passes entries offsets rest →
      ∀ done s, entries.reduceOption = done ++ rest → I done s →
        ∃ s', forEachLoop table action dataId sum (offsets.map (2 * ·)) s = some (s', false) ∧
          I entries.reduceOption s' := by
    intro offsets rest hpasses done s hdone hI
    induction hpasses generalizing done s with
    | nil =>
      rw [append_nil] at hdone
      exact ⟨s, rfl, hdone ▸ hI⟩
    | removed hi _ ih =>
      obtain ⟨m, spare, hm, hlayout, -, -⟩ := htable _ s hI
      rw [map_cons, forEachLoop, hm]
      simp only [Lib.some_bind, (pair_cells hlayout hi).1]
      exact ih done s hdone hI
    | @left i offsets p rest hi _ ih =>
      obtain ⟨m, spare, hm, hlayout, -, -⟩ := htable _ s hI
      obtain ⟨s₁, hact, hI₁⟩ := haction _ p rest s hdone hI
      obtain ⟨m₁, spare₁, hm₁, -, hid, hsum⟩ := htable _ s₁ hI₁
      have hmod : ¬ isModifiedSince m₁ dataId sum = true := by
        rw [isModifiedSince, hid, hsum]
        simp
      rw [map_cons, forEachLoop, hm]
      simp only [Lib.some_bind, (pair_cells hlayout hi).1, keyCell,
        valueAt_eq hlayout hi, hact, hm₁, if_neg hmod]
      exact ih _ s₁ (hdone.trans (append_cons ..)) hI₁
  obtain ⟨m, spare, hm, hlayout, hid, hsum⟩ := htable _ s hstart
  rw [forEach, hm]
  simp only [Lib.some_bind]
  rw [used_eq hlayout, offsets_two, hid, hsum]
  exact hloop (passes_range entries) [] s rfl hstart

theorem layout_pairs (h : Layout kind m entries spare) : pairs m = some entries.reduceOption := by
  obtain ⟨seen, hloop, rfl⟩ := forEach_traverses (fun _ : List (K × V) => some m)
    (fun seen p => some (seen ++ [p])) entries m.dataId (checkSum m)
    (fun done seen => seen = done) [] (fun _ _ _ => ⟨m, spare, rfl, h, rfl, rfl⟩)
    (fun done p rest seen _ hI => ⟨_, rfl, by rw [hI]⟩) rfl
  rw [LinkedHashMap.pairs, hloop]
  rfl

theorem valid_pairs (h : Valid kind hashing m entries) : pairs m = some entries.reduceOption := by
  obtain ⟨spare, hlayout⟩ := h.layout
  exact layout_pairs hlayout

end Dart2Wasm.CompactHash.LinkedHashMap
