import Dart2Wasm.CoreLibrary.HashBase

/-!
# HashTable — what maps and sets have in common

`_LinkedHashMapMixin` and `_LinkedHashSetMixin` keep the same fields and differ in how an entry lies
in `_data`: a set uses one cell for an element, a map two for a key and its value. `Kind` says what
depends on that, and the methods that differ in nothing else are defined once for every kind.

1. The fields, and the methods of `_HashBase`.
2. `Layout`: the cells hold the entries in order, of which the removed ones are `none`.
3. `Valid`: either nothing was inserted yet, or the index leads to the entries as well.
4. What an insertion, a rehash and a removal do to the entries that are left.
-/

namespace Dart2Wasm.CompactHash

open Lib.OpenAddressing List Nat Option

variable {K E C : Type}

/-- The fields of `_HashFieldBase`. `dataId` is the identity of `_data`: zero for the list that all
collections share before their first insertion, otherwise the number of its allocation. -/
structure Fields (C : Type) where
  index : List UInt32 := uninitializedIndex
  hashMask : Nat := uninitializedHashMask
  data : List C := []
  dataId : Nat := 0
  usedData : Nat := 0
  deletedKeys : Nat := 0
  allocated : Nat := 0

def checkSum (m : Fields C) : Nat :=
  m.usedData + m.deletedKeys

def isModifiedSince (m : Fields C) (oldDataId oldCheckSum : Nat) : Bool :=
  m.dataId != oldDataId || checkSum m != oldCheckSum

/-- `_quickCopy`; it returns false without a result. The shared index is the only one of size
one. -/
def quickCopy (m other : Fields C) : Option (Fields C) :=
  if m.index ≠ uninitializedIndex then none
  else if other.usedData = 0 then some m
  else if other.deletedKeys ≠ 0 then none
  else
    some
      { index := other.index
        hashMask := other.hashMask
        data := other.data
        dataId := m.allocated + 1
        usedData := other.usedData
        deletedKeys := other.deletedKeys
        allocated := m.allocated + 1 }

/-- Stores cells one after the other, as `_data[_usedData++] = cell` does. -/
def storeAll (data : List C) (d : Nat) : List C → Option (List C)
  | [] => some data
  | cell :: cells => do
    let data ← store data d cell
    storeAll data (d + 1) cells

/-- The offsets of a loop over the first `used` cells. -/
def offsets (step used : Nat) : List Nat :=
  List.range' 0 ((used + (step - 1)) / step) step

/-- How the entries of a collection lie in `_data`. -/
structure Kind (K E C : Type) where
  /-- The number of cells of an entry, which is the step of the loops over `_data`. -/
  width : Nat
  keyOf : E → K
  /-- The cells of an entry; those of a removed one hold the list itself. -/
  cells : Option E → List C
  null : C
  toKey : C → Option K
  /-- What a loop over `_data` finds at an offset. -/
  read : List C → Nat → Option (Option E)
  /-- The offset of an entry. -/
  offset : Nat → Nat
  /-- The number of entries in so many cells. -/
  entryOf : Nat → Nat
  /-- The length of `_data` for an index of so many pairs. -/
  dataLength : Nat → Nat
  deletedShift : Nat
  width_pos : 0 < width
  length_cells : ∀ e, (cells e).length = width
  toKey_cells : ∀ e, (cells e).head?.bind toKey = e.map keyOf
  toKey_null : toKey null = none
  read_cells : ∀ pre e post, read (pre ++ (cells e ++ post)) pre.length = some e
  offset_eq : ∀ j, offset j = width * j
  entryOf_mul : ∀ n, entryOf (width * n) = n
  dataLength_double : ∀ n, dataLength (2 * n) = width * n
  two_pow_deletedShift : 2 ^ deletedShift = 2 * width

namespace Kind

variable (T : Kind K E C)

def length (m : Fields C) : Int :=
  (T.entryOf m.usedData : Int) - m.deletedKeys

def isEmpty (m : Fields C) : Bool :=
  T.length m == 0

def clear (m : Fields C) : Fields C :=
  if T.isEmpty m then m else { allocated := m.allocated }

def keyAt (data : List C) (d : Nat) : Option K :=
  data[d]?.bind T.toKey

/-- The search for a key that all lookups start with. -/
def find (hashing : Hashing K) (m : Fields C) (key : K) : Option ProbeEnd :=
  probe m.index (hashing.hashCode key)
    (hashPattern (hashing.hashCode key) m.hashMask m.index.length)
    fun entry => (T.keyAt m.data (T.offset entry)).map (hashing.equals key)

/-- The loop of `_init` that puts the entries of the old data into the new one. -/
def copyLoop (put : Fields C → E → Option (Fields C)) (oldData : List C) :
    List Nat → Fields C → Option (Fields C)
  | [], m => some m
  | i :: offsets, m =>
    match T.read oldData i with
    | none => none
    | some none => copyLoop put oldData offsets m
    | some (some e) => do
      let m ← put m e
      copyLoop put oldData offsets m

/-- The fields after the allocations of `_init`. -/
def allocate (m : Fields C) (size hashMask : Nat) : Fields C :=
  { index := newIndex size
    hashMask := hashMask
    data := List.replicate (T.dataLength size) T.null
    dataId := m.allocated + 1
    usedData := 0
    deletedKeys := 0
    allocated := m.allocated + 1 }

section

variable (has63BitSmis : Bool) (put : Fields C → E → Option (Fields C)) (m : Fields C)

def init (size hashMask : Nat) (oldData : List C) (oldUsed : Nat) : Option (Fields C) :=
  match initialSize has63BitSmis size hashMask with
  | none => none
  | some (size, hashMask) =>
    T.copyLoop put oldData (offsets T.width oldUsed) (T.allocate m size hashMask)

def rehash : Option (Fields C) :=
  if m.deletedKeys <<< T.deletedShift > m.usedData then
    T.init has63BitSmis put m m.index.length m.hashMask m.data m.usedData
  else
    T.init has63BitSmis put m (m.index.length <<< 1) (m.hashMask >>> 1) m.data m.usedData

/-- `_insert` of a map, which is the end of `add` of a set; `put` stands for the whole method. -/
def insert (e : E) (pattern i : Nat) : Option (Fields C) :=
  if m.usedData = m.data.length then do
    let m ← T.rehash has63BitSmis put m
    put m e
  else do
    let index ← store m.index i (UInt32.ofNat (pattern ||| T.entryOf m.usedData))
    let data ← storeAll m.data m.usedData (T.cells (some e))
    some { m with index := index, data := data, usedData := m.usedData + T.width }

end

def keysOf (entries : List (Option E)) : List (Option K) :=
  entries.map (Option.map T.keyOf)

end Kind

variable {T : Kind K E C} {m m' : Fields C} {entries : List (Option E)} {spare i j b mask : Nat}
  {e : E} {hashing : Hashing K} {key : K}

/-! ## The cells of `_data` -/

theorem store_append (pre : List C) (x y : C) (post : List C) :
    store (pre ++ x :: post) pre.length y = some (pre ++ y :: post) := by
  rw [store, if_pos (by simp), set_append_right _ _ (le_refl _), Nat.sub_self]
  rfl

theorem storeAll_append (cells : List C) :
    ∀ pre old post : List C, old.length = cells.length →
      storeAll (pre ++ (old ++ post)) pre.length cells = some (pre ++ (cells ++ post)) := by
  induction cells with
  | nil =>
    intro pre old post hold
    rw [length_eq_zero_iff.1 hold]
    rfl
  | cons cell cells ih =>
    intro pre old post hold
    obtain ⟨x, old, rfl⟩ := exists_cons_of_length_eq_add_one hold
    have hrest := ih (pre ++ [cell]) old post (by simpa using hold)
    simp only [append_assoc, singleton_append, length_append, length_singleton] at hrest
    rw [storeAll, cons_append, store_append]
    exact hrest

/-- The cells hold `entries` in order, followed by room for `spare` more. -/
structure Layout (T : Kind K E C) (m : Fields C) (entries : List (Option E)) (spare : Nat) :
    Prop where
  data_eq : m.data = entries.flatMap T.cells ++ List.replicate (T.width * spare) T.null
  used_eq : m.usedData = T.width * entries.length
  deleted_eq : m.deletedKeys = entries.countP Option.isNone
  index_length : m.index = uninitializedIndex ∧ m.data = [] ∨
    m.index.length = 2 * (entries.length + spare)
  dataId_le : m.dataId ≤ m.allocated
  shared_empty : m.dataId = 0 →
    m.index = uninitializedIndex ∧ m.hashMask = uninitializedHashMask ∧ m.data = []

theorem length_flatMap_cells (T : Kind K E C) (entries : List (Option E)) :
    (entries.flatMap T.cells).length = T.width * entries.length := by
  induction entries with
  | nil => rfl
  | cons e entries ih =>
    rw [flatMap_cons, length_append, ih, T.length_cells, length_cons, Nat.mul_succ, Nat.add_comm]

theorem offsets_mul {step : Nat} (hpos : 0 < step) (n : Nat) :
    offsets step (step * n) = (range n).map (step * ·) := by
  rw [offsets, Nat.mul_add_div hpos, Nat.div_eq_of_lt (by omega), Nat.add_zero]
  exact ext_getElem (by simp) (by simp)

namespace Layout

section

variable (h : Layout T m entries spare)
include h

theorem length_data : m.data.length = T.width * (entries.length + spare) := by
  rw [h.data_eq, length_append, length_flatMap_cells, length_replicate, Nat.mul_add]

theorem full_iff : m.usedData = m.data.length ↔ spare = 0 := by
  have hpos := T.width_pos
  rw [h.length_data, h.used_eq, Nat.mul_right_inj hpos.ne']
  omega

theorem entries_eq_nil (hnil : m.data = []) : entries = [] ∧ spare = 0 := by
  have hlen := h.length_data
  rw [hnil, length_nil, eq_comm, Nat.mul_eq_zero] at hlen
  have := hlen.resolve_left T.width_pos.ne'
  exact ⟨length_eq_zero_iff.1 (by omega), by omega⟩

/-- The cells around an entry, and what writing another one there does. -/
theorem split {e : Option E} (hj : entries[j]? = some e) :
    ∃ pre post, m.data = pre ++ (T.cells e ++ post) ∧ pre.length = T.width * j ∧
      ∀ (e' : Option E) (index : List UInt32), index.length = m.index.length →
        Layout T
          { m with
            index := index
            data := pre ++ (T.cells e' ++ post)
            deletedKeys := (entries.set j e').countP Option.isNone } (entries.set j e') spare := by
  obtain ⟨before, after, hentries, hlen, hset⟩ := split_at hj
  have hne : entries ≠ [] := by
    rw [hentries]
    simp
  refine ⟨before.flatMap T.cells, after.flatMap T.cells ++ replicate (T.width * spare) T.null,
    ?_, ?_, fun e' index hindex => ?_⟩
  · rw [h.data_eq, hentries, flatMap_append, flatMap_cons, append_assoc, append_assoc]
  · rw [length_flatMap_cells, hlen]
  · exact
      { data_eq := by rw [hset, flatMap_append, flatMap_cons, append_assoc, append_assoc]
        used_eq := by rw [length_set]; exact h.used_eq
        deleted_eq := rfl
        index_length := by
          rw [length_set]
          exact .inr (hindex.trans (h.index_length.resolve_left
            fun hnil => hne (h.entries_eq_nil hnil.2).1))
        dataId_le := h.dataId_le
        shared_empty := fun hid => absurd (h.entries_eq_nil (h.shared_empty hid).2.2).1 hne }

theorem read_eq {e : Option E} (hj : entries[j]? = some e) :
    T.read m.data (T.width * j) = some e := by
  obtain ⟨pre, post, hdata, hpre, -⟩ := h.split hj
  rw [hdata, ← hpre, T.read_cells]

theorem keyAt_eq (j : Nat) : T.keyAt m.data (T.width * j) = (entries[j]?.bind id).map T.keyOf := by
  rw [Kind.keyAt]
  cases hj : entries[j]? with
  | some e =>
    obtain ⟨pre, post, hdata, hpre, -⟩ := h.split hj
    have hhead : (T.cells e ++ post)[0]? = (T.cells e).head? := by
      rw [getElem?_append_left (by rw [T.length_cells]; exact T.width_pos), head?_eq_getElem?]
    rw [hdata, ← hpre, getElem?_append_right (le_refl _), Nat.sub_self, hhead, T.toKey_cells]
    rfl
  | none =>
    rw [h.data_eq, getElem?_append_right (by
      rw [length_flatMap_cells]
      exact Nat.mul_le_mul_left _ (getElem?_eq_none_iff.1 hj)), getElem?_replicate]
    split
    · exact T.toKey_null
    · rfl

theorem equalsAt_eq (hashing : Hashing K) (key : K) {k : K}
    (hj : (T.keysOf entries)[j]? = some (some k)) :
    (T.keyAt m.data (T.offset j)).map (hashing.equals key) = some (hashing.equals key k) := by
  rw [Kind.keysOf, getElem?_map] at hj
  obtain ⟨e, he, hk⟩ := map_eq_some_iff.1 hj
  rw [T.offset_eq, h.keyAt_eq, he]
  show (e.map T.keyOf).map _ = _
  rw [hk, map_some]

/-- A comparison that gives a result was made with a key that is stored. -/
theorem entry_of_find (hfind : T.find hashing m key = some (.found i j)) :
    ∃ e, entries[j]? = some (some e) := by
  have hj := (probeLoop_found hfind).1
  rw [T.offset_eq, h.keyAt_eq] at hj
  obtain ⟨k, hk, -⟩ := map_eq_some_iff.1 hj
  obtain ⟨e, he, -⟩ := map_eq_some_iff.1 hk
  obtain ⟨e', he', rfl⟩ := bind_eq_some_iff.1 he
  exact ⟨e, he'⟩

theorem length_eq : T.length m = entries.reduceOption.length := by
  have := reduceOption_length_add entries
  rw [Kind.length, h.used_eq, T.entryOf_mul, h.deleted_eq]
  omega

theorem isEmpty_iff : T.isEmpty m = true ↔ entries.reduceOption = [] := by
  rw [Kind.isEmpty, h.length_eq, beq_iff_eq, ← length_eq_zero_iff]
  omega

theorem clear : Layout T (T.clear m) (if T.isEmpty m then entries else [])
    (if T.isEmpty m then spare else 0) := by
  rw [Kind.clear]
  split
  · exact h
  exact ⟨rfl, rfl, rfl, .inl ⟨rfl, rfl⟩, Nat.zero_le _, fun _ => ⟨rfl, rfl, rfl⟩⟩

/-- The lists that `_quickCopy` copies. -/
theorem quickCopy (allocated : Nat) :
    Layout T { m with dataId := allocated + 1, allocated := allocated + 1 } entries spare :=
  { h with dataId_le := le_refl _, shared_empty := fun hid => absurd hid (succ_ne_zero _) }

end

theorem new : Layout T {} [] 0 :=
  ⟨rfl, rfl, rfl, .inl ⟨rfl, rfl⟩, le_refl 0, fun _ => ⟨rfl, rfl, rfl⟩⟩

theorem allocate (m : Fields C) (n mask : Nat) : Layout T (T.allocate m (2 * n) mask) [] n where
  data_eq := by rw [Kind.allocate, T.dataLength_double]; rfl
  used_eq := rfl
  deleted_eq := rfl
  index_length := .inr (by rw [Kind.allocate, newIndex, length_replicate]; simp)
  dataId_le := le_refl _
  shared_empty hid := absurd hid (succ_ne_zero _)

/-- The cells that an insertion writes when there is room. -/
theorem append (h : Layout T m entries (spare + 1)) (e : E) (index : List UInt32)
    (hindex : index.length = m.index.length) :
    ∃ data, storeAll m.data m.usedData (T.cells (some e)) = some data ∧
      Layout T { m with index := index, data := data, usedData := m.usedData + T.width }
        (entries ++ [some e]) spare := by
  have hne : m.data ≠ [] := fun hnil => absurd (h.entries_eq_nil hnil).2 (succ_ne_zero _)
  have hroom : replicate (T.width * (spare + 1)) T.null =
      replicate T.width T.null ++ replicate (T.width * spare) T.null := by
    rw [replicate_append_replicate, Nat.mul_succ, Nat.add_comm]
  refine ⟨entries.flatMap T.cells ++ (T.cells (some e) ++ replicate (T.width * spare) T.null),
    ?_, ?_⟩
  · rw [h.data_eq, h.used_eq, ← length_flatMap_cells, hroom]
    exact storeAll_append _ _ _ _ (by rw [length_replicate, T.length_cells])
  · exact
      { data_eq := by simp
        used_eq := by
          rw [length_append, length_singleton, Nat.mul_succ]
          exact congrArg (· + T.width) h.used_eq
        deleted_eq := by
          rw [countP_append]
          exact h.deleted_eq
        index_length := by
          have hlen := h.index_length.resolve_left fun hnil => hne hnil.2
          rw [length_append, length_singleton]
          exact .inr (hindex.trans (hlen.trans (by omega)))
        dataId_le := h.dataId_le
        shared_empty := fun hid => absurd (h.shared_empty hid).2.2 hne }

end Layout

/-! ## The invariant -/

/-- The state of a collection after its first insertion, with an index of `2 ^ (b + 1)` pairs. -/
structure Sound (T : Kind K E C) (hashing : Hashing K) (b : Nat) (m : Fields C)
    (entries : List (Option E)) : Prop where
  layout : Layout T m entries (2 ^ b - entries.length)
  indexed : Indexed hashing b m.index m.hashMask (T.keysOf entries)

/-- The state of a collection before its first insertion and after `clear`. -/
structure Fresh (T : Kind K E C) (m : Fields C) : Prop where
  layout : Layout T m [] 0
  index_eq : m.index = uninitializedIndex

def Valid (T : Kind K E C) (hashing : Hashing K) (m : Fields C) (entries : List (Option E)) :
    Prop :=
  Fresh T m ∧ entries = [] ∨ ∃ b, Sound T hashing b m entries

theorem keysOf_length (entries : List (Option E)) : (T.keysOf entries).length = entries.length := by
  rw [Kind.keysOf, length_map]

theorem keysOf_getElem? (h : entries[j]? = some (some e)) :
    (T.keysOf entries)[j]? = some (some (T.keyOf e)) := by
  rw [Kind.keysOf, getElem?_map, h]
  rfl

theorem reduceOption_keysOf (entries : List (Option E)) :
    (T.keysOf entries).reduceOption = entries.reduceOption.map T.keyOf := by
  rw [Kind.keysOf, reduceOption_map]

theorem Fresh.new : Fresh T {} :=
  ⟨Layout.new, rfl⟩

theorem Fresh.find (h : Fresh T m) (hashing : Hashing K) (key : K) :
    T.find hashing m key = some (.absent 0) := by
  rw [Kind.find, h.index_eq]
  exact probe_uninitializedIndex _ _ _

namespace Sound

variable (h : Sound T hashing b m entries)
include h

theorem length_le : entries.length ≤ 2 ^ b := by
  rw [← keysOf_length (T := T)]
  exact h.indexed.keys_le

theorem distinct : Distinct hashing (entries.reduceOption.map T.keyOf) := by
  rw [← reduceOption_keysOf]
  exact h.indexed.distinct

theorem full_iff : m.usedData = m.data.length ↔ entries.length = 2 ^ b := by
  rw [h.layout.full_iff]
  have := h.length_le
  omega

variable (hlaw : hashing.Lawful)
include hlaw

theorem find_cases (key : K) :
    (∃ i j e, T.find hashing m key = some (.found i j) ∧ entries[j]? = some (some e) ∧
      hashing.equals key (T.keyOf e) = true ∧
      m.index[i]? = some (pairOf hashing m.hashMask m.index.length (T.keyOf e) j)) ∨
    (∃ i, T.find hashing m key = some (.absent i) ∧ Free (slots m.index) i ∧
      Reaches (slots m.index) (firstProbe (hashing.hashCode key) (m.index.length - 1)) i ∧
      ∀ p ∈ entries.reduceOption, hashing.equals key (T.keyOf p) = false) := by
  rcases h.indexed.probe_cases hlaw key (fun j k hj => h.layout.equalsAt_eq hashing key hj) with
    ⟨i, j, k, hfind, hj, heq, hi⟩ | ⟨i, hfind, hfree, hreach, hnew⟩
  · rw [Kind.keysOf, getElem?_map] at hj
    obtain ⟨e, he, hk⟩ := map_eq_some_iff.1 hj
    obtain ⟨e, rfl, rfl⟩ := map_eq_some_iff.1 hk
    exact .inl ⟨i, j, e, hfind, he, heq, hi⟩
  · refine .inr ⟨i, hfind, hfree, hreach, fun p hp => ?_⟩
    rw [reduceOption_keysOf] at hnew
    exact hnew _ (mem_map_of_mem hp)

variable (hnew : ∀ p ∈ entries.reduceOption, hashing.equals key (T.keyOf p) = false)
include hnew

theorem find_absent :
    ∃ i, T.find hashing m key = some (.absent i) ∧ Free (slots m.index) i ∧
      Reaches (slots m.index) (firstProbe (hashing.hashCode key) (m.index.length - 1)) i := by
  rcases h.find_cases hlaw key with ⟨i, j, e, -, hj, heq, -⟩ | ⟨i, hfind, hfree, hreach, -⟩
  · have := hnew e (reduceOption_mem_iff.2 (mem_of_getElem? hj))
    rw [heq] at this
    cases this
  · exact ⟨i, hfind, hfree, hreach⟩

end Sound

theorem Sound.append (h : Sound T hashing b m entries) (hlaw : hashing.Lawful)
    (hnew : ∀ p ∈ entries.reduceOption, hashing.equals (T.keyOf e) (T.keyOf p) = false)
    (hfree : Free (slots m.index) i)
    (hreach : Reaches (slots m.index)
      (firstProbe (hashing.hashCode (T.keyOf e)) (m.index.length - 1)) i)
    (hroom : entries.length < 2 ^ b) (has63BitSmis : Bool)
    (put : Fields C → E → Option (Fields C)) :
    ∃ m', T.insert has63BitSmis put m e
        (hashPattern (hashing.hashCode (T.keyOf e)) m.hashMask m.index.length) i = some m' ∧
      Sound T hashing b m' (entries ++ [some e]) := by
  obtain ⟨spare, hspare⟩ : ∃ spare, 2 ^ b - entries.length = spare + 1 :=
    ⟨2 ^ b - entries.length - 1, by omega⟩
  have hlayout := h.layout
  rw [hspare] at hlayout
  have hentry : T.entryOf m.usedData = (T.keysOf entries).length := by
    rw [hlayout.used_eq, T.entryOf_mul, keysOf_length]
  obtain ⟨data, hdata, hnext⟩ := hlayout.append e
    (m.index.set i (pairOf hashing m.hashMask m.index.length (T.keyOf e) (T.keysOf entries).length))
    length_set
  have hi := hfree.lt
  rw [slots_length] at hi
  have hinsert : T.insert has63BitSmis put m e
      (hashPattern (hashing.hashCode (T.keyOf e)) m.hashMask m.index.length) i =
      some
        { m with
          index := m.index.set i
            (pairOf hashing m.hashMask m.index.length (T.keyOf e) (T.keysOf entries).length)
          data := data
          usedData := m.usedData + T.width } := by
    rw [Kind.insert, if_neg (by rw [h.full_iff]; omega), store, if_pos hi, hentry]
    simp only [Lib.some_bind, hdata]
    rfl
  refine ⟨_, hinsert, ⟨?_, ?_⟩⟩
  · rw [length_append, length_singleton, show 2 ^ b - (entries.length + 1) = spare by omega]
    exact hnext
  · rw [show T.keysOf (entries ++ [some e]) = T.keysOf entries ++ [some (T.keyOf e)] from
      map_append]
    refine h.indexed.insert hlaw (by rw [keysOf_length]; exact hroom) hfree hreach ?_
    rw [reduceOption_keysOf]
    exact forall_mem_map.2 hnew

/-! ## Methods that search for no key -/

namespace Valid

variable (h : Valid T hashing m entries)
include h

theorem layout : ∃ spare, Layout T m entries spare := by
  rcases h with ⟨hfresh, rfl⟩ | ⟨b, hsound⟩
  · exact ⟨0, hfresh.layout⟩
  · exact ⟨_, hsound.layout⟩

theorem distinct : Distinct hashing (entries.reduceOption.map T.keyOf) := by
  rcases h with ⟨-, rfl⟩ | ⟨b, hsound⟩
  · exact List.Pairwise.nil
  · exact hsound.distinct

theorem clear : ∃ entries', Valid T hashing (T.clear m) entries' ∧ entries'.reduceOption = [] := by
  obtain ⟨spare, hlayout⟩ := h.layout
  have hcleared := hlayout.clear
  cases hempty : T.isEmpty m with
  | true =>
    refine ⟨entries, ?_, hlayout.isEmpty_iff.1 hempty⟩
    rw [Kind.clear, hempty]
    exact h
  | false =>
    rw [hempty] at hcleared
    refine ⟨[], .inl ⟨⟨hcleared, ?_⟩, rfl⟩, rfl⟩
    rw [Kind.clear, hempty]
    rfl

/-- The lists that `_quickCopy` takes over hold what putting all entries would give. -/
theorem quickCopy {other : Fields C} {entries' : List (Option E)}
    (hempty : entries.reduceOption = []) (hother : Valid T hashing other entries')
    (hcopy : quickCopy m other = some m') :
    ∃ entries'', Valid T hashing m' entries'' ∧ entries''.reduceOption = entries'.reduceOption := by
  obtain ⟨spare, hlayout⟩ := hother.layout
  rw [CompactHash.quickCopy] at hcopy
  split at hcopy
  · cases hcopy
  split at hcopy
  · rename_i hused
    cases hcopy
    rw [hlayout.used_eq, Nat.mul_eq_zero] at hused
    obtain rfl : entries' = [] := length_eq_zero_iff.1 (hused.resolve_left T.width_pos.ne')
    exact ⟨entries, h, hempty⟩
  · rename_i hused
    split at hcopy
    · cases hcopy
    · cases hcopy
      refine ⟨entries', ?_, rfl⟩
      rcases hother with ⟨hfresh, rfl⟩ | ⟨b, hsound⟩
      · exact absurd hfresh.layout.used_eq hused
      · exact .inr ⟨b, hsound.layout.quickCopy m.allocated, hsound.indexed⟩

end Valid

/-! ## Rehashing -/

theorem Sound.allocate (m : Fields C) (hb : 2 ≤ b) (hb' : b ≤ 31) (hmask : mask < 2 ^ (32 - b)) :
    Sound T hashing b (T.allocate m (2 ^ (b + 1)) mask) [] where
  layout := by
    rw [length_nil, Nat.sub_zero, Nat.pow_succ']
    exact Layout.allocate m _ mask
  indexed := Indexed.empty hashing hb hb' hmask

/-- The first insertion allocates an index of the initial size. -/
theorem Fresh.rehash (h : Fresh T m) (hashing : Hashing K) (has63BitSmis : Bool)
    (put : Fields C → E → Option (Fields C)) :
    ∃ m', T.rehash has63BitSmis put m = some m' ∧ Sound T hashing 2 m' [] := by
  have hused : m.usedData = T.width * 0 := h.layout.used_eq
  obtain ⟨mask, hmask, hsize⟩ := initialSize_of_lt (show 1 <<< 1 < 8 by decide) has63BitSmis
    (m.hashMask >>> 1)
  refine ⟨T.allocate m (2 ^ (2 + 1)) mask, ?_, Sound.allocate m (le_refl 2) (by decide) hmask⟩
  have hdeleted : ¬ (m.deletedKeys <<< T.deletedShift > m.usedData) := by
    rw [h.layout.deleted_eq, hused, countP_nil, Nat.zero_shiftLeft]
    exact Nat.not_lt_zero _
  rw [Kind.rehash, if_neg hdeleted, h.index_eq, Kind.init, hused,
    show uninitializedIndex.length <<< 1 = 1 <<< 1 from rfl, hsize, offsets_mul T.width_pos]
  rfl

/--
A method that puts an entry, where a number bounds the depth of its calls: without an equal key it
inserts, otherwise it changes no more than the cells. -/
structure Kind.Puts (T : Kind K E C) (has63BitSmis : Bool) (hashing : Hashing K)
    (put : Nat → Fields C → E → Option (Fields C)) : Prop where
  zero : ∀ m e, put 0 m e = none
  none : ∀ depth m e, T.find hashing m (T.keyOf e) = none → put (depth + 1) m e = none
  absent : ∀ depth m e i, T.find hashing m (T.keyOf e) = some (.absent i) →
    put (depth + 1) m e = T.insert has63BitSmis (put depth) m e
      (hashPattern (hashing.hashCode (T.keyOf e)) m.hashMask m.index.length) i
  found : ∀ depth m e i j m', T.find hashing m (T.keyOf e) = some (.found i j) →
    put (depth + 1) m e = some m' →
      ∃ data, m' = { m with data := data } ∧ data.length = m.data.length

section Puts

variable {has63BitSmis : Bool} {put : Nat → Fields C → E → Option (Fields C)}
  (hput : T.Puts has63BitSmis hashing put) (hlaw : hashing.Lawful) (depth : Nat)
include hput hlaw

theorem Sound.put_append (h : Sound T hashing b m entries)
    (hnew : ∀ p ∈ entries.reduceOption, hashing.equals (T.keyOf e) (T.keyOf p) = false)
    (hroom : entries.length < 2 ^ b) :
    ∃ m', put (depth + 1) m e = some m' ∧ Sound T hashing b m' (entries ++ [some e]) := by
  obtain ⟨i, hfind, hfree, hreach⟩ := h.find_absent hlaw hnew
  rw [hput.absent depth m e i hfind]
  exact h.append hlaw hnew hfree hreach hroom has63BitSmis _

/-- The loop of `_init`. `done` are the entries that are in the new data; as no two keys are equal,
the others are appended. -/
theorem copyLoop_sound (hlayout : Layout T m entries spare) {offsets : List Nat} {rest : List E}
    (hpasses : Passes entries offsets rest) (done : List E)
    (hm : Sound T hashing b m' (done.map some)) (hlen : done.length + rest.length ≤ 2 ^ b)
    (hdistinct : Distinct hashing ((done ++ rest).map T.keyOf)) :
    ∃ m'', T.copyLoop (put (depth + 1)) m.data (offsets.map (T.width * ·)) m' = some m'' ∧
      Sound T hashing b m'' ((done ++ rest).map some) := by
  induction hpasses generalizing done m' with
  | nil =>
    rw [append_nil]
    exact ⟨m', rfl, hm⟩
  | removed hi _ ih =>
    rw [map_cons, Kind.copyLoop, hlayout.read_eq hi]
    exact ih done hm hlen hdistinct
  | @left i offsets e rest hi _ ih =>
    rw [append_cons] at hdistinct ⊢
    have hnew : ∀ p ∈ (done.map some).reduceOption,
        hashing.equals (T.keyOf e) (T.keyOf p) = false := by
      intro p hp
      rw [reduceOption_map_some] at hp
      rw [map_append, map_append] at hdistinct
      exact hdistinct.ne_last hlaw _ (mem_map_of_mem hp)
    rw [length_cons] at hlen
    obtain ⟨m₁, hset, hm₁⟩ := hm.put_append hput hlaw depth hnew (by rw [length_map]; omega)
    obtain ⟨m₂, hloop, hm₂⟩ := ih (done ++ [e]) (by rw [map_append]; exact hm₁)
      (by rw [length_append, length_singleton]; omega) hdistinct
    refine ⟨m₂, ?_, hm₂⟩
    rw [map_cons, Kind.copyLoop, hlayout.read_eq hi]
    simp only [hset, Lib.some_bind]
    exact hloop

section

variable (hlayout : Layout T m entries spare)
  (hdistinct : Distinct hashing (entries.reduceOption.map T.keyOf))
include hlayout hdistinct

theorem init_sound (m₀ : Fields C) (hb : 2 ≤ b) (hb' : b ≤ 31) (hmask : mask < 2 ^ (32 - b))
    (hroom : entries.reduceOption.length ≤ 2 ^ b) :
    ∃ m', T.init has63BitSmis (put (depth + 1)) m₀ (2 ^ (b + 1)) mask m.data m.usedData = some m' ∧
      Sound T hashing b m' (entries.reduceOption.map some) := by
  obtain ⟨m', hloop, hm'⟩ := copyLoop_sound hput hlaw depth hlayout (passes_range entries)
    [] (Sound.allocate m₀ hb hb' hmask) (by rw [length_nil]; omega) hdistinct
  refine ⟨m', ?_, hm'⟩
  rw [Kind.init, initialSize_of_two_le hb, hlayout.used_eq, offsets_mul T.width_pos]
  exact hloop

/-- Rehashing with an index of `2 ^ (b + 1)` pairs. With many removed entries the size stays,
otherwise it doubles, which the pairs of 32 bits allow up to an index of `2 ^ 32`. -/
theorem rehash_sound {index : List UInt32} (hsize : index.length = 2 ^ (b + 1)) (hb : 2 ≤ b)
    (hb' : b ≤ 31) (hmask : mask < 2 ^ (32 - b)) (hlength : entries.length ≤ 2 ^ (b + 1))
    (hgrow : entries.length < 2 * entries.countP Option.isNone ∨ b < 31) :
    ∃ m' b', T.rehash has63BitSmis (put (depth + 1))
        { m with index := index, hashMask := mask } = some m' ∧
      Sound T hashing b' m' (entries.reduceOption.map some) ∧
      (entries.length ≤ 2 ^ b → entries.reduceOption.length < 2 ^ b') := by
  have hcount := reduceOption_length_add entries
  have hpos := Nat.two_pow_pos b
  have hmany : m.deletedKeys <<< T.deletedShift > m.usedData ↔
      entries.length < 2 * entries.countP isNone := by
    rw [Nat.shiftLeft_eq, T.two_pow_deletedShift, hlayout.deleted_eq, hlayout.used_eq,
      Nat.mul_comm, Nat.mul_comm 2, Nat.mul_assoc]
    exact Nat.mul_lt_mul_left T.width_pos
  rw [Kind.rehash]
  dsimp only
  split
  · rename_i hdeleted
    obtain ⟨m', hinit, hm'⟩ :=
      init_sound hput hlaw depth hlayout hdistinct _ hb hb' hmask (by omega)
    refine ⟨m', b, ?_, hm', fun _ => by omega⟩
    rw [hsize]
    exact hinit
  · rename_i hdeleted
    have hb31 : b < 31 := hgrow.resolve_left fun hlt => hdeleted (hmany.2 hlt)
    have hdouble : index.length <<< 1 = 2 ^ (b + 1 + 1) := by
      rw [hsize, shiftLeft_one, ← Nat.pow_succ']
    obtain ⟨m', hinit, hm'⟩ := init_sound hput hlaw depth hlayout hdistinct _
      (show 2 ≤ b + 1 by omega) (by omega) (mask_half_lt hmask hb31) (by omega)
    refine ⟨m', b + 1, ?_, hm', fun _ => by omega⟩
    rw [hdouble]
    exact hinit

end

/-! ## Methods that search for a key -/

theorem Sound.put_new (h : Sound T hashing b m entries)
    (hnew : ∀ p ∈ entries.reduceOption, hashing.equals (T.keyOf e) (T.keyOf p) = false)
    (hgrow : entries.length = 2 ^ b → entries.length < 2 * entries.countP isNone ∨ b < 31) :
    ∃ m' b' entries', put (depth + 2) m e = some m' ∧ Sound T hashing b' m' entries' ∧
      entries'.reduceOption = entries.reduceOption ++ [e] ∧
      (entries.countP isNone = 0 → entries'.countP isNone = 0) := by
  rcases lt_or_ge entries.length (2 ^ b) with hroom | hge
  · obtain ⟨m', hset, hm'⟩ := h.put_append hput hlaw (depth + 1) hnew hroom
    refine ⟨m', b, _, hset, hm', ?_, fun hnone => ?_⟩
    · rw [reduceOption_append, reduceOption_singleton]
      rfl
    · rw [countP_append, hnone]
      rfl
  · have hfull : entries.length = 2 ^ b := le_antisymm h.length_le hge
    obtain ⟨i, hfind, -⟩ := h.find_absent hlaw hnew
    obtain ⟨m₁, b', hrehash, hm₁, hroom⟩ := rehash_sound hput hlaw depth h.layout h.distinct
      h.indexed.size_eq h.indexed.two_le h.indexed.le_31 h.indexed.mask_lt
      (by rw [pow_succ]; omega) (hgrow hfull)
    have hlive : (entries.reduceOption.map some).reduceOption = entries.reduceOption :=
      reduceOption_map_some _
    obtain ⟨m₂, hset, hm₂⟩ := hm₁.put_append hput hlaw depth (by rw [hlive]; exact hnew)
      (by rw [length_map]; exact hroom h.length_le)
    refine ⟨m₂, b', _, ?_, hm₂, ?_, fun _ => ?_⟩
    · rw [hput.absent _ _ _ _ hfind, Kind.insert, if_pos (h.full_iff.2 hfull),
        show T.rehash has63BitSmis (put (depth + 1)) m = some m₁ from hrehash]
      exact hset
    · rw [reduceOption_append, reduceOption_singleton, hlive]
      rfl
    · rw [countP_append, countP_map]
      simp

theorem Fresh.put_first (h : Fresh T m) (e : E) :
    ∃ m', put (depth + 2) m e = some m' ∧ Sound T hashing 2 m' [some e] := by
  obtain ⟨m₁, hrehash, hm₁⟩ := h.rehash hashing has63BitSmis (put (depth + 1))
  obtain ⟨m₂, hset, hm₂⟩ := hm₁.put_append hput hlaw depth (e := e)
    (fun p hp => absurd hp (by simp)) (Nat.two_pow_pos 2)
  refine ⟨m₂, ?_, hm₂⟩
  rw [hput.absent _ _ _ _ (h.find hashing _), Kind.insert, if_pos (h.layout.full_iff.2 rfl),
    hrehash]
  exact hset

theorem Valid.put_new (h : Valid T hashing m entries)
    (hnew : ∀ p ∈ entries.reduceOption, hashing.equals (T.keyOf e) (T.keyOf p) = false)
    (hcap : (entries.reduceOption ++ [e]).length ≤ maxKeys) :
    ∃ m' entries', put (depth + 2) m e = some m' ∧ Valid T hashing m' entries' ∧
      entries'.reduceOption = entries.reduceOption ++ [e] := by
  rcases h with ⟨hfresh, rfl⟩ | ⟨b, hsound⟩
  · obtain ⟨m', hset, hm'⟩ := hfresh.put_first hput hlaw depth e
    exact ⟨m', _, hset, .inr ⟨2, hm'⟩, rfl⟩
  · rw [length_append, length_singleton] at hcap
    obtain ⟨m', b', entries', hset, hm', hlive, -⟩ := hsound.put_new hput hlaw depth hnew
      fun hfull => grows_of_lt_maxKeys hfull hcap (reduceOption_length_add entries)
    exact ⟨m', entries', hset, .inr ⟨b', hm'⟩, hlive⟩

end Puts

/-- What the search for a key tells about the entries that are left. -/
theorem Valid.find_cases (h : Valid T hashing m entries) (hlaw : hashing.Lawful) (key : K) :
    (∃ i j e b l l', T.find hashing m key = some (.found i j) ∧ Sound T hashing b m entries ∧
      entries[j]? = some (some e) ∧ hashing.equals key (T.keyOf e) = true ∧
      m.index[i]? = some (pairOf hashing m.hashMask m.index.length (T.keyOf e) j) ∧
      entries.reduceOption = l ++ e :: l' ∧
      (∀ p ∈ l, hashing.equals key (T.keyOf p) = false) ∧
      (∀ e', (entries.set j (some e')).reduceOption = l ++ e' :: l') ∧
      (entries.set j none).reduceOption = l ++ l') ∨
    (∃ i, T.find hashing m key = some (.absent i) ∧
      ∀ p ∈ entries.reduceOption, hashing.equals key (T.keyOf p) = false) := by
  rcases h with ⟨hfresh, rfl⟩ | ⟨b, hsound⟩
  · exact .inr ⟨0, hfresh.find hashing key, by simp⟩
  · rcases hsound.find_cases hlaw key with ⟨i, j, e, hfind, hj, heq, hi⟩ | ⟨i, hfind, -, -, hnew⟩
    · obtain ⟨l, l', hsplit, hbefore, hset, herased⟩ :=
        hsound.distinct.split_found rfl hlaw hj heq
      exact .inl ⟨i, j, e, b, l, l', hfind, hsound, hj, heq, hi, hsplit, hbefore, hset, herased⟩
    · exact .inr ⟨i, hfind, hnew⟩

/-- The cells of an entry that was found, with its pair marked as deleted in the index. -/
theorem Sound.remove (h : Sound T hashing b m entries) (hj : entries[j]? = some (some e))
    (hi : m.index[i]? = some (pairOf hashing m.hashMask m.index.length (T.keyOf e) j)) :
    ∃ pre post, store m.index i deletedPair = some (m.index.set i deletedPair) ∧
      m.data = pre ++ (T.cells (some e) ++ post) ∧ pre.length = T.width * j ∧
      Sound T hashing b
        { m with
          index := m.index.set i deletedPair
          data := pre ++ (T.cells none ++ post)
          deletedKeys := m.deletedKeys + 1 } (entries.set j none) := by
  obtain ⟨pre, post, hdata, hpre, hset⟩ := h.layout.split hj
  have hlayout := hset none (m.index.set i deletedPair) length_set
  rw [countP_set_none hj, ← h.layout.deleted_eq] at hlayout
  refine ⟨pre, post, if_pos (List.getElem?_eq_some_iff.1 hi).1, hdata, hpre, ?_, ?_⟩
  · rw [length_set]
    exact hlayout
  · rw [show T.keysOf (entries.set j none) = (T.keysOf entries).set j none from map_set]
    exact h.indexed.remove (keysOf_getElem? hj) hi

/-! ## Beyond the bound -/

section Shape

variable {has63BitSmis : Bool} {put : Nat → Fields C → E → Option (Fields C)} {depth n : Nat}
  (hput : T.Puts has63BitSmis hashing put)
include hput

/-- The sizes of the lists and the mask change in a rehash only. -/
def SameShape (used : Nat) (m m' : Fields C) : Prop :=
  m'.index.length = m.index.length ∧ m'.hashMask = m.hashMask ∧ m'.data.length = m.data.length ∧
    m'.usedData ≤ m.usedData + used

omit hput in
theorem length_storeAll {cells data data' : List C} {d : Nat}
    (h : storeAll data d cells = some data') : data'.length = data.length := by
  induction cells generalizing data d with
  | nil =>
    cases h
    rfl
  | cons cell cells ih =>
    obtain ⟨data₁, hstore, h⟩ := bind_eq_some_iff.1 h
    rw [ih h, (store_eq_some hstore).2, length_set]

theorem put_shape (hroom : m.usedData ≠ m.data.length) (h : put depth m e = some m') :
    SameShape T.width m m' := by
  cases depth with
  | zero =>
    rw [hput.zero] at h
    cases h
  | succ depth =>
    cases hfind : T.find hashing m (T.keyOf e) with
    | none =>
      rw [hput.none _ _ _ hfind] at h
      cases h
    | some found =>
      cases found with
      | found i j =>
        obtain ⟨data, rfl, hdata⟩ := hput.found _ _ _ _ _ _ hfind h
        exact ⟨rfl, rfl, hdata, le_add_right _ _⟩
      | absent i =>
        rw [hput.absent _ _ _ _ hfind, Kind.insert, if_neg hroom] at h
        obtain ⟨index, hindex, h⟩ := bind_eq_some_iff.1 h
        obtain ⟨data, hdata, h⟩ := bind_eq_some_iff.1 h
        cases h
        refine ⟨?_, rfl, length_storeAll hdata, le_refl _⟩
        rw [(store_eq_some hindex).2, length_set]

/-- Copying into lists with enough room never leads to another rehash. -/
theorem copyLoop_shape {oldData : List C} {offsets : List Nat}
    (hroom : m.usedData + T.width * offsets.length < m.data.length)
    (h : T.copyLoop (put depth) oldData offsets m = some m') :
    SameShape (T.width * offsets.length) m m' := by
  induction offsets generalizing m with
  | nil =>
    cases h
    exact ⟨rfl, rfl, rfl, le_refl _⟩
  | cons i offsets ih =>
    rw [length_cons, Nat.mul_succ] at hroom ⊢
    rw [Kind.copyLoop] at h
    split at h
    · cases h
    · obtain ⟨hindex, hmask, hdata, hused⟩ := ih (by omega) h
      exact ⟨hindex, hmask, hdata, by omega⟩
    · obtain ⟨m₁, hset, h⟩ := bind_eq_some_iff.1 h
      obtain ⟨hindex₁, hmask₁, hdata₁, hused₁⟩ := put_shape hput (by omega) hset
      obtain ⟨hindex, hmask, hdata, hused⟩ := ih (by omega) h
      exact ⟨hindex.trans hindex₁, hmask.trans hmask₁, hdata.trans hdata₁, by omega⟩

/-- The rehash of a full collection whose index has the greatest size, followed by the insertion. -/
theorem Sound.put_overflows (h : Sound T hashing 31 m entries) (hfull : entries.length = 2 ^ 31)
    (hlive : entries.countP isNone = 0) (hset : put depth m e = some m') (hlaw : hashing.Lawful)
    (hnew : ∀ p ∈ entries.reduceOption, hashing.equals (T.keyOf e) (T.keyOf p) = false) :
    m'.index.length = 2 ^ 33 ∧ m'.hashMask = 0 := by
  obtain ⟨i, hfind, -⟩ := h.find_absent hlaw hnew
  cases depth with
  | zero =>
    rw [hput.zero] at hset
    cases hset
  | succ depth =>
    rw [hput.absent _ _ _ _ hfind, Kind.insert, if_pos (h.full_iff.2 hfull)] at hset
    obtain ⟨m₁, hrehash, hset⟩ := bind_eq_some_iff.1 hset
    have hdeleted : ¬ (m.deletedKeys <<< T.deletedShift > m.usedData) := by
      rw [h.layout.deleted_eq, hlive, Nat.zero_shiftLeft]
      exact not_lt_zero _
    have hsize : m.index.length <<< 1 = 2 ^ (32 + 1) := by
      rw [h.indexed.size_eq]
      rfl
    have hmask : m.hashMask >>> 1 = 0 := by
      have := h.indexed.mask_lt
      omega
    rw [Kind.rehash, if_neg hdeleted, Kind.init, hsize,
      initialSize_of_two_le (show 2 ≤ 32 by decide), hmask, h.layout.used_eq,
        offsets_mul T.width_pos,
      hfull] at hrehash
    have hpos := T.width_pos
    have hdata : (T.allocate m (2 ^ (32 + 1)) 0).data.length = T.width * 2 ^ 32 := by
      rw [Kind.allocate, length_replicate, Nat.pow_succ', T.dataLength_double]
    have hindex : (T.allocate m (2 ^ (32 + 1)) 0).index.length = 2 ^ (32 + 1) := length_replicate
    have hused : (T.allocate m (2 ^ (32 + 1)) 0).usedData = 0 := rfl
    obtain ⟨hindex₁, hmask₁, hdata₁, hused₁⟩ := copyLoop_shape hput
      (by rw [hdata, hused, length_map, length_range]; omega) hrehash
    rw [hused, length_map, length_range] at hused₁
    obtain ⟨hindex₂, hmask₂, -, -⟩ := put_shape hput (by rw [hdata₁, hdata]; omega) hset
    exact ⟨(hindex₂.trans hindex₁).trans hindex, hmask₂.trans hmask₁⟩

end Shape

section Fill

variable {T : Kind Nat E C} {entry : Nat → E} {has63BitSmis : Bool}
  {put : Nat → Fields C → E → Option (Fields C)} {n : Nat}

/-- The numbers below `n` have been put, and no entry is wasted. -/
def Filled (T : Kind Nat E C) (entry : Nat → E) (n : Nat) (m : Fields C) : Prop :=
  n = 0 ∧ Fresh T m ∨
    ∃ b entries, Sound T collidingNumbers b m entries ∧ entries.countP Option.isNone = 0 ∧
      entries.reduceOption = (List.range n).map entry

theorem equals_range (he : e ∈ (range n).map entry) (hentry : ∀ k, T.keyOf (entry k) = k) :
    collidingNumbers.equals n (T.keyOf e) = false := by
  obtain ⟨k, hk, rfl⟩ := mem_map.1 he
  have hlt := mem_range.1 hk
  rw [hentry]
  exact beq_eq_false_iff_ne.2 (by omega)

section

variable (hentry : ∀ k, T.keyOf (entry k) = k) (hput : T.Puts has63BitSmis collidingNumbers put)
include hentry hput

/-- Up to `2 ^ 31` numbers everything is in order. -/
theorem Filled.put_next (h : Filled T entry n m) (hn : n < 2 ^ 31) (depth : Nat) :
    ∃ m', put (depth + 2) m (entry n) = some m' ∧ Filled T entry (n + 1) m' := by
  rcases h with ⟨rfl, hfresh⟩ | ⟨b, entries, hsound, hlive, hkeys⟩
  · obtain ⟨m', hset, hsound⟩ := hfresh.put_first hput collidingNumbers_lawful depth (entry 0)
    exact ⟨m', hset, .inr ⟨2, _, hsound, rfl, rfl⟩⟩
  have hcount : entries.length = n := by
    simpa [hkeys, hlive] using (reduceOption_length_add entries).symm
  obtain ⟨m', b', entries', hset, hsound', hkeys', hlive'⟩ :=
    hsound.put_new hput collidingNumbers_lawful depth
      (fun p hp => by rw [hentry]; exact equals_range (hkeys ▸ hp) hentry)
      (fun hfull => .inr ((Nat.pow_lt_pow_iff_right (a := 2) (by decide)).1 (by omega)))
  refine ⟨m', hset, .inr ⟨b', entries', hsound', hlive' hlive, ?_⟩⟩
  rw [hkeys', hkeys, range_succ, map_append]
  rfl

/-- One more number, and no key is found. -/
theorem Filled.overflows (h : Filled T entry n m) (hn : n = 2 ^ 31) {depth : Nat}
    (hset : put depth m (entry n) = some m') (key : Nat) :
    T.find collidingNumbers m' key ≠ some (.found i j) := by
  obtain ⟨b, entries, hsound, hlive, hkeys⟩ := h.resolve_left fun h => by omega
  have hcount : entries.length = 2 ^ 31 := by
    simpa [hkeys, hlive, ← hn] using (reduceOption_length_add entries).symm
  obtain rfl : b = 31 := by
    refine le_antisymm hsound.indexed.le_31 ?_
    exact (Nat.pow_le_pow_iff_right (a := 2) (by decide)).1 (hcount ▸ hsound.length_le)
  obtain ⟨hindex, hmask⟩ := hsound.put_overflows hput hcount hlive hset
    collidingNumbers_lawful fun p hp => by rw [hentry]; exact equals_range (hkeys ▸ hp) hentry
  exact probe_of_overflow hindex hmask

end

end Fill

end Dart2Wasm.CompactHash
