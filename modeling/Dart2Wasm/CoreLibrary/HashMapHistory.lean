import Dart2Wasm.CoreLibrary.HashMap

/-!
# HashMapHistory — what the methods leave of the earlier state

`_data` is written in place until it is replaced by a new list; while it stays the same object,
`_usedData` and `_deletedKeys` only grow, and as long as neither grows the index and the keys are
the same too.
This is what makes the check sum a test for modification. The results here need no invariant of the
index: they hold for whatever a method returns, if it returns.
-/

namespace Dart2Wasm.CompactHash.LinkedHashMap

open List Nat Option

variable {K V : Type} {m m' m'' : Fields K V}
variable {oldData : List (Cell K V)} {has63BitSmis threw : Bool} {hashing : Hashing K}
  {heap heap' : Heap K V}
variable {offsets : List Nat} {key : K} {value : V} {depth id : Nat} {rt : Runtime K}

/-! ## The cells of a pair -/

section Cells

variable {entries : List (Option (K × V))} {spare j : Nat} {k : K} {v : V}

section

variable (h : Layout kind m entries spare)
include h

theorem used_eq : m.usedData = 2 * entries.length :=
  h.used_eq

theorem pair_cells {e : Option (K × V)} (hj : entries[j]? = some e) :
    m.data[2 * j]? = some (keyCell e) ∧ m.data[2 * j + 1]? = some (valueCell e) := by
  obtain ⟨pre, post, hdata, hpre, -⟩ := h.split hj
  rw [hdata, ← show pre.length = 2 * j from hpre]
  simp [kind]

theorem valueAt_eq (hj : entries[j]? = some (some (k, v))) :
    valueAt m.data (2 * j + 1) = some v := by
  rw [valueAt, (pair_cells h hj).2]
  rfl

theorem store_value (hj : entries[j]? = some (some (k, v))) (v' : V) :
    ∃ data, store m.data (2 * j + 1) (.value v') = some data ∧
      Layout kind { m with data := data } (entries.set j (some (k, v'))) spare := by
  obtain ⟨pre, post, hdata, hpre, hset⟩ := h.split hj
  have hstore := store_append (pre ++ [.key k]) (Cell.value v) (.value v') post
  have hlayout := hset (some (k, v')) m.index rfl
  rw [countP_set_some hj, ← h.deleted_eq] at hlayout
  refine ⟨_, ?_, hlayout⟩
  rw [hdata, ← show pre.length = 2 * j from hpre]
  simpa [kind, keyCell, valueCell] using hstore

end

/-- The two cells that `remove` marks, and the value it reads in between. -/
theorem store_deleted (pre post : List (Cell K V)) (k : K) (v : V) :
    ∃ data, store (pre ++ (kind.cells (some (k, v)) ++ post)) pre.length .deleted = some data ∧
      valueAt data (pre.length + 1) = some v ∧
      store data (pre.length + 1) .deleted = some (pre ++ (kind.cells none ++ post)) := by
  have hstore := store_append (pre ++ [.deleted]) (Cell.value v) .deleted post
  refine ⟨pre ++ .deleted :: .value v :: post, store_append .., by simp [valueAt], ?_⟩
  simpa [kind, keyCell, valueCell] using hstore

end Cells

def LaidOut (m : Fields K V) : Prop :=
  ∃ entries spare, Layout kind m entries spare

/-- How a map can have changed between two moments. -/
structure Evolves (m m' : Fields K V) : Prop where
  allocated_le : m.allocated ≤ m'.allocated
  dataId_cases : m'.dataId = m.dataId ∨ m'.dataId = 0 ∨ m.allocated < m'.dataId
  used_le : m'.dataId = m.dataId → m.usedData ≤ m'.usedData
  deleted_le : m'.dataId = m.dataId → m.deletedKeys ≤ m'.deletedKeys
  index_eq : m'.dataId = m.dataId → m'.usedData = m.usedData → m'.deletedKeys = m.deletedKeys →
    m'.index = m.index ∧ m'.hashMask = m.hashMask ∧
      ∀ j, kind.keyAt m'.data (2 * j) = kind.keyAt m.data (2 * j)

/-- A method leaves the cells laid out, and a later state of the map. -/
def Next (m m' : Fields K V) : Prop :=
  LaidOut m' ∧ Evolves m m'

theorem Evolves.refl (m : Fields K V) : Evolves m m where
  allocated_le := Nat.le_refl _
  dataId_cases := .inl rfl
  used_le _ := Nat.le_refl _
  deleted_le _ := Nat.le_refl _
  index_eq _ _ _ := ⟨rfl, rfl, fun _ => rfl⟩

theorem Evolves.of_ne (hall : m.allocated ≤ m'.allocated)
    (hcases : m'.dataId = 0 ∨ m.allocated < m'.dataId) (hne : m'.dataId ≠ m.dataId) :
    Evolves m m' where
  allocated_le := hall
  dataId_cases := .inr hcases
  used_le hid := absurd hid hne
  deleted_le hid := absurd hid hne
  index_eq hid := absurd hid hne

/-- A map that has the shared data list holds nothing. -/
theorem LaidOut.shared (h : LaidOut m) (hid : m.dataId = 0) :
    m.index = uninitializedIndex ∧ m.hashMask = uninitializedHashMask ∧ m.data = [] ∧
      m.usedData = 0 ∧ m.deletedKeys = 0 := by
  obtain ⟨entries, spare, hlayout⟩ := h
  obtain ⟨hindex, hmask, hnil⟩ := hlayout.shared_empty hid
  obtain ⟨rfl, -⟩ := hlayout.entries_eq_nil hnil
  exact ⟨hindex, hmask, hnil, hlayout.used_eq, hlayout.deleted_eq⟩

theorem Evolves.trans (h : Evolves m m') (h' : Evolves m' m'') (hm : LaidOut m)
    (hm'' : LaidOut m'') : Evolves m m'' := by
  obtain ⟨entries, spare, hlayout⟩ := id hm
  have hle := hlayout.dataId_le
  have hall := h.allocated_le
  -- a list that is back is either the same one all along or the shared one
  have hback : m''.dataId = m.dataId →
      m'.dataId = m.dataId ∧ m''.dataId = m'.dataId ∨ m.dataId = 0 ∧ m''.dataId = 0 := by
    intro hid
    by_cases hid' : m'.dataId = m.dataId
    · exact .inl ⟨hid', hid.trans hid'.symm⟩
    · rcases h'.dataId_cases with heq | hzero | hnew
      · exact absurd (heq.symm.trans hid) hid'
      · exact .inr ⟨hid.symm.trans hzero, hzero⟩
      · omega
  refine ⟨hall.trans h'.allocated_le, ?_, fun hid => ?_, fun hid => ?_, fun hid hused hdel => ?_⟩
  · rcases h'.dataId_cases with heq | hzero | hnew
    · rw [heq]
      exact h.dataId_cases
    · exact .inr (.inl hzero)
    · exact .inr (.inr (by omega))
  · rcases hback hid with ⟨h₁, h₂⟩ | ⟨h₁, h₂⟩
    · exact (h.used_le h₁).trans (h'.used_le h₂)
    · rw [(hm.shared h₁).2.2.2.1]
      exact zero_le _
  · rcases hback hid with ⟨h₁, h₂⟩ | ⟨h₁, h₂⟩
    · exact (h.deleted_le h₁).trans (h'.deleted_le h₂)
    · rw [(hm.shared h₁).2.2.2.2]
      exact zero_le _
  · rcases hback hid with ⟨h₁, h₂⟩ | ⟨h₁, h₂⟩
    · have hu₁ := h.used_le h₁
      have hu₂ := h'.used_le h₂
      have hd₁ := h.deleted_le h₁
      have hd₂ := h'.deleted_le h₂
      obtain ⟨hi₁, hk₁, hkeys₁⟩ := h.index_eq h₁ (by omega) (by omega)
      obtain ⟨hi₂, hk₂, hkeys₂⟩ := h'.index_eq h₂ (by omega) (by omega)
      exact ⟨hi₂.trans hi₁, hk₂.trans hk₁, fun j => (hkeys₂ j).trans (hkeys₁ j)⟩
    · obtain ⟨hi, hk, hnil, -⟩ := hm.shared h₁
      obtain ⟨hi', hk', hnil', -⟩ := hm''.shared h₂
      refine ⟨hi'.trans hi.symm, hk'.trans hk.symm, fun j => ?_⟩
      rw [hnil, hnil']

theorem Next.refl (h : LaidOut m) : Next m m :=
  ⟨h, .refl m⟩

theorem Next.trans (hm : LaidOut m) (h : Next m m') (h' : Next m' m'') : Next m m'' :=
  ⟨h'.1, h.2.trans h'.2 hm h'.1⟩

/-- The check sum tells every change of the index and the keys. -/
theorem Evolves.of_not_modified (h : Evolves m m')
    (hmod : isModifiedSince m' m.dataId (checkSum m) = false) :
    m'.index = m.index ∧ m'.hashMask = m.hashMask ∧
      ∀ j, kind.keyAt m'.data (2 * j) = kind.keyAt m.data (2 * j) := by
  rw [isModifiedSince, Bool.or_eq_false_iff, bne_eq_false_iff_eq, bne_eq_false_iff_eq, checkSum,
    checkSum] at hmod
  obtain ⟨hid, hsum⟩ := hmod
  have hu := h.used_le hid
  have hd := h.deleted_le hid
  exact h.index_eq hid (by omega) (by omega)

/-! ## The methods -/

/-- A new data list is unlike all lists the map had before. -/
theorem Next.allocate (hm : LaidOut m) (n mask : Nat) : Next m (kind.allocate m (2 * n) mask) := by
  obtain ⟨entries, spare, hlayout⟩ := hm
  have hle := hlayout.dataId_le
  have hne : (kind.allocate m (2 * n) mask).dataId ≠ m.dataId :=
    show m.allocated + 1 ≠ m.dataId by omega
  exact ⟨⟨[], n, Layout.allocate m n mask⟩, .of_ne (le_succ _) (.inr (lt_succ_self _)) hne⟩

section Insert

variable {put : Fields K V → K × V → Option (Fields K V)}

section

variable (hput : ∀ m e m', LaidOut m → put m e = some m' → Next m m')
include hput

theorem copyLoop_next (hm : LaidOut m)
    (h : kind.copyLoop put oldData offsets m = some m') : Next m m' := by
  induction offsets generalizing m with
  | nil =>
    cases h
    exact .refl hm
  | cons i offsets ih =>
    rw [Kind.copyLoop] at h
    split at h
    · cases h
    · exact ih hm h
    · obtain ⟨m₁, hset, h⟩ := bind_eq_some_iff.1 h
      have hnext := hput _ _ _ hm hset
      exact hnext.trans hm (ih hnext.1 h)

theorem init_next {size mask used : Nat} (hm : LaidOut m) (hsize : size < 8 ∨ ∃ n, size = 2 * n)
    (h : kind.init has63BitSmis put m size mask oldData used = some m') : Next m m' := by
  rw [Kind.init] at h
  split at h
  · cases h
  rename_i size' mask' hinit
  have heven : ∃ n, size' = 2 * n := by
    rw [initialSize] at hinit
    split at hinit
    · obtain ⟨_, -, hpair⟩ := map_eq_some_iff.1 hinit
      cases hpair
      exact ⟨4, rfl⟩
    · rename_i hge
      cases hinit
      exact hsize.resolve_left hge
  obtain ⟨n, rfl⟩ := heven
  have hnew := Next.allocate hm n mask'
  exact hnew.trans hm (copyLoop_next hput hnew.1 h)

theorem rehash_next (hm : LaidOut m) (h : kind.rehash has63BitSmis put m = some m') :
    Next m m' := by
  have hsize : m.index.length < 8 ∨ ∃ n, m.index.length = 2 * n := by
    obtain ⟨entries, spare, hlayout⟩ := id hm
    rcases hlayout.index_length with ⟨hindex, -⟩ | hlen
    · rw [hindex]
      exact .inl (by decide)
    · exact .inr ⟨_, hlen⟩
  rw [Kind.rehash] at h
  split at h
  · exact init_next hput hm hsize h
  · exact init_next hput hm (.inr ⟨_, shiftLeft_one _⟩) h

theorem insert_next {pattern i : Nat} {e : K × V} (hm : LaidOut m)
    (h : kind.insert has63BitSmis put m e pattern i = some m') : Next m m' := by
  rw [Kind.insert] at h
  split at h
  · obtain ⟨m₁, hrehash, h⟩ := bind_eq_some_iff.1 h
    have hnext := rehash_next hput hm hrehash
    exact hnext.trans hm (hput _ _ _ hnext.1 h)
  rename_i hfull
  obtain ⟨index, hindex, h⟩ := bind_eq_some_iff.1 h
  obtain ⟨data, hdata, h⟩ := bind_eq_some_iff.1 h
  cases h
  obtain ⟨entries, spare, hlayout⟩ := hm
  rw [hlayout.full_iff] at hfull
  obtain ⟨spare, rfl⟩ := exists_eq_succ_of_ne_zero hfull
  have hlen : index.length = m.index.length := by
    rw [(store_eq_some hindex).2, length_set]
  obtain ⟨data', hdata', hnext⟩ := hlayout.append e index hlen
  rw [hdata] at hdata'
  cases hdata'
  exact ⟨⟨_, _, hnext⟩,
    { allocated_le := le_refl _
      dataId_cases := .inl rfl
      used_le := fun _ => le_add_right _ 2
      deleted_le := fun _ => le_refl _
      index_eq := fun _ hused => absurd hused (by simp [kind]) }⟩

end

end Insert

theorem indexSet_next (depth : Nat) (hm : LaidOut m)
    (h : indexSet has63BitSmis hashing depth m key value = some m') : Next m m' := by
  induction depth generalizing m m' key value with
  | zero => cases h
  | succ depth ih =>
    rw [indexSet, findValueOrInsertPoint] at h
    cases hfind : kind.find hashing m key with
    | none =>
      rw [hfind] at h
      cases h
    | some found =>
      rw [hfind] at h
      cases found with
      | absent i =>
        have hneg : ¬ (-(i : Int) > 0) := by omega
        simp only [if_neg hneg] at h
        exact insert_next (fun _ _ _ hm h => ih hm h) hm h
      | found i j =>
        have hpos : ((j <<< 1 : Nat) : Int) + 1 > 0 := by omega
        have hnat : (((j <<< 1 : Nat) : Int) + 1).toNat = 2 * j + 1 := by
          omega
        simp only [if_pos hpos, hnat] at h
        obtain ⟨data, hstore, h⟩ := bind_eq_some_iff.1 h
        cases h
        obtain ⟨entries, spare, hlayout⟩ := hm
        obtain ⟨⟨k, v⟩, hj⟩ := hlayout.entry_of_find hfind
        obtain ⟨data', hstore', hnext⟩ := store_value hlayout hj value
        rw [hstore] at hstore'
        cases hstore'
        exact ⟨⟨_, _, hnext⟩,
          { allocated_le := le_refl _
            dataId_cases := .inl rfl
            used_le := fun _ => le_refl _
            deleted_le := fun _ => le_refl _
            index_eq := fun _ _ _ => ⟨rfl, rfl, fun j' => by
              rw [(store_eq_some hstore).2, Kind.keyAt, getElem?_set_ne (by omega), Kind.keyAt]⟩ }⟩

theorem putAbsent_next {old : Fields K V} {d : Int} (hm : LaidOut m)
    (h : putAbsent has63BitSmis hashing depth old m key value d = some m') : Next m m' := by
  rw [putAbsent] at h
  split at h
  · exact indexSet_next depth hm h
  · exact insert_next (fun _ _ _ hm h => indexSet_next depth hm h) hm h

theorem remove_next {v : Option V} (hm : LaidOut m)
    (h : remove hashing m key = some (m', v)) : Next m m' := by
  rw [remove] at h
  cases hfind : kind.find hashing m key with
  | none =>
    rw [hfind] at h
    cases h
  | some found =>
    rw [hfind] at h
    cases found with
    | absent i =>
      cases h
      exact .refl hm
    | found i j =>
      simp only [shiftLeft_one] at h
      obtain ⟨index, hindex, h⟩ := bind_eq_some_iff.1 h
      obtain ⟨data, hkey, h⟩ := bind_eq_some_iff.1 h
      obtain ⟨value, -, h⟩ := bind_eq_some_iff.1 h
      obtain ⟨data', hvalue, h⟩ := bind_eq_some_iff.1 h
      cases h
      obtain ⟨entries, spare, hlayout⟩ := hm
      obtain ⟨⟨k, v⟩, hj⟩ := hlayout.entry_of_find hfind
      obtain ⟨pre, post, hsplit, hpre, hset⟩ := hlayout.split hj
      obtain ⟨data₁, hkey', -, hvalue'⟩ := store_deleted pre post k v
      rw [← hsplit, show pre.length = 2 * j from hpre, hkey] at hkey'
      cases hkey'
      rw [show pre.length = 2 * j from hpre, hvalue] at hvalue'
      cases hvalue'
      have hnext := hset none index (by rw [(store_eq_some hindex).2, length_set])
      rw [countP_set_none hj, ← hlayout.deleted_eq] at hnext
      exact ⟨⟨_, _, hnext⟩,
        { allocated_le := le_refl _
          dataId_cases := .inl rfl
          used_le := fun _ => le_refl _
          deleted_le := fun _ => le_succ _
          index_eq := fun _ _ hdel => absurd hdel (by simp) }⟩

theorem clear_next (hm : LaidOut m) : Next m (clear m) := by
  obtain ⟨entries, spare, hlayout⟩ := id hm
  refine ⟨⟨_, _, hlayout.clear⟩, ?_⟩
  rw [clear, Kind.clear]
  split
  · exact .refl m
  rename_i hempty
  -- a map that is not empty has a data list of its own
  have hne : ({ allocated := m.allocated } : Fields K V).dataId ≠ m.dataId := by
    intro hid
    obtain ⟨-, -, -, hused, hdel⟩ := hm.shared hid.symm
    refine hempty ?_
    rw [Kind.isEmpty, Kind.length, hused, hdel]
    rfl
  exact .of_ne (le_refl _) (.inl rfl) hne

theorem quickCopy_next {other : Fields K V} (hm : LaidOut m) (hother : LaidOut other)
    (h : quickCopy m other = some m') : Next m m' := by
  rw [quickCopy] at h
  split at h
  · cases h
  split at h
  · cases h
    exact .refl hm
  split at h
  · cases h
  cases h
  obtain ⟨entries, spare, hlayout⟩ := hm
  obtain ⟨entries', spare', hlayout'⟩ := hother
  have hle := hlayout.dataId_le
  have hne : m.allocated + 1 ≠ m.dataId := by omega
  exact ⟨⟨entries', spare', hlayout'.quickCopy m.allocated⟩,
    .of_ne (le_succ _) (.inr (lt_succ_self _)) hne⟩

/-! ## Programs -/

/-- Every map of the heap is still there, of the same class, in a later state. -/
def HeapNext (heap heap' : Heap K V) : Prop :=
  (∀ object ∈ heap', LaidOut object.fields) ∧
    ∀ (id : Nat) object, heap[id]? = some object →
      ∃ object', heap'[id]? = some object' ∧ object'.cls = object.cls ∧
        Evolves object.fields object'.fields

def HeapLaidOut (heap : Heap K V) : Prop :=
  ∀ object ∈ heap, LaidOut object.fields

theorem HeapNext.refl (h : HeapLaidOut heap) : HeapNext heap heap :=
  ⟨h, fun _ object hid => ⟨object, hid, rfl, .refl _⟩⟩

theorem HeapNext.trans {heap'' : Heap K V} (hheap : HeapLaidOut heap)
    (h : HeapNext heap heap') (h' : HeapNext heap' heap'') : HeapNext heap heap'' := by
  refine ⟨h'.1, fun id object hid => ?_⟩
  obtain ⟨object', hid', hcls', hev'⟩ := h.2 id object hid
  obtain ⟨object'', hid'', hcls'', hev''⟩ := h'.2 id object' hid'
  exact ⟨object'', hid'', hcls''.trans hcls',
    hev'.trans hev'' (hheap _ (mem_of_getElem? hid)) (h'.1 _ (mem_of_getElem? hid''))⟩

theorem HeapNext.set (hheap : HeapLaidOut heap) {object : MapObject K V}
    (hid : heap[id]? = some object) {fields : Fields K V} (hnext : Next object.fields fields) :
    HeapNext heap (heap.set id { object with fields := fields }) := by
  have hlt := (List.getElem?_eq_some_iff.1 hid).1
  constructor
  · intro x hx
    rcases List.mem_or_eq_of_mem_set hx with hx | rfl
    · exact hheap x hx
    · exact hnext.1
  · intro id' object' hid'
    by_cases heq : id = id'
    · subst heq
      rw [hid] at hid'
      cases hid'
      exact ⟨_, List.getElem?_set_self hlt, rfl, hnext.2⟩
    · exact ⟨object', by rw [List.getElem?_set_ne heq, hid'], rfl, .refl _⟩

theorem indexSetAt_next (hheap : HeapLaidOut heap)
    (h : indexSetAt rt depth id heap (key, value) = some heap') : HeapNext heap heap' := by
  obtain ⟨object, hid, h⟩ := bind_eq_some_iff.1 h
  obtain ⟨fields, hset, h⟩ := bind_eq_some_iff.1 h
  cases h
  exact .set hheap hid (indexSet_next depth (hheap _ (mem_of_getElem? hid)) hset)

theorem forEachLoop_next {table : Heap K V → Option (Fields K V)}
    {action : Heap K V → K × V → Option (Heap K V)}
    (haction : ∀ heap p heap', HeapLaidOut heap → action heap p = some heap' → HeapNext heap heap')
    {dataId sum : Nat} (hheap : HeapLaidOut heap)
    (h : forEachLoop table action dataId sum offsets heap = some (heap', threw)) :
    HeapNext heap heap' := by
  induction offsets generalizing heap with
  | nil =>
    cases h
    exact .refl hheap
  | cons offset offsets ih =>
    obtain ⟨m, -, h⟩ := bind_eq_some_iff.1 h
    split at h
    · exact ih hheap h
    · obtain ⟨v, -, h⟩ := bind_eq_some_iff.1 h
      obtain ⟨heap₁, hact, h⟩ := bind_eq_some_iff.1 h
      have hnext := haction _ _ _ hheap hact
      obtain ⟨m₁, -, h⟩ := bind_eq_some_iff.1 h
      split at h
      · cases h
        exact hnext
      · exact hnext.trans hheap (ih hnext.1 h)
    · cases h

theorem addAll_next {other : Nat} (hheap : HeapLaidOut heap)
    (h : addAll rt depth id other heap = some (heap', threw)) : HeapNext heap heap' := by
  have hmixin : ∀ {heap' : Heap K V} {threw : Bool},
      mixinAddAll rt depth id other heap = some (heap', threw) → HeapNext heap heap' := by
    intro heap' threw h
    obtain ⟨m, -, h⟩ := bind_eq_some_iff.1 h
    exact forEachLoop_next (fun _ _ _ hheap h => indexSetAt_next hheap h) hheap h
  obtain ⟨object, hid, h⟩ := bind_eq_some_iff.1 h
  obtain ⟨source, hother, h⟩ := bind_eq_some_iff.1 h
  split at h
  · split at h
    · rename_i fields hcopy
      cases h
      exact .set hheap hid (quickCopy_next (hheap _ (mem_of_getElem? hid))
        (hheap _ (mem_of_getElem? hother)) hcopy)
    · exact hmixin h
  · exact hmixin h

mutual

theorem exec_next (rt : Runtime K) (depth : Nat) :
    ∀ (call : Call K V) {heap heap' : Heap K V} {log : List (Answer K V)}, HeapLaidOut heap →
      exec rt depth call heap = some (heap', log) → HeapNext heap heap'
  | .create cls, heap, heap', log, hheap, h => by
    rw [exec] at h
    cases h
    refine ⟨fun object hmem => ?_, fun id object hid => ?_⟩
    · rcases mem_append.1 hmem with hmem | hmem
      · exact hheap object hmem
      · rw [mem_singleton.1 hmem]
        exact ⟨[], 0, Layout.new⟩
    · have hlt := (List.getElem?_eq_some_iff.1 hid).1
      exact ⟨object, by rw [getElem?_append_left hlt, hid], rfl, .refl _⟩
  | .set id key value, heap, heap', log, hheap, h => by
    rw [exec, onMap] at h
    split at h
    · cases h
      exact .refl hheap
    · obtain ⟨heap₁, hset, hpair⟩ := map_eq_some_iff.1 h
      cases hpair
      exact indexSetAt_next hheap hset
  | .get .., heap, heap', log, hheap, h | .containsKey .., heap, heap', log, hheap, h
  | .pairs _, heap, heap', log, hheap, h => by
    rw [exec, onMap] at h
    split at h
    · cases h
      exact .refl hheap
    · obtain ⟨answer, -, hpair⟩ := map_eq_some_iff.1 h
      cases hpair
      exact .refl hheap
  | .remove id key, heap, heap', log, hheap, h => by
    rw [exec, onMap] at h
    split at h
    · cases h
      exact .refl hheap
    · rename_i object hid
      obtain ⟨⟨fields, v⟩, hremove, hpair⟩ := map_eq_some_iff.1 h
      cases hpair
      have hlaid := hheap _ (mem_of_getElem? hid)
      split at hremove
      · exact .set hheap hid (remove_next hlaid hremove)
      · cases hremove
        exact .set hheap hid (.refl hlaid)
  | .putIfAbsent id key ifAbsent result, heap, heap', log, hheap, h => by
    rw [exec, onMap] at h
    split at h
    · cases h
      exact .refl hheap
    rename_i object hid
    obtain ⟨d, -, h⟩ := bind_eq_some_iff.1 h
    split at h
    · obtain ⟨v, -, hpair⟩ := map_eq_some_iff.1 h
      cases hpair
      exact .refl hheap
    obtain ⟨⟨heap₁, log₁⟩, hbody, h⟩ := bind_eq_some_iff.1 h
    have hnext := execAll_next rt depth ifAbsent hheap hbody
    dsimp only at h
    split at h
    · cases h
      exact hnext
    · obtain ⟨after, hafter, h⟩ := bind_eq_some_iff.1 h
      obtain ⟨fields, hput, h⟩ := bind_eq_some_iff.1 h
      cases h
      exact hnext.trans hheap (.set hnext.1 hafter
        (putAbsent_next (hnext.1 _ (mem_of_getElem? hafter)) hput))
  | .clear id, heap, heap', log, hheap, h => by
    rw [exec, onMap] at h
    split at h
    · cases h
      exact .refl hheap
    · rename_i object hid
      cases h
      exact .set hheap hid (clear_next (hheap _ (mem_of_getElem? hid)))
  | .addAll id other, heap, heap', log, hheap, h => by
    rw [exec] at h
    split at h
    · obtain ⟨⟨heap₁, threw⟩, hadd, hpair⟩ := map_eq_some_iff.1 h
      cases hpair
      exact addAll_next hheap hadd
    · cases h
      exact .refl hheap
  | .length id, heap, heap', log, hheap, h => by
    rw [exec, onMap] at h
    split at h <;> cases h <;> exact .refl hheap

theorem execAll_next (rt : Runtime K) (depth : Nat) :
    ∀ (calls : List (Call K V)) {heap heap' : Heap K V} {log : List (Answer K V)},
      HeapLaidOut heap → execAll rt depth calls heap = some (heap', log) → HeapNext heap heap'
  | [], heap, heap', log, hheap, h => by
    rw [execAll] at h
    cases h
    exact .refl hheap
  | call :: calls, heap, heap', log, hheap, h => by
    rw [execAll] at h
    obtain ⟨⟨heap₁, log₁⟩, hcall, h⟩ := bind_eq_some_iff.1 h
    obtain ⟨⟨heap₂, log₂⟩, hcalls, h⟩ := bind_eq_some_iff.1 h
    cases h
    have hnext := exec_next rt depth call hheap hcall
    exact hnext.trans hheap (execAll_next rt depth calls hnext.1 hcalls)

end

end Dart2Wasm.CompactHash.LinkedHashMap
