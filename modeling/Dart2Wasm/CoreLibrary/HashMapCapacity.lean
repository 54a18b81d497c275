import Dart2Wasm.CoreLibrary.HashMapRefinement

/-!
# HashMapCapacity — how far the refinement goes

Up to `maxKeys` keys a program cannot tell the maps of `compact_hash.dart` from association lists.
Without a bound it can: after `2 ^ 31` insertions the index doubles to `2 ^ 33` pairs, the hash
pattern becomes `2 ^ 32`, and storing a pair in 32 bits drops it. From then on no key is found.
-/

namespace Dart2Wasm.CompactHash.LinkedHashMap

open List Option Nat

variable {K V : Type}
variable {depth n : Nat} {rt : Runtime K}

/-- Every sequence of calls, with callbacks of `putIfAbsent` that make calls themselves, gives the
answers of association lists in insertion order, and leaves maps with the pairs of those lists. The
result exists, so every probe loop has ended. -/
theorem linkedHashMap_refines (rt : Runtime K) (hlaw : ∀ c, (rt.hashing c).Lawful) (depth : Nat)
    (hdepth : 2 ≤ depth) (calls : List (Call K V))
    (hpeak : (specExecAll rt calls {}).1.peak ≤ maxKeys) :
    ∃ heap, execAll rt depth calls [] = some (heap, (specExecAll rt calls {}).2) ∧
      heap.map (fun object => pairs object.fields) =
        (specExecAll rt calls {}).1.maps.map (fun map => some map.pairs) ∧
      heap.map (fun object => length object.fields) =
        (specExecAll rt calls {}).1.maps.map (fun map => (map.pairs.length : Int)) := by
  obtain ⟨depth, rfl⟩ : ∃ d, depth = d + 2 := ⟨depth - 2, by omega⟩
  have hstart : Related rt ([] : Heap K V) {} := .nil
  obtain ⟨heap, hexec, h⟩ := execAll_refines hlaw depth calls hstart hpeak
  refine ⟨heap, hexec, Lib.forall₂_map_eq h ?_, Lib.forall₂_map_eq h ?_⟩
  · rintro object map ⟨-, entries, hvalid, hl⟩
    rw [valid_pairs hvalid, hl]
  · rintro object map ⟨-, entries, hvalid, hl⟩
    obtain ⟨spare, hlayout⟩ := hvalid.layout
    rw [length, hlayout.length_eq, hl]

/-! ## Callbacks that change the map -/

/-- `putIfAbsent` returns, and binds the key in the map that its callback has left. -/
def BindsAbsent (rt : Runtime K) (depth : Nat) (heap : Heap K V) (id : Nat) (key : K)
    (ifAbsent : List (Call K V)) (value : V) : Prop :=
  ∃ heap₁ log after l heap₂ object entries,
    execAll rt depth ifAbsent heap = some (heap₁, log) ∧ heap₁[id]? = some after ∧
    pairs after.fields = some l ∧
    exec rt depth (.putIfAbsent id key ifAbsent (some value)) heap =
      some (heap₂, log ++ [.value (some value)]) ∧
    heap₂[id]? = some object ∧ Valid kind (rt.hashing after.cls) object.fields entries ∧
    entries.reduceOption = put (rt.hashing after.cls) key value l

/-- A callback of `putIfAbsent` may do anything to the maps, within `maxKeys`. -/
theorem putIfAbsent_binds (rt : Runtime K) (hlaw : ∀ c, (rt.hashing c).Lawful) (depth : Nat)
    {heap : Heap K V} {s : SpecHeap K V} (h : Related rt heap s) (id : Nat)
    {object : MapObject K V} (hid : heap[id]? = some object) (key : K)
    (habsent : containsKey (rt.hashing object.cls) object.fields key = some false)
    (ifAbsent : List (Call K V)) (value : V)
    (hpeak : (specExec rt (.putIfAbsent id key ifAbsent (some value)) s).1.peak ≤ maxKeys) :
    BindsAbsent rt (depth + 2) heap id key ifAbsent value := by
  obtain ⟨heap₂, hexec, h₂⟩ := exec_refines hlaw depth _ h hpeak
  obtain ⟨map, hmap, hcls, entries, hvalid, hl⟩ := Lib.forall₂_getElem? h.flip hid
  have hlookup : lookup (rt.hashing map.cls) key map.pairs = none := by
    rw [hcls, containsKey, valid_getValueOrData (hlaw _) hvalid, hl] at habsent
    simpa using habsent
  rw [specExec, SpecHeap.on, hmap] at hpeak hexec h₂
  simp only [hlookup] at hpeak hexec h₂
  have hbodyPeak : (specExecAll rt ifAbsent s).1.peak ≤ maxKeys := by
    refine le_trans ?_ hpeak
    split
    · exact le_max_left _ _
    · exact le_refl _
  obtain ⟨heap₁, hbody, h₁⟩ := execAll_refines hlaw depth ifAbsent h hbodyPeak
  obtain ⟨after, hafter, hclsAfter, -⟩ :=
    (execAll_next rt (depth + 2) ifAbsent h.laidOut hbody).2 id object hid
  obtain ⟨map₁, hmap₁, hcls₁, entries₁, hvalid₁, hl₁⟩ := Lib.forall₂_getElem? h₁.flip hafter
  have hsame : map.cls = after.cls := by rw [hclsAfter, hcls]
  rw [hmap₁] at hexec h₂
  have hlt := (List.getElem?_eq_some_iff.1 hmap₁).1
  obtain ⟨object₂, hobject₂, -, entries₂, hvalid₂, hl₂⟩ :=
    Lib.forall₂_getElem? h₂ (List.getElem?_set_self hlt)
  refine ⟨heap₁, _, after, map₁.pairs, heap₂, object₂, entries₂, hbody, hafter, ?_, hexec,
    hobject₂, hcls₁ ▸ hvalid₂, ?_⟩
  · rw [valid_pairs hvalid₁, hl₁]
  · rw [hl₂, hsame]

/-! ## Numbers as keys -/

/-- All maps compare numbers, on a machine with small integers of 63 bits; the custom maps take the
even ones for valid. -/
def numbersRuntime : Runtime Nat where
  has63BitSmis := true
  hashing _ := collidingNumbers
  validKey _ key := key % 2 == 0

/-- Colliding keys, a removal, a callback that inserts the key itself, a block copy, and a custom
map that holds a key it does not find. -/
def sampleCalls : List (Call Nat Nat) :=
  [.create .internal, .set 0 1 10, .set 0 2 20, .remove 0 1,
    .putIfAbsent 0 3 [.set 0 3 31, .set 0 1 11] (some 30), .create .internal, .addAll 1 0,
    .get 1 3, .create (.custom 0), .set 2 5 50, .get 2 5, .remove 2 5, .length 2, .pairs 0]

theorem linkedHashMap_refines_sampleCalls :
    ∃ heap, execAll numbersRuntime 2 sampleCalls [] =
        some (heap, (specExecAll numbersRuntime sampleCalls {}).2) ∧
      heap.map (fun object => pairs object.fields) =
        (specExecAll numbersRuntime sampleCalls {}).1.maps.map (fun map => some map.pairs) ∧
      heap.map (fun object => length object.fields) =
        (specExecAll numbersRuntime sampleCalls {}).1.maps.map
          (fun map => (map.pairs.length : Int)) :=
  linkedHashMap_refines numbersRuntime (fun _ => collidingNumbers_lawful) 2 (le_refl 2)
    sampleCalls (by decide +kernel)

example : (specExecAll numbersRuntime sampleCalls {}).2.getLast? =
    some (.pairs [(2, 20), (3, 30), (1, 11)]) := by
  decide +kernel

/-- The callback inserts the key itself, and another one. -/
theorem putIfAbsent_binds_inserted :
    BindsAbsent numbersRuntime 2 [{ cls := .internal, fields := {} }] 0 3
      [.set 0 3 31, .set 0 1 11] 30 := by
  have hstart : Related (V := Nat) numbersRuntime [{ cls := .internal, fields := {} }]
      { maps := [{ cls := .internal, pairs := [] }] } :=
    .cons ⟨rfl, [], .inl ⟨.new, rfl⟩, rfl⟩ .nil
  exact putIfAbsent_binds numbersRuntime (fun _ => collidingNumbers_lawful) 0 hstart 0 rfl 3
    (by decide +kernel) _ 30 (by decide +kernel)

/-! ## Beyond the bound -/

theorem containsKey_ne_true {hashing : Hashing K} {m : Fields K V} {key : K}
    (h : ∀ i j, kind.find hashing m key ≠ some (.found i j)) :
    containsKey hashing m key ≠ some true := by
  rw [containsKey, getValueOrData]
  cases hfind : kind.find hashing m key with
  | none => simp
  | some found =>
    cases found with
    | absent i => simp
    | found i j => exact absurd hfind (h i j)

theorem execAll_cons {call : Call K V} {calls : List (Call K V)} {heap heap' : Heap K V}
    {answers : List (Answer K V)}
    (hexec : execAll rt depth (call :: calls) heap = some (heap', answers)) :
    ∃ heap₁ log₁ log, exec rt depth call heap = some (heap₁, log₁) ∧
      execAll rt depth calls heap₁ = some (heap', log) ∧ answers = log₁ ++ log := by
  obtain ⟨⟨heap₁, log₁⟩, hcall, hrest⟩ := bind_eq_some_iff.1 hexec
  obtain ⟨⟨heap₂, log⟩, hcalls, heq⟩ := bind_eq_some_iff.1 hrest
  cases heq
  exact ⟨heap₁, log₁, log, hcall, hcalls, rfl⟩

section Fill

def fill (n : Nat) : List (Call Nat Nat) :=
  (List.range n).map fun k => .set 0 k k

variable {fields fields' : Fields Nat Nat} {answers : List (Answer Nat Nat)}
  {heap : Heap Nat Nat} {calls : List (Call Nat Nat)}

theorem execAll_set (hexec : execAll numbersRuntime depth (.set 0 n n :: calls)
      [{ cls := .internal, fields := fields }] = some (heap, answers)) :
    ∃ fields' log,
      indexSet numbersRuntime.has63BitSmis collidingNumbers depth fields n n = some fields' ∧
      execAll numbersRuntime depth calls [{ cls := .internal, fields := fields' }] =
        some (heap, log) ∧
      answers = .done :: log := by
  obtain ⟨heap₁, log₁, log, hcall, hcalls, rfl⟩ := execAll_cons hexec
  obtain ⟨_, hat, heq⟩ := map_eq_some_iff.1 hcall
  obtain ⟨fields', hset, hheap⟩ := bind_eq_some_iff.1 hat
  cases hheap
  cases heq
  exact ⟨fields', log, hset, hcalls, rfl⟩

/-- The remaining insertions, the last of which overflows. -/
theorem filled_not_found {r : Nat} (h : Filled kind (fun k => (k, k)) n fields)
    (hr : n + r = 2 ^ 31)
    (hexec : execAll numbersRuntime (depth + 2) ((range' n (r + 1)).map (fun k => .set 0 k k) ++
      [.containsKey 0 0]) [{ cls := .internal, fields := fields }] = some (heap, answers)) :
    answers.getLast? ≠ some (.flag true) := by
  induction r generalizing n fields answers with
  | zero =>
    obtain ⟨fields', log, hset, hlast, rfl⟩ := execAll_set hexec
    have hnot := containsKey_ne_true fun i j =>
      h.overflows (fun _ => rfl) (puts_indexSet true collidingNumbers) hr hset (i := i) (j := j) 0
    obtain ⟨_, log₁, log, hcontains, hend, rfl⟩ := execAll_cons hlast
    obtain ⟨found, hfound, heq⟩ := map_eq_some_iff.1 hcontains
    cases heq
    cases hend
    rintro hflag
    cases hflag
    exact hnot hfound
  | succ r ih =>
    obtain ⟨fields', log, hset, hrest, rfl⟩ := execAll_set hexec
    obtain ⟨fields'', hset', hfilled⟩ :=
      h.put_next (fun _ => rfl) (puts_indexSet true collidingNumbers) (by omega) depth
    cases hset.symm.trans hset'
    have hlog := ih hfilled (by omega) hrest
    rw [← singleton_append, getLast?_append]
    cases hanswer : log.getLast? with
    | none => nofun
    | some answer => rwa [hanswer] at hlog

/-- One more number than `n`, and a look at the first of them. -/
def fillAndFind (n : Nat) : List (Call Nat Nat) :=
  .create .internal :: (fill (n + 1) ++ [.containsKey 0 0])

theorem isSome_lookup_zero {l : List (Nat × Nat)} (h : (0, 0) ∈ l) :
    (lookup collidingNumbers 0 l).isSome = true := by
  rw [lookup, isSome_map, find?_isSome]
  exact ⟨(0, 0), h, rfl⟩

theorem zero_mem_range (hn : 0 < n) : (0, 0) ∈ (range n).map fun k => (k, k) :=
  mem_map.2 ⟨0, mem_range.2 hn, rfl⟩

theorem specExecAll_found {r : Nat} {s : SpecHeap Nat Nat}
    (hs : s.maps = [{ cls := .internal, pairs := (range n).map fun k => (k, k) }])
    (hr : 0 < n + r) :
    (specExecAll numbersRuntime ((range' n r).map (fun k => .set 0 k k) ++
      [.containsKey 0 0]) s).2.getLast? = some (.flag true) := by
  induction r generalizing n s with
  | zero =>
    have hfound := isSome_lookup_zero (zero_mem_range hr)
    rw [range'_zero, map_nil, nil_append, specExecAll_cons, specExec, SpecHeap.on, hs]
    exact congrArg (fun b => some (Answer.flag b)) hfound
  | succ r ih =>
    rw [range'_succ, map_cons, cons_append, specExecAll_cons, getLast?_append,
      ih (n := n + 1) ?_ (by omega)]
    · rfl
    · rw [specExec, SpecHeap.on, hs]
      simp only [getElem?_cons_zero, SpecHeap.write, hs]
      show [SpecMap.mk .internal (put collidingNumbers n n ((range n).map _))] = _
      rw [put_absent (fun p hp => equals_range (T := kind) hp fun _ => rfl), range_succ, map_append]
      rfl

theorem fillAndFind_overflows (hn : n = 2 ^ 31) (depth : Nat) (heap : Heap Nat Nat) :
    execAll numbersRuntime (depth + 2) (fillAndFind n) [] ≠
      some (heap, (specExecAll numbersRuntime (fillAndFind n) {}).2) := by
  intro hexec
  rw [fillAndFind, fill, range_eq_range', specExecAll_cons] at hexec
  obtain ⟨heap₁, log₁, log, hcreate, hcalls, hlog⟩ := execAll_cons hexec
  cases hcreate
  have hfilled : Filled kind (fun k => (k, k)) 0 ({} : Fields Nat Nat) := .inl ⟨rfl, .new⟩
  refine filled_not_found (r := n) hfilled (by omega) hcalls ?_
  rw [← append_cancel_left hlog]
  exact specExecAll_found rfl (by omega)

/-- After `2 ^ 31 + 1` insertions the map no longer finds its first key. -/
theorem linkedHashMap_overflows :
    collidingNumbers.Lawful ∧
      ¬ ∃ depth heap, execAll numbersRuntime (depth + 2) (fillAndFind (2 ^ 31)) [] =
        some (heap, (specExecAll numbersRuntime (fillAndFind (2 ^ 31)) {}).2) :=
  ⟨collidingNumbers_lawful, fun ⟨depth, heap, hexec⟩ =>
    fillAndFind_overflows rfl depth heap hexec⟩

theorem exists_filled (hn : n ≤ 2 ^ 31) : ∃ fields, Filled kind (fun k => (k, k)) n fields := by
  induction n with
  | zero => exact ⟨{}, .inl ⟨rfl, .new⟩⟩
  | succ n ih =>
    obtain ⟨fields, hfilled⟩ := ih (by omega)
    obtain ⟨fields', -, hfilled'⟩ :=
      hfilled.put_next (fun _ => rfl) (puts_indexSet true collidingNumbers) (by omega) 0
    exact ⟨fields', hfilled'⟩

/-- In a map with `2 ^ 31` keys `putIfAbsent` loses the first one. -/
theorem putIfAbsent_overflows :
    ∃ fields, Filled kind (fun k => (k, k)) (2 ^ 31) fields ∧
      ∀ depth, ¬ BindsAbsent numbersRuntime depth
      [{ cls := .internal, fields := fields }] 0 (2 ^ 31) [] (2 ^ 31) := by
  obtain ⟨n, hn⟩ : ∃ n, n = 2 ^ 31 := ⟨_, rfl⟩
  obtain ⟨fields, hfilled⟩ := exists_filled hn.le
  obtain ⟨b, entries, hsound, -, hkeys⟩ := hfilled.resolve_left fun h => by omega
  have hnew : ∀ p ∈ entries.reduceOption, collidingNumbers.equals n p.1 = false :=
    fun p hp => equals_range (T := kind) (hkeys ▸ hp) fun _ => rfl
  obtain ⟨i, hfind, -⟩ := hsound.find_absent collidingNumbers_lawful hnew
  have hpoint : findValueOrInsertPoint (numbersRuntime.hashing .internal) fields n =
      some (-(i : Int)) := findValueOrInsertPoint_absent hfind
  rw [← hn]
  refine ⟨fields, hfilled, ?_⟩
  rintro depth ⟨heap₁, log, after, l, heap₂, object, entries₂, hbody, hafter, hl, hexec, hobject,
    hvalid₂, hl₂⟩
  cases hbody
  cases hafter
  cases hl.symm.trans (layout_pairs hsound.layout)
  have hfinal : entries₂.reduceOption = entries.reduceOption ++ [(n, n)] :=
    hl₂.trans (put_absent hnew n)
  have hneg : ¬ (-(i : Int) > 0) := by omega
  have hi : (- -(i : Int)).toNat = i := by omega
  have hsame : ¬ isModifiedSince fields fields.dataId (checkSum fields) = true := by
    simp [isModifiedSince]
  -- nothing has changed, so the insertion goes on as `[]=` does
  simp only [exec, onMap, getElem?_cons_zero, hpoint, Lib.some_bind, if_neg hneg, execAll,
    putAbsent, if_neg hsame, hi] at hexec
  obtain ⟨fields', hput, heq⟩ := bind_eq_some_iff.1 hexec
  cases heq
  cases hobject
  refine containsKey_ne_true (fun i j => hfilled.overflows (fun _ => rfl)
    (puts_indexSet true collidingNumbers) hn ((indexSet_absent hfind _ _ _).trans hput) 0) ?_
  rw [containsKey, valid_getValueOrData collidingNumbers_lawful hvalid₂, hfinal, hkeys]
  exact congrArg some (isSome_lookup_zero (mem_append_left _ (zero_mem_range (by omega))))

end Fill

end Dart2Wasm.CompactHash.LinkedHashMap
