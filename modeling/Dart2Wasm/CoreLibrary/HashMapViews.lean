import Dart2Wasm.CoreLibrary.HashMapCapacity

/-!
# HashMapViews — `keys` and `values`

A view keeps `_data` and `_usedData` as they were when it was obtained, its iterators take the check
sum when they are created, and its length is read from the map. So a view that is older than the
last changes still reports the current length, but its iterators

1. throw at once if `_data` has been replaced, by a rehash, a `clear` or a block copy, and
2. end at the old `_usedData` otherwise, before all pairs that were added.

The view is live exactly if neither matters: same data list, and nothing left of what was added.
-/

namespace Dart2Wasm.CompactHash.LinkedHashMap

open List Option

variable {K V : Type}
variable {m' : Fields K V}

/-! ## Views and their iterators -/

inductive Part
  | keys
  | values
  deriving DecidableEq

/-- `_CompactIterable`; its table is the map that its methods are given. -/
structure CompactIterable where
  dataId : Nat
  len : Nat
  offset : Int
  step : Int

structure CompactIterator where
  dataId : Nat
  len : Nat
  offset : Int
  step : Int
  checkSum : Nat

def keys (m : Fields K V) : CompactIterable :=
  { dataId := m.dataId, len := m.usedData, offset := -2, step := 2 }

def values (m : Fields K V) : CompactIterable :=
  { dataId := m.dataId, len := m.usedData, offset := -1, step := 2 }

def view : Part → Fields K V → CompactIterable
  | .keys => keys
  | .values => values

def CompactIterable.length (_ : CompactIterable) (m : Fields K V) : Int :=
  LinkedHashMap.length m

def CompactIterable.iterator (view : CompactIterable) (m : Fields K V) : CompactIterator :=
  { dataId := view.dataId
    len := view.len
    offset := view.offset
    step := view.step
    checkSum := checkSum m }

/-- The `do` loop of `moveNext`. -/
def advance (data : List (Cell K V)) (len : Nat) (step : Int) : Nat → Int → Option Int
  | 0, _ => none
  | fuel + 1, offset =>
    if offset + step < len then
      match data[(offset + step).toNat]? with
      | none => none
      | some .deleted => advance data len step fuel (offset + step)
      | some _ => some (offset + step)
    else some (offset + step)

/-- What `moveNext` does: it throws, or returns whether there is a current element. -/
inductive MoveNext (K V : Type)
  | threw
  | moved (it : CompactIterator) (current : Cell K V)
  | ended (it : CompactIterator)

/-- Once the data list is known to be that of the map, its cells are read from there. -/
def CompactIterator.moveNext (m : Fields K V) (it : CompactIterator) : Option (MoveNext K V) :=
  if isModifiedSince m it.dataId it.checkSum then some .threw
  else do
    let offset ← advance m.data it.len it.step (it.len + 1) it.offset
    if offset < it.len then
      m.data[offset.toNat]?.map (.moved { it with offset := offset })
    else some (.ended { it with offset := offset })

/-- Calls `moveNext` until it throws or returns false; the elements, and whether it threw. -/
def drain (m : Fields K V) : Nat → CompactIterator → Option (List (Cell K V) × Bool)
  | 0, _ => none
  | fuel + 1, it => do
    match ← it.moveNext m with
    | .threw => some ([], true)
    | .ended _ => some ([], false)
    | .moved it current => do
      let (rest, threw) ← drain m fuel it
      some (current :: rest, threw)

/-- `for (var x in view)`, with a body that leaves the map alone. -/
def iterate (m : Fields K V) (view : CompactIterable) : Option (List (Cell K V) × Bool) :=
  drain m (view.len + 1) (view.iterator m)

/-! ## Iterating over a laid out map -/

namespace Part

def cell : Part → Option (K × V) → Cell K V
  | .keys => keyCell
  | .values => valueCell

/-- Where the part of a pair is, counted from its key. -/
def shift : Part → Nat
  | .keys => 0
  | .values => 1

theorem shift_le (part : Part) : part.shift ≤ 1 := by
  cases part <;> decide

@[simp]
theorem cell_none (part : Part) : part.cell (none : Option (K × V)) = .deleted := by
  cases part <;> rfl

theorem cell_some_ne (part : Part) (p : K × V) : part.cell (some p) ≠ .deleted := by
  cases part <;> exact fun heq => nomatch heq

end Part

theorem view_eq (part : Part) (m : Fields K V) :
    view part m = ⟨m.dataId, m.usedData, (part.shift : Int) - 2, 2⟩ := by
  cases part <;> rfl

section Drain

variable {m : Fields K V} {entries : List (Option (K × V))} {spare : Nat}

theorem part_cell (h : Layout kind m entries spare) (part : Part) {j : Nat} {e : Option (K × V)}
    (hj : entries[j]? = some e) : m.data[2 * j + part.shift]? = some (part.cell e) := by
  cases part with
  | keys => exact (pair_cells h hj).1
  | values => exact (pair_cells h hj).2

/-- The offset from which the next step of an iterator gets to pair `j`. -/
def Part.before (part : Part) (j : Nat) : Int :=
  2 * (j : Int) + part.shift - 2

theorem Part.before_add_two (part : Part) (j : Nat) :
    part.before j + 2 = ((2 * j + part.shift : Nat) : Int) := by
  rw [Part.before]
  omega

theorem Part.before_succ (part : Part) (j : Nat) :
    part.before (j + 1) = ((2 * j + part.shift : Nat) : Int) := by
  rw [Part.before]
  omega

section

variable (h : Layout kind m entries spare) (part : Part) (after : List (Option (K × V)))
include h part after

/-- The loop of `moveNext` from before the pairs `post`, the last that the iterator sees: it gets
past the end if none of them is left, and stops at the first one left otherwise. -/
theorem advance_cases (post : List (Option (K × V))) :
    ∀ (pre : List (Option (K × V))) (fuel : Nat), entries = pre ++ post ++ after →
      post.length < fuel →
      (post.reduceOption = [] ∧ ∃ offset : Int,
        ((2 * (pre ++ post).length : Nat) : Int) ≤ offset ∧
        advance m.data (2 * (pre ++ post).length) 2 fuel (part.before pre.length) = some offset) ∨
      ∃ skipped p rest, post = skipped ++ some p :: rest ∧ skipped.reduceOption = [] ∧
        advance m.data (2 * (pre ++ post).length) 2 fuel (part.before pre.length) =
          some ((2 * (pre ++ skipped).length + part.shift : Nat) : Int) := by
  induction post with
  | nil =>
    intro pre fuel _ hfuel
    obtain ⟨fuel, rfl⟩ : ∃ n, fuel = n + 1 := ⟨fuel - 1, by omega⟩
    refine .inl ⟨rfl, (2 * pre.length + part.shift : Nat), ?_, ?_⟩
    · rw [append_nil]
      omega
    · rw [append_nil, advance, Part.before_add_two, if_neg (by omega)]
  | cons e post ih =>
    intro pre fuel hentries hfuel
    obtain ⟨fuel, rfl⟩ : ∃ n, fuel = n + 1 := ⟨fuel - 1, by omega⟩
    have hentry : entries[pre.length]? = some e := by simp [hentries]
    have happ : pre ++ e :: post = (pre ++ [e]) ++ post := by simp
    have hshift := part.shift_le
    have hin : ((2 * pre.length + part.shift : Nat) : Int) <
        ((2 * (pre ++ e :: post).length : Nat) : Int) := by
      rw [length_append, length_cons]
      omega
    rw [advance, Part.before_add_two, if_pos hin, Int.toNat_natCast, part_cell h part hentry]
    cases e with
    | none =>
      rw [Part.cell_none]
      have hpre : (pre ++ [none]).length = pre.length + 1 := by simp
      have hrest := ih (pre ++ [none]) fuel (by rw [hentries, happ])
        (by rw [length_cons] at hfuel; omega)
      rw [hpre, Part.before_succ, ← happ] at hrest
      rcases hrest with ⟨hnone, hend⟩ | ⟨skipped, p, rest, hpost, hskip, hstop⟩
      · refine .inl ⟨?_, hend⟩
        rw [reduceOption_cons_of_none, hnone]
      · refine .inr ⟨none :: skipped, p, rest, ?_, ?_, ?_⟩
        · rw [hpost, cons_append]
        · rw [reduceOption_cons_of_none, hskip]
        · rw [hstop, append_assoc]
          rfl
    | some p =>
      refine .inr ⟨[], p, post, rfl, rfl, ?_⟩
      rw [append_nil]
      split
      · rename_i heq
        cases heq
      · rename_i heq
        exact absurd (some.inj heq) (part.cell_some_ne p)
      · rfl

/-- An iterator over the data list of the map comes by the pairs before its end that are left. -/
theorem drain_spec (fuel : Nat) :
    ∀ (pre post : List (Option (K × V))), entries = pre ++ post ++ after → post.length < fuel →
      drain m fuel
        { dataId := m.dataId, len := 2 * (pre ++ post).length, offset := part.before pre.length,
          step := 2, checkSum := checkSum m } =
        some (post.reduceOption.map (fun p => part.cell (some p)), false) := by
  induction fuel with
  | zero =>
    intro pre post _ hfuel
    omega
  | succ fuel ih =>
    intro pre post hentries hfuel
    have hsame : ¬ isModifiedSince m m.dataId (checkSum m) = true := by simp [isModifiedSince]
    have hbound : post.length < 2 * (pre ++ post).length + 1 := by
      rw [length_append]
      omega
    rw [drain, CompactIterator.moveNext, if_neg hsame]
    rcases advance_cases h part after post pre _ hentries hbound with
      ⟨hnone, offset, hpast, hadv⟩ | ⟨skipped, p, rest, rfl, hskip, hadv⟩
    · rw [hadv, hnone]
      simp only [Lib.some_bind]
      rw [if_neg (by omega)]
      rfl
    · have hentry : entries[(pre ++ skipped).length]? = some (some p) := by
        rw [hentries, ← append_assoc, append_assoc _ _ after, cons_append]
        simp
      have hpre : (pre ++ skipped ++ [some p]).length = (pre ++ skipped).length + 1 := by
        rw [length_append, length_singleton]
      have happ : pre ++ (skipped ++ some p :: rest) = (pre ++ skipped ++ [some p]) ++ rest := by
        simp
      have hin : ((2 * (pre ++ skipped).length + part.shift : Nat) : Int) <
          ((2 * (pre ++ (skipped ++ some p :: rest)).length : Nat) : Int) := by
        have hshift := part.shift_le
        have hlen : (pre ++ (skipped ++ some p :: rest)).length =
            (pre ++ skipped).length + 1 + rest.length := by
          rw [happ, length_append, hpre]
        omega
      have hlater := ih (pre ++ skipped ++ [some p]) rest (by rw [hentries, happ])
        (by rw [length_append, length_cons] at hfuel; omega)
      rw [hpre, Part.before_succ, ← happ] at hlater
      rw [hadv]
      simp only [Lib.some_bind]
      rw [if_pos hin, Int.toNat_natCast, part_cell h part hentry]
      simp only [map_some, Lib.some_bind]
      rw [hlater, reduceOption_append, hskip, nil_append, reduceOption_cons_of_some, map_cons]
      rfl

end

/-- A view whose data list is gone throws before it yields anything. -/
theorem iterate_replaced (part : Part) (hid : m'.dataId ≠ m.dataId) :
    iterate m' (view part m) = some ([], true) := by
  have hmod : isModifiedSince m' m.dataId (checkSum m') = true := by
    rw [isModifiedSince, bne_iff_ne.2 hid, Bool.true_or]
  rw [iterate, drain, CompactIterator.moveNext, CompactIterable.iterator, view_eq, if_pos hmod]
  rfl

/-- A view whose data list is still in use yields what is left of the pairs it knows. -/
theorem iterate_kept {entries' : List (Option (K × V))} {spare' : Nat}
    (h : Layout kind m entries spare) (h' : Layout kind m' entries' spare') (part : Part)
    (hid : m'.dataId = m.dataId) (hle : entries.length ≤ entries'.length) :
    iterate m' (view part m) =
      some ((entries'.take entries.length).reduceOption.map (fun p => part.cell (some p)),
        false) := by
  have htake : (entries'.take entries.length).length = entries.length := length_take_of_le hle
  have hdrain := drain_spec h' part (entries'.drop entries.length) (m.usedData + 1) []
    (entries'.take entries.length) (by rw [nil_append, take_append_drop])
    (by rw [htake, used_eq h]; omega)
  rw [nil_append, htake, ← used_eq h, hid] at hdrain
  rw [iterate, CompactIterable.iterator, view_eq, ← hdrain, Part.before]
  simp

end Drain

/-! ## Views across changes of the map -/

/-- Something happens to the maps: a call, or the end of a `putIfAbsent` whose callback has
returned, for what happens to a view that the callback obtained. -/
inductive Happens (rt : Runtime K) (depth : Nat) : Heap K V → Heap K V → Prop
  | call {heap heap' : Heap K V} {log : List (Answer K V)} (c : Call K V) :
      exec rt depth c heap = some (heap', log) → Happens rt depth heap heap'
  | callbackReturned {heap : Heap K V} (map : Nat) {object : MapObject K V} (old : Fields K V)
      (key : K) (value : V) (d : Int) {fields : Fields K V} :
      heap[map]? = some object →
      putAbsent rt.has63BitSmis (rt.hashing object.cls) depth old object.fields key value d =
        some fields →
      Happens rt depth heap (heap.set map { object with fields := fields })

section Live

variable {rt : Runtime K} {depth : Nat} {heap heap' : Heap K V}

theorem Happens.next (h : Happens rt depth heap heap') (hheap : HeapLaidOut heap) :
    HeapNext heap heap' := by
  cases h with
  | call c hexec => exact exec_next rt depth c hheap hexec
  | callbackReturned map old key value d hmap hput =>
    exact .set hheap hmap (putAbsent_next (hheap _ (mem_of_getElem? hmap)) hput)

theorem happens_next (h : Relation.ReflTransGen (Happens rt depth) heap heap')
    (hheap : HeapLaidOut heap) : HeapNext heap heap' := by
  induction h with
  | refl => exact .refl hheap
  | tail _ hlast ih => exact ih.trans hheap (hlast.next ih.1)

theorem happens_of_execAll (calls : List (Call K V)) :
    ∀ {heap heap' : Heap K V} {log : List (Answer K V)},
      execAll rt depth calls heap = some (heap', log) →
      Relation.ReflTransGen (Happens rt depth) heap heap' := by
  induction calls with
  | nil =>
    intro heap heap' log h
    cases h
    exact .refl
  | cons c calls ih =>
    intro heap heap' log h
    obtain ⟨⟨heap₁, log₁⟩, hcall, h⟩ := bind_eq_some_iff.1 h
    obtain ⟨⟨heap₂, log₂⟩, hcalls, h⟩ := bind_eq_some_iff.1 h
    cases h
    exact .head (.call c hcall) (ih hcalls)

/-- Nothing is left of what was added since `m`: the cells from its `_usedData` on are deleted. -/
def NothingAdded (m m' : Fields K V) : Prop :=
  ∀ j : Nat, m.usedData ≤ 2 * j → 2 * j < m'.usedData → m'.data[2 * j]? = some .deleted

theorem nothingAdded_iff {m : Fields K V} {entries entries' : List (Option (K × V))}
    {spare spare' : Nat} (h : Layout kind m entries spare) (h' : Layout kind m' entries' spare') :
    NothingAdded m m' ↔ (entries'.drop entries.length).reduceOption = [] := by
  have hcell : ∀ (j : Nat) (e : Option (K × V)), entries'[j]? = some e →
      (m'.data[2 * j]? = some .deleted ↔ e = none) := by
    intro j e he
    rw [(pair_cells h' he).1]
    cases e with
    | none => exact iff_of_true rfl rfl
    | some p => exact iff_of_false (fun heq => nomatch heq) (fun heq => nomatch heq)
  rw [reduceOption, filterMap_eq_nil_iff]
  constructor
  · intro hnone e he
    obtain ⟨i, hi⟩ := mem_iff_getElem?.1 he
    rw [getElem?_drop] at hi
    have hlt := (List.getElem?_eq_some_iff.1 hi).1
    exact (hcell _ _ hi).1 (hnone _ (by rw [used_eq h]; omega) (by rw [used_eq h']; omega))
  · intro hnone j hge hlt
    rw [used_eq h] at hge
    rw [used_eq h'] at hlt
    have hj : entries'[j]? = some (entries'.get ⟨j, by omega⟩) :=
      getElem?_eq_getElem (by omega)
    refine (hcell j _ hj).2 (hnone _ ?_)
    refine mem_iff_getElem?.2 ⟨j - entries.length, ?_⟩
    rw [getElem?_drop, ← hj]
    congr 1
    omega

/-- A view of a map in state `object`, iterated in state `object'`, yields the current keys or
values, as many as it reports, exactly if the map still has the data list of then and nothing is
left of what was added to it. -/
theorem view_live_iff (hreach : Relation.ReflTransGen (Happens rt depth) [] heap) (map : Nat)
    {object object' : MapObject K V} (hmap : heap[map]? = some object)
    (hlater : Relation.ReflTransGen (Happens rt depth) heap heap')
    (hmap' : heap'[map]? = some object') (part : Part) :
    (∃ current, pairs object'.fields = some current ∧
        iterate object'.fields (view part object.fields) =
          some (current.map (fun p => part.cell (some p)), false) ∧
        (current.length : Int) = (view part object.fields).length object'.fields) ↔
      object'.fields.dataId = object.fields.dataId ∧
        NothingAdded object.fields object'.fields := by
  have hempty : HeapLaidOut ([] : Heap K V) := fun _ hmem => nomatch hmem
  have hheap := (happens_next hreach hempty).1
  have hnext := happens_next hlater hheap
  obtain ⟨entries, spare, h⟩ := hheap _ (mem_of_getElem? hmap)
  obtain ⟨entries', spare', h'⟩ := hnext.1 _ (mem_of_getElem? hmap')
  by_cases hid : object'.fields.dataId = object.fields.dataId
  · obtain ⟨object'', hmap'', -, hevolves⟩ := hnext.2 map object hmap
    cases hmap'.symm.trans hmap''
    have hused := hevolves.used_le hid
    rw [used_eq h, used_eq h'] at hused
    have hsplit : entries'.reduceOption =
        (entries'.take entries.length).reduceOption ++
          (entries'.drop entries.length).reduceOption := by
      rw [← reduceOption_append, take_append_drop]
    rw [nothingAdded_iff h h', iterate_kept h h' part hid (by omega), layout_pairs h']
    constructor
    · rintro ⟨current, hcurrent, hyield, -⟩
      cases hcurrent
      refine ⟨hid, length_eq_zero_iff.1 ?_⟩
      have hlen := congrArg (fun r => (r.map (List.length ∘ Prod.fst)).getD 0) hyield
      simp only [map_some, getD_some, Function.comp, length_map] at hlen
      rw [hsplit, length_append] at hlen
      omega
    · rintro ⟨-, hnone⟩
      refine ⟨_, rfl, ?_, ?_⟩
      · rw [hsplit, hnone, append_nil]
      · rw [CompactIterable.length, length, h'.length_eq]
  · rw [iterate_replaced part hid]
    refine iff_of_false ?_ (fun hboth => hid hboth.1)
    rintro ⟨current, -, hyield, -⟩
    exact Bool.noConfusion (congrArg Prod.snd (some.inj hyield))

end Live

/-! ## Views in programs -/

/-- What a program sees that iterates over a view. -/
structure Observation (K V : Type) where
  current : Option (List (K × V))
  iteration : Option (List (Cell K V) × Bool)
  length : Int
  deriving DecidableEq

def observation (part : Part) (m m' : Fields K V) : Observation K V :=
  { current := pairs m'
    iteration := iterate m' (view part m)
    length := (view part m).length m' }

/-- Runs `before`, obtains a view of the first map, runs `later`, and iterates over the view. -/
def observe (rt : Runtime K) (depth : Nat) (before later : List (Call K V)) (part : Part) :
    Option (Observation K V) := do
  let (heap, _) ← execAll rt depth before []
  let object ← heap[0]?
  let (heap', _) ← execAll rt depth later heap
  let object' ← heap'[0]?
  some (observation part object.fields object'.fields)

theorem observe_eq_some {rt : Runtime K} {depth : Nat} {before later : List (Call K V)}
    {part : Part} {o : Observation K V} (h : observe rt depth before later part = some o) :
    ∃ (heap heap' : Heap K V) (object object' : MapObject K V),
      Relation.ReflTransGen (Happens rt depth) [] heap ∧ heap[0]? = some object ∧
        Relation.ReflTransGen (Happens rt depth) heap heap' ∧ heap'[0]? = some object' ∧
        observation part object.fields object'.fields = o := by
  obtain ⟨⟨heap, log⟩, hbefore, h⟩ := bind_eq_some_iff.1 h
  obtain ⟨object, hobject, h⟩ := bind_eq_some_iff.1 h
  obtain ⟨⟨heap', log'⟩, hlater, h⟩ := bind_eq_some_iff.1 h
  obtain ⟨object', hobject', h⟩ := bind_eq_some_iff.1 h
  exact ⟨heap, heap', object, object', happens_of_execAll before hbefore, hobject,
    happens_of_execAll later hlater, hobject', some.inj h⟩

/-- A removed key and one that was added and removed again leave an older view live. -/
theorem view_live_iff_removed :
    ∃ (heap heap' : Heap Nat Nat) (object object' : MapObject Nat Nat),
      Relation.ReflTransGen (Happens numbersRuntime 2) [] heap ∧ heap[0]? = some object ∧
        Relation.ReflTransGen (Happens numbersRuntime 2) heap heap' ∧ heap'[0]? = some object' ∧
        ((∃ current, pairs object'.fields = some current ∧
            iterate object'.fields (view .values object.fields) =
              some (current.map (fun p => Part.values.cell (some p)), false) ∧
            (current.length : Int) = (view .values object.fields).length object'.fields) ↔
          object'.fields.dataId = object.fields.dataId ∧
            NothingAdded object.fields object'.fields) := by
  have hrun : observe numbersRuntime 2 [.create .internal, .set 0 1 10, .set 0 2 20]
      [.remove 0 1, .set 0 3 30, .remove 0 3] .values =
        some { current := some [(2, 20)], iteration := some ([.value 20], false),
               length := 1 } := by
    decide +kernel
  obtain ⟨heap, heap', object, object', hreach, hmap, hlater, hmap', -⟩ := observe_eq_some hrun
  exact ⟨heap, heap', object, object', hreach, hmap, hlater, hmap',
    view_live_iff hreach 0 hmap hlater hmap' .values⟩

/-- A pair that finds room in the data list is not seen by the older view, which reports the new
length. The first pair of a map needs a new data list, and then the older view throws. -/
theorem view_stale :
    observe numbersRuntime 2 [.create .internal, .set 0 1 10] [.set 0 2 20] .keys =
        some { current := some [(1, 10), (2, 20)], iteration := some ([.key 1], false),
               length := 2 } ∧
      observe numbersRuntime 2 [.create .internal] [.set 0 1 10] .values =
        some { current := some [(1, 10)], iteration := some ([], true), length := 1 } := by
  decide +kernel

end Dart2Wasm.CompactHash.LinkedHashMap
