import Dart2Wasm.Lib.SparseTable
import Dart2Wasm.Functions

/-!
# DispatchTable.Build — assignment of offsets to selectors

The second half of `DispatchTable.build` in `dart2wasm/lib/dispatch_table.dart`. Every selector
that is called through the table is a row, with one entry per concrete class; the rows are placed
one after the other, each at the first offset at or after the first free slot where none of its
entries meets a filled slot. A virtual call then reads the slot at the selector's offset plus the
class id of the receiver.

Offsets may be negative: only the slots themselves have to lie in the table.
-/

namespace Dart2Wasm

open Lib List

variable {s selector : SelectorInfo} {offset : Int} {ids : List Nat} {st st' : State}
  {selectors : List SelectorInfo} {c : ClassId}

/-! ## Selectors -/

/-- What the offset assignment reads of a selector. -/
structure SelectorInfo where
  id : Nat
  callCount : Nat
  forced : Bool
  targets : TargetMap
  deriving DecidableEq

/-- `translator.classes[id].cls?.isAbstract ?? true`. -/
abbrev ClassAbstractness := ClassId → Bool

namespace SelectorInfo

variable (isAbstract : ClassAbstractness)

/-- The ids of the concrete classes that understand the selector, sorted. -/
def classIds (s : SelectorInfo) : List ClassId :=
  ((s.targets.entries.map Prod.fst).filter fun id => !isAbstract id).insertionSort (· ≤ ·)

/-- The number of different concrete targets. -/
def targetCount (s : SelectorInfo) : Nat :=
  (((s.targets.entries.map Prod.snd).filter fun t => !t.isAbstract).dedup).length

def alive (s : SelectorInfo) : Bool :=
  (decide (0 < s.callCount) && decide (1 < s.targetCount)) || s.forced

def sortWeight (s : SelectorInfo) : Nat :=
  (s.classIds isAbstract).length * 10 + s.callCount

end SelectorInfo

/-! ## The offset assignment -/

inductive AssignError
  -- `first` of an empty list.
  | noElement
  | rangeError
  | assertion
  -- The search for an offset has not ended.
  | unfinished
  deriving DecidableEq

namespace DispatchTable

abbrev Slots := List (Option Reference)

/-- The inner loop: whether no entry of the row meets a filled slot at this offset. The class ids
are sorted, so it stops at the first entry beyond the end of the table. -/
def fits (table : Slots) (offset : Int) : List ClassId → Except AssignError Bool
  | [] => .ok true
  | classId :: classIds =>
    let entry := offset + classId
    if (table.length : Int) ≤ entry then .ok true
    else if entry < 0 then .error .rangeError
    else
      match table[entry.toNat]? with
      | some (some _) => .ok false
      | _ => fits table offset classIds

/-- The `do ... while (!fits)` loop. -/
def findOffset (table : Slots) (classIds : List ClassId) : Nat → Int → Except AssignError Int
  | 0, _ => .error .unfinished
  | fuel + 1, offset =>
    match fits table offset classIds with
    | .ok true => .ok offset
    | .ok false => findOffset table classIds fuel (offset + 1)
    | .error e => .error e

def writeRow (offset : Int) (targets : TargetMap) :
    Slots → List ClassId → Except AssignError Slots
  | table, [] => .ok table
  | table, classId :: classIds =>
    let entry := offset + classId
    if entry < 0 then .error .rangeError
    else if (slot table entry.toNat).isSome then .error .assertion
    else writeRow offset targets (fillSlot table entry.toNat (targets.get classId)) classIds

/-- The number of filled slots before the first empty one. -/
def filledCount : Slots → Nat
  | some _ :: table => filledCount table + 1
  | _ => 0

/-- The variables of the outer loop, with the offsets assigned so far. -/
structure State where
  table : Slots := []
  firstAvailable : Nat := 0
  first : Bool := true
  offsets : List (SelectorInfo × Int) := []

/-- The offset at which the search starts: the first class id at the first available slot. -/
def startOffset (st : State) (classIds : List ClassId) : Except AssignError Int :=
  if st.first then .ok 0
  else
    match classIds with
    | [] => .error .noElement
    | classId :: _ => .ok ((st.firstAvailable : Int) - classId)

def assignOffset (isAbstract : ClassAbstractness) (st : State) (selector : SelectorInfo) :
    Except AssignError State := do
  let classIds := selector.classIds isAbstract
  let start ← startOffset st classIds
  let offset ← findOffset st.table classIds (st.table.length + 1) start
  let table ← writeRow offset selector.targets st.table classIds
  pure
    { table := table
      firstAvailable := st.firstAvailable + filledCount (table.drop st.firstAvailable)
      first := false
      offsets := st.offsets ++ [(selector, offset)] }

def assignOffsets (isAbstract : ClassAbstractness) (selectors : List SelectorInfo) :
    Except AssignError State :=
  run (assignOffset isAbstract) {} selectors

/-! ## Rows -/

/-- The class ids of a selector increase strictly, since the keys of a map are different. -/
theorem classIds_sorted (isAbstract : ClassAbstractness) (s : SelectorInfo) :
    (s.classIds isAbstract).Pairwise (· < ·) :=
  insertionSort_lt (s.targets.nodup.filter _)

variable {isAbstract : ClassAbstractness}

theorem mem_classIds :
    c ∈ s.classIds isAbstract ↔ (∃ t, (c, t) ∈ s.targets.entries) ∧ isAbstract c = false := by
  unfold SelectorInfo.classIds
  simp

theorem target_of_mem_classIds
    (hc : c ∈ s.classIds isAbstract) : ∃ t, s.targets.get c = some t := by
  rcases (mem_classIds.1 hc).1 with ⟨t, hmem⟩
  exact ⟨t, OrderedMap.get_eq_some_iff.2 hmem⟩

/-- The inner loop returns, and a row that fits meets only empty slots. -/
theorem fits_spec (table : Slots)
    (hsorted : ids.Pairwise (· < ·)) (hpos : ∀ c ∈ ids, 0 ≤ offset + c) :
    ∃ b, fits table offset ids = .ok b ∧
      (b = true → ∀ c ∈ ids, slot table (offset + c).toNat = none) := by
  induction ids with
  | nil =>
    exact ⟨true, rfl, by simp⟩
  | cons c ids ih =>
    rcases pairwise_cons.1 hsorted with ⟨hfirst, hrest⟩
    unfold fits
    by_cases hbeyond : (table.length : Int) ≤ offset + c
    · refine ⟨true, by simp [hbeyond], ?_⟩
      intro _ d hd
      -- All later entries lie beyond the end of the table as well.
      have hcd : c ≤ d := by
        rcases mem_cons.1 hd with rfl | hd
        · exact Nat.le_refl d
        · exact Nat.le_of_lt (hfirst d hd)
      exact slot_eq_none_of_le (by omega)
    · have hnonneg : ¬ offset + c < 0 := by
        have := hpos c (by simp)
        omega
      have hin : (offset + c).toNat < table.length := by omega
      simp only [hbeyond, hnonneg, if_false, getElem?_eq_slot hin]
      cases hslot : slot table (offset + c).toNat with
      | some t =>
        exact ⟨false, rfl, by simp⟩
      | none =>
        rcases ih hrest (fun d hd => hpos d (by simp [hd])) with ⟨b, hb, hfree⟩
        refine ⟨b, hb, ?_⟩
        intro htrue d hd
        rcases mem_cons.1 hd with rfl | hd
        · exact hslot
        · exact hfree htrue d hd

/-- The search ends: at the latest when the first entry lies beyond the end of the table. -/
theorem findOffset_spec (table : Slots) {c : Nat} (hsorted : (c :: ids).Pairwise (· < ·)) {n : Nat}
    {start : Int} (hstart : 0 ≤ start + c) (hn : (table.length : Int) ≤ start + c + n) :
    ∃ offset, findOffset table (c :: ids) (n + 1) start = .ok offset ∧ 0 ≤ offset + c ∧
      ∀ d ∈ c :: ids, slot table (offset + d).toNat = none := by
  have hpos : ∀ {offset : Int}, 0 ≤ offset + c → ∀ d ∈ c :: ids, 0 ≤ offset + d := by
    intro offset hoffset d hd
    have hcd : c ≤ d := by
      rcases mem_cons.1 hd with rfl | hd
      · exact Nat.le_refl d
      · exact Nat.le_of_lt ((pairwise_cons.1 hsorted).1 d hd)
    omega
  induction n generalizing start with
  | zero =>
    have hbeyond : (table.length : Int) ≤ start + c := by simpa using hn
    have hfits : fits table start (c :: ids) = .ok true := by simp [fits, hbeyond]
    rcases fits_spec table hsorted (hpos hstart) with ⟨b, hb, hfree⟩
    have hbtrue : b = true := by
      rw [hfits] at hb
      exact (Except.ok.inj hb).symm
    exact ⟨start, by simp [findOffset, hfits], hstart, hfree hbtrue⟩
  | succ n ih =>
    rcases fits_spec table hsorted (hpos hstart) with ⟨b, hb, hfree⟩
    cases b with
    | true => exact ⟨start, by simp [findOffset, hb], hstart, hfree rfl⟩
    | false =>
      have hnext : (table.length : Int) ≤ start + 1 + c + n := by
        omega
      rcases ih (by omega) hnext with ⟨offset, hfind, hoffset, hfree'⟩
      refine ⟨offset, ?_, hoffset, hfree'⟩
      rw [findOffset, hb]
      exact hfind

/-- Writing a row into empty slots succeeds, fills its slots and leaves the others alone. -/
theorem writeRow_spec (targets : TargetMap) {table : Slots} (hsorted : ids.Pairwise (· < ·))
    (hpos : ∀ c ∈ ids, 0 ≤ offset + c) (hfree : ∀ c ∈ ids, slot table (offset + c).toNat = none) :
    ∃ table', writeRow offset targets table ids = .ok table' ∧ table.length ≤ table'.length ∧
      (∀ c ∈ ids, offset + c < table'.length ∧
        slot table' (offset + c).toNat = targets.get c) ∧
      ∀ n : Nat, (∀ c ∈ ids, offset + c ≠ n) → slot table' n = slot table n := by
  induction ids generalizing table with
  | nil =>
    exact ⟨table, rfl, Nat.le_refl _, by simp, fun _ _ => rfl⟩
  | cons c ids ih =>
    rcases pairwise_cons.1 hsorted with ⟨hfirst, hrest⟩
    have hc : 0 ≤ offset + c := hpos c (by simp)
    -- The entry just filled is not one of the entries that follow.
    have hne : ∀ d ∈ ids, (offset + d).toNat ≠ (offset + c).toNat := by
      intro d hd
      have := hfirst d hd
      omega
    have hfree' : ∀ d ∈ ids,
        slot (fillSlot table (offset + c).toNat (targets.get c)) (offset + d).toNat = none := by
      intro d hd
      rw [slot_fillSlot, if_neg (hne d hd)]
      exact hfree d (by simp [hd])
    rcases ih hrest (fun d hd => hpos d (by simp [hd])) hfree' with
      ⟨table', hrun, hlen, hfilled, hother⟩
    rw [length_fillSlot] at hlen
    refine ⟨table', ?_, by omega, ?_, ?_⟩
    · have hneg : ¬ offset + c < 0 := by omega
      have hempty : slot table (offset + c).toNat = none := hfree c (by simp)
      simpa [writeRow, hneg, hempty] using hrun
    · intro d hd
      rcases mem_cons.1 hd with rfl | hd
      · refine ⟨by omega, ?_⟩
        rw [hother _ (fun e he => by have := hne e he; omega), slot_fillSlot, if_pos rfl]
      · exact hfilled d hd
    · intro n hn
      rw [hother n (fun d hd => hn d (by simp [hd])), slot_fillSlot]
      have : n ≠ (offset + c).toNat := by
        have := hn c (by simp)
        omega
      rw [if_neg this]

/-! ## Placement of all rows -/

/-- A row lies in the table and its slots hold its targets. -/
def Holds (isAbstract : ClassAbstractness) (table : Slots) (p : SelectorInfo × Int) : Prop :=
  ∀ c ∈ p.1.classIds isAbstract, 0 ≤ p.2 + c ∧ p.2 + c < table.length ∧
    slot table (p.2 + c).toNat = p.1.targets.get c

/-- Two rows use different slots. -/
def Apart (isAbstract : ClassAbstractness) (p q : SelectorInfo × Int) : Prop :=
  ∀ c ∈ p.1.classIds isAbstract, ∀ d ∈ q.1.classIds isAbstract, p.2 + c ≠ q.2 + d

/-- The invariant of the outer loop. -/
structure Placed (isAbstract : ClassAbstractness) (st : State) : Prop where
  holds : ∀ p ∈ st.offsets, Holds isAbstract st.table p
  apart : st.offsets.Pairwise (Apart isAbstract)

/-- Placing a row in empty slots keeps the rows placed before. -/
theorem placed_snoc (h : Placed isAbstract st) {table' : Slots} {firstAvailable : Nat}
    (hpos : ∀ c ∈ selector.classIds isAbstract, 0 ≤ offset + c)
    (hfree : ∀ c ∈ selector.classIds isAbstract, slot st.table (offset + c).toNat = none)
    (hlen : st.table.length ≤ table'.length)
    (hfilled : ∀ c ∈ selector.classIds isAbstract, offset + c < table'.length ∧
      slot table' (offset + c).toNat = selector.targets.get c)
    (hother : ∀ n : Nat, (∀ c ∈ selector.classIds isAbstract, offset + c ≠ n) →
      slot table' n = slot st.table n) :
    Placed isAbstract ⟨table', firstAvailable, false, st.offsets ++ [(selector, offset)]⟩ := by
  -- A slot of an earlier row is filled, so it is not one of the slots just written.
  have hnew : ∀ p ∈ st.offsets, Apart isAbstract p (selector, offset) := by
    intro p hp c hc d hd heq
    rcases h.holds p hp c hc with ⟨-, -, hslot⟩
    rcases target_of_mem_classIds hc with ⟨t, ht⟩
    have hnone : slot st.table (p.2 + c).toNat = none := heq ▸ hfree d hd
    rw [hslot, ht] at hnone
    cases hnone
  refine ⟨?_, ?_⟩
  · intro p hp
    rcases mem_append.1 hp with hp | hp
    · intro c hc
      rcases h.holds p hp c hc with ⟨hnonneg, hlt, hslot⟩
      refine ⟨hnonneg, by show p.2 + c < (table'.length : Int); omega, ?_⟩
      rw [hother, hslot]
      intro d hd heq
      exact hnew p hp c hc d hd (by show p.2 + c = offset + d; omega)
    · have hpe : p = (selector, offset) := by simpa using hp
      subst hpe
      intro c hc
      exact ⟨hpos c hc, hfilled c hc⟩
  · refine pairwise_append.2 ⟨h.apart, by simp, ?_⟩
    intro p hp q hq
    have hqe : q = (selector, offset) := by simpa using hq
    exact hqe ▸ hnew p hp

/-- The search for an offset succeeds with a row of empty slots, unless an empty row is asked for
its first class id. -/
theorem startOffset_spec (st : State) (hsorted : ids.Pairwise (· < ·))
    (hrow : st.first = true ∨ ids ≠ []) :
    ∃ start offset, startOffset st ids = .ok start ∧
      findOffset st.table ids (st.table.length + 1) start = .ok offset ∧
      (∀ c ∈ ids, 0 ≤ offset + c) ∧ ∀ c ∈ ids, slot st.table (offset + c).toNat = none := by
  have hstart : ∃ start, startOffset st ids = .ok start ∧ ∀ c ∈ ids.head?, 0 ≤ start + c := by
    unfold startOffset
    split
    · exact ⟨0, rfl, by simp⟩
    · rename_i hfirst
      cases ids with
      | nil => exact absurd hrow (by simp [hfirst])
      | cons c ids => exact ⟨_, rfl, by simp⟩
  rcases hstart with ⟨start, hstart, hhead⟩
  cases ids with
  | nil =>
    exact ⟨start, start, hstart, rfl, by simp, by simp⟩
  | cons c ids =>
    have hc : 0 ≤ start + c := hhead c (by simp)
    rcases findOffset_spec st.table hsorted hc (n := st.table.length) (by omega) with
      ⟨offset, hfind, hoffset, hfree⟩
    refine ⟨start, offset, hstart, hfind, ?_, hfree⟩
    intro d hd
    rcases mem_cons.1 hd with rfl | hd
    · exact hoffset
    · have := (pairwise_cons.1 hsorted).1 d hd
      omega

/-- One round of the outer loop succeeds unless it asks an empty row for its first class id. -/
theorem assignOffset_spec (h : Placed isAbstract st)
    (selector : SelectorInfo) (hrow : st.first = true ∨ selector.classIds isAbstract ≠ []) :
    ∃ st' offset, assignOffset isAbstract st selector = .ok st' ∧ st'.first = false ∧
      st'.offsets = st.offsets ++ [(selector, offset)] ∧ Placed isAbstract st' := by
  have hsorted := classIds_sorted isAbstract selector
  rcases startOffset_spec st hsorted hrow with ⟨start, offset, hstart, hfind, hpos, hfree⟩
  rcases writeRow_spec selector.targets hsorted hpos hfree with
    ⟨table', hwrite, hlen, hfilled, hother⟩
  let st' : State :=
    ⟨table', st.firstAvailable + filledCount (table'.drop st.firstAvailable), false,
      st.offsets ++ [(selector, offset)]⟩
  have hrun : assignOffset isAbstract st selector = .ok st' := by
    simp [assignOffset, hstart, hfind, hwrite, bind, Except.bind, pure, Except.pure, st']
  exact ⟨st', offset, hrun, rfl, rfl, placed_snoc h hpos hfree hlen hfilled hother⟩

/-- After the first round an empty row makes the round fail. -/
theorem assignOffset_ok (hfirst : st.first = false)
    (h : assignOffset isAbstract st selector = .ok st') :
    selector.classIds isAbstract ≠ [] ∧ st'.first = false := by
  refine ⟨?_, ?_⟩
  · intro hnil
    simp [assignOffset, startOffset, hfirst, hnil, bind, Except.bind] at h
  · simp only [assignOffset, bind, Except.bind, pure, Except.pure] at h
    split at h
    · cases h
    · split at h
      · cases h
      · split at h
        · cases h
        · cases h
          rfl

theorem run_assignOffset_ok (hfirst : st.first = false)
    (h : run (assignOffset isAbstract) st selectors = .ok st') :
    ∀ s ∈ selectors, s.classIds isAbstract ≠ [] := by
  induction selectors generalizing st with
  | nil =>
    simp
  | cons s selectors ih =>
    rcases run_cons_ok.1 h with ⟨st₁, hstep, hrest⟩
    rcases assignOffset_ok hfirst hstep with ⟨hs, hfirst'⟩
    intro s' hs'
    rcases mem_cons.1 hs' with rfl | hs'
    · exact hs
    · exact ih hfirst' hrest s' hs'

/-- The rounds over a list of selectors succeed if only the first row may be empty. -/
theorem run_assignOffset_placed (h : Placed isAbstract st)
    (hrow : ∀ s ∈ selectors.head?, st.first = true ∨ s.classIds isAbstract ≠ [])
    (htail : ∀ s ∈ selectors.tail, s.classIds isAbstract ≠ []) :
    ∃ st', run (assignOffset isAbstract) st selectors = .ok st' ∧ Placed isAbstract st' ∧
      st'.offsets.map Prod.fst = st.offsets.map Prod.fst ++ selectors := by
  induction selectors generalizing st with
  | nil =>
    exact ⟨st, rfl, h, by simp⟩
  | cons s selectors ih =>
    rcases assignOffset_spec h s (hrow s (by simp)) with
      ⟨st₁, offset, hstep, hfirst', hoffsets, hplaced⟩
    have hne : ∀ s' ∈ selectors, s'.classIds isAbstract ≠ [] := htail
    rcases ih hplaced (fun s' hs' => Or.inr (hne s' (mem_of_mem_head? hs')))
        (fun s' hs' => hne s' (mem_of_mem_tail hs')) with ⟨st', hrun, hplaced', hmap⟩
    refine ⟨st', run_cons_ok.2 ⟨st₁, hstep, hrun⟩, hplaced', ?_⟩
    simp [hmap, hoffsets]

theorem assignOffset_placed (h : Placed isAbstract st)
    (hstep : assignOffset isAbstract st selector = .ok st') : Placed isAbstract st' := by
  have hrow : st.first = true ∨ selector.classIds isAbstract ≠ [] := by
    cases hfirst : st.first with
    | true => exact Or.inl rfl
    | false => exact Or.inr (assignOffset_ok hfirst hstep).1
  rcases assignOffset_spec h selector hrow with ⟨st₁, offset, hstep₁, -, -, hplaced⟩
  have heq : st' = st₁ := Except.ok.inj (hstep.symm.trans hstep₁)
  exact heq ▸ hplaced

/-- The invariant holds whenever the assignment returns. -/
theorem assignOffsets_placed
    (h : assignOffsets isAbstract selectors = .ok st) : Placed isAbstract st :=
  run_invariant (fun _ _ _ hplaced hstep => assignOffset_placed hplaced hstep)
    ⟨by simp, by simp⟩ h

/-! ## Soundness of the dispatch table -/

/-- The list that `sort` leaves: the alive selectors by descending weight. The sort need not be
stable, so selectors of the same weight may come in any order. -/
def SortedAlive (isAbstract : ClassAbstractness) (selectors sorted : List SelectorInfo) : Prop :=
  sorted.Perm (selectors.filter SelectorInfo.alive) ∧
    sorted.Pairwise fun a b => b.sortWeight isAbstract ≤ a.sortWeight isAbstract

/-- Every alive selector has an offset at which each of its concrete classes finds its target, and
no slot is used twice. -/
structure Sound (isAbstract : ClassAbstractness) (selectors : List SelectorInfo) (st : State) :
    Prop where
  covers : ∀ s ∈ selectors, s.alive = true → ∃ offset, (s, offset) ∈ st.offsets
  entries : ∀ s offset, (s, offset) ∈ st.offsets → ∀ c ∈ s.classIds isAbstract,
    0 ≤ offset + c ∧ offset + c < st.table.length ∧
      ∃ t, s.targets.get c = some t ∧ st.table[(offset + c).toNat]? = some (some t)
  apart : st.offsets.Pairwise (Apart isAbstract)

theorem Placed.sound {sorted : List SelectorInfo}
    (h : Placed isAbstract st) (hsorted : SortedAlive isAbstract selectors sorted)
    (hmap : st.offsets.map Prod.fst = sorted) : Sound isAbstract selectors st := by
  refine ⟨?_, ?_, h.apart⟩
  · intro s hs halive
    have hmem : s ∈ st.offsets.map Prod.fst := by
      rw [hmap, hsorted.1.mem_iff]
      exact mem_filter.2 ⟨hs, halive⟩
    rcases mem_map.1 hmem with ⟨⟨s', offset⟩, hp, rfl⟩
    exact ⟨offset, hp⟩
  · intro s offset hp c hc
    rcases h.holds _ hp c hc with ⟨hnonneg, hlt, hslot⟩
    rcases target_of_mem_classIds hc with ⟨t, ht⟩
    refine ⟨hnonneg, hlt, t, ht, ?_⟩
    rw [getElem?_eq_slot (by omega)]
    exact congrArg some (hslot.trans ht)

/-- The offset assignment returns a sound table exactly if every selector but the first of the
sorted list has a concrete class. -/
theorem assignOffsets_sound_iff {isAbstract : ClassAbstractness}
    {selectors sorted : List SelectorInfo} (hsorted : SortedAlive isAbstract selectors sorted) :
    (∃ st, assignOffsets isAbstract sorted = .ok st ∧ Sound isAbstract selectors st) ↔
      ∀ s ∈ sorted.tail, s.classIds isAbstract ≠ [] := by
  have hinit : Placed isAbstract {} := ⟨by simp, by simp⟩
  constructor
  · rintro ⟨st, hrun, -⟩
    cases sorted with
    | nil => simp
    | cons s rest =>
      rcases run_cons_ok.1 hrun with ⟨st₁, hstep, hrest⟩
      rcases assignOffset_spec hinit s (Or.inl rfl) with ⟨st₂, offset, hstep', hfirst, -, -⟩
      have heq : st₁ = st₂ := Except.ok.inj (hstep.symm.trans hstep')
      exact run_assignOffset_ok (heq ▸ hfirst) hrest
  · intro htail
    rcases run_assignOffset_placed hinit (fun _ _ => Or.inl rfl) htail with
      ⟨st, hrun, hplaced, hmap⟩
    exact ⟨st, hrun, hplaced.sound hsorted (by simpa using hmap)⟩

/-- A selector of the classes 1 and 2, and of the abstract class 4. -/
def area : SelectorInfo :=
  ⟨0, 3, false, ⟨[(4, ⟨6, true⟩), (1, ⟨0, false⟩), (2, ⟨1, false⟩)], by decide⟩⟩

def perimeter : SelectorInfo := ⟨1, 2, false, ⟨[(1, ⟨2, false⟩), (3, ⟨3, false⟩)], by decide⟩⟩

/-- A selector whose row lies in between those of the others, at a negative offset. -/
def label : SelectorInfo := ⟨2, 1, false, ⟨[(1, ⟨4, false⟩), (5, ⟨5, false⟩)], by decide⟩⟩

/-- The state after the rows of these selectors have been placed. -/
def sampleState : State where
  table := [some ⟨4, false⟩, some ⟨0, false⟩, some ⟨1, false⟩, some ⟨2, false⟩, some ⟨5, false⟩,
    some ⟨3, false⟩]
  firstAvailable := 6
  first := false
  offsets := [(area, 0), (perimeter, 2), (label, -1)]

theorem assignOffsets_sampleState :
    assignOffsets (· == 4) [area, perimeter, label] = .ok sampleState := rfl

theorem assignOffsets_rows :
    ∃ st, assignOffsets (· == 4) [area, perimeter, label] = .ok st ∧
      Sound (· == 4) [⟨3, 0, false, area.targets⟩, label, area, perimeter] st :=
  (assignOffsets_sound_iff ⟨by decide, by decide⟩).2 (by decide)

/-! ## The Wasm table -/

/-- An element of the Wasm table is set if the target has a function. -/
def output (table : Slots) (functions : FunctionCollector) : Slots :=
  table.map (·.filter (· ∈ functions.functions))

/-- The element for a selector and a class is the target if that is reached, and null otherwise. So
a call of an activated selector on an allocated class finds the function, unless the target is
abstract. -/
theorem slot_output {imports exports : List Reference} (hnodup : exports.Nodup)
    (events : List FunctionCollector.Event) (h : assignOffsets isAbstract selectors = .ok st)
    (hs : (s, offset) ∈ st.offsets) (hc : c ∈ s.classIds isAbstract) (t : Reference) :
    (slot (output st.table (.collect imports exports events)) (offset + c).toNat = some t ↔
      s.targets.get c = some t ∧ FunctionCollector.Reached imports exports events t) ∧
    (.activateSelector s.targets ∈ events → .allocateClass c ∈ events →
      s.targets.get c = some t → t.isAbstract = false →
        slot (output st.table (.collect imports exports events)) (offset + c).toNat = some t) := by
  have hslot : slot (output st.table (.collect imports exports events)) (offset + c).toNat =
      some t ↔
      s.targets.get c = some t ∧ FunctionCollector.Reached imports exports events t := by
    rw [← (FunctionCollector.collect_records hnodup events).functions,
      ← ((assignOffsets_placed h).holds _ hs c hc).2.2]
    cases hget : st.table[(offset + c).toNat]? with
    | none => simp [slot, output, hget]
    | some target => simp [slot, output, hget, Option.filter_eq_some_iff]
  refine ⟨hslot, fun hactivate hallocate hget hconcrete => hslot.2 ⟨hget, ?_⟩⟩
  exact .inr (.inr (.inr ⟨_, c, hactivate, hallocate, hget, hconcrete⟩))

theorem slot_output_perimeter :
    slot (output sampleState.table (.collect [] []
      [.activateSelector perimeter.targets, .allocateClass 3])) 5 = some ⟨3, false⟩ :=
  (slot_output nodup_nil _ assignOffsets_sampleState (show (perimeter, 2) ∈ _ by decide)
    (c := 3) (by decide) ⟨3, false⟩).2 (.head _) (.tail _ (.head _)) rfl rfl

end DispatchTable

end Dart2Wasm
