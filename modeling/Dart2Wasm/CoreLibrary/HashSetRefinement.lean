import Dart2Wasm.Lib.Pointwise
import Dart2Wasm.CoreLibrary.HashSetMethods

/-!
# HashSetRefinement — programs that use sets

`specExec` says what a program sees when every set is a list without duplicates in insertion order.
The sets of `compact_hash.dart` give the same answers, as long as none of them gets more than
`maxKeys` elements. Without a bound they do not: with `2 ^ 31` elements the index doubles to
`2 ^ 33` pairs, and storing a pair in 32 bits drops its hash pattern.
-/

namespace Dart2Wasm.CompactHash.LinkedHashSet

open Lib Nat Option
open List hiding set

variable {K : Type}
variable {id other n : Nat}
variable {object source : SetObject K} {fields : Fields K} {entries : List (Option K)} {depth : Nat}
  {key : K}

/-! ## Programs over lists -/

structure SpecSet (K : Type) where
  cls : SetClass
  elements : List K

/-- The sets of a program, and the greatest number of elements that one of them ever had. -/
structure SpecHeap (K : Type) where
  sets : List (SpecSet K) := []
  peak : Nat := 0

def SpecHeap.write (s : SpecHeap K) (id : Nat) (set : SpecSet K) (l : List K) : SpecHeap K :=
  { sets := s.sets.set id { set with elements := l }
    peak := max s.peak l.length }

section Spec

variable (rt : Runtime K)

/-- The element of the set that equals a key, if the key is valid. -/
def SpecSet.find (set : SpecSet K) (key : K) : Option K :=
  if rt.accepts set.cls key then findElement (rt.hashing set.cls) key set.elements else none

def SpecSet.erase (set : SpecSet K) (key : K) : List K :=
  if rt.accepts set.cls key then eraseElement (rt.hashing set.cls) key set.elements
  else set.elements

def specOn (s : SpecHeap K) (id : Nat) (set : SpecSet K) : Method K → SpecHeap K × Answer K
  | .add key =>
    (s.write id set (addElement (rt.hashing set.cls) set.elements key),
      .flag (findElement (rt.hashing set.cls) key set.elements).isNone)
  | .remove key =>
    (s.write id set (set.erase rt key), .flag (set.find rt key).isSome)
  | .contains key => (s, .flag (set.find rt key).isSome)
  | .lookup key => (s, .element (set.find rt key))
  | .clear => (s.write id set [], .done)
  | .addAll other =>
    match s.sets[other]? with
    | none => (s, .noSet)
    | some source =>
      (s.write id set
        (source.elements.foldl (addElement (rt.hashing set.cls)) set.elements), .done)
  | .addAllOf elements =>
    (s.write id set (elements.foldl (addElement (rt.hashing set.cls)) set.elements), .done)
  | .regenerateIndex => (s, .done)
  | .first => (s, .ofEnd set.elements.head?)
  | .last => (s, .ofEnd set.elements.getLast?)
  | .length => (s, .number set.elements.length)
  | .elements => (s, .elements set.elements)

def specExec (s : SpecHeap K) : Call K → SpecHeap K × Answer K
  | .create cls => ({ s with sets := s.sets ++ [{ cls := cls, elements := [] }] }, .done)
  | .on id method =>
    match s.sets[id]? with
    | none => (s, .noSet)
    | some set => specOn rt s id set method

def specExecAll : List (Call K) → SpecHeap K → SpecHeap K × List (Answer K)
  | [], s => (s, [])
  | call :: calls, s =>
    ((specExecAll calls (specExec rt s call).1).1,
      (specExec rt s call).2 :: (specExecAll calls (specExec rt s call).1).2)

end Spec

theorem peak_le_specExec (rt : Runtime K) (s : SpecHeap K) (call : Call K) :
    s.peak ≤ (specExec rt s call).1.peak := by
  cases call with
  | create cls => exact le_refl _
  | on id method =>
    rw [specExec]
    split
    · exact le_refl _
    cases method with
    | add | remove | clear | addAllOf => exact le_max_left _ _
    | addAll other =>
      rw [specOn]
      split
      · exact le_refl _
      · exact le_max_left _ _
    | contains | lookup | regenerateIndex | first | last | length | elements =>
      exact le_refl _

theorem peak_le_specExecAll (rt : Runtime K) (calls : List (Call K)) (s : SpecHeap K) :
    s.peak ≤ (specExecAll rt calls s).1.peak := by
  induction calls generalizing s with
  | nil => exact le_refl _
  | cons call calls ih => exact (peak_le_specExec rt s call).trans (ih _)

/-! ## Heaps of sets and heaps of lists -/

def SetRelated (rt : Runtime K) (object : SetObject K) (set : SpecSet K) : Prop :=
  object.cls = set.cls ∧ ∃ entries, Valid kind (rt.hashing set.cls) object.fields entries ∧
    entries.reduceOption = set.elements

def Related (rt : Runtime K) (heap : Heap K) (s : SpecHeap K) : Prop :=
  List.Forall₂ (SetRelated rt) heap s.sets

section Calls

variable {rt : Runtime K} {heap : Heap K} {s : SpecHeap K}

theorem Related.write (h : Related rt heap s) (id : Nat) {set : SpecSet K}
    {l : List K} (hcls : object.cls = set.cls)
    (hvalid : Valid kind (rt.hashing set.cls) fields entries) (hl : entries.reduceOption = l) :
    Related rt (heap.set id { object with fields := fields }) (s.write id set l) :=
  forall₂_set_set h id ⟨hcls, entries, hvalid, hl⟩

theorem Related.changed {set : SpecSet K} {l : List K} {heap' : Heap K} (h : Related rt heap s)
    (hcls : object.cls = set.cls) (hchanged : Changed kind rt.hashing heap id object l heap') :
    Related rt heap' (s.write id set l) := by
  obtain ⟨fields, entries, rfl, hvalid, hl⟩ := hchanged
  exact h.write id hcls (hcls ▸ hvalid) hl

theorem blockCopies_eq {c c' : SetClass} (h : c.blockCopies c' = true) : c = c' := by
  cases c <;> cases c' <;> first | rfl | cases h

theorem addAll_refines (h : Related rt heap s) (hlaw : ∀ c, (rt.hashing c).Lawful) (depth : Nat)
    {set set' : SpecSet K} (hid : heap[id]? = some object) (hrelated : SetRelated rt object set)
    (hother : heap[other]? = some source) (hrelated' : SetRelated rt source set')
    (hcap : (set'.elements.foldl (addElement (rt.hashing set.cls)) set.elements).length ≤ maxKeys) :
    ∃ heap', addAll rt (depth + 2) id other heap = some (heap', false) ∧
      Related rt heap' (s.write id set
        (set'.elements.foldl (addElement (rt.hashing set.cls)) set.elements)) := by
  obtain ⟨hcls, entries, hvalid, hl⟩ := hrelated
  obtain ⟨hcls', entries', hvalid', hl'⟩ := hrelated'
  rw [← hcls] at hvalid hcap ⊢
  rw [← hcls'] at hvalid'
  rw [← hl, ← hl'] at hcap ⊢
  obtain ⟨heap', hadd, hchanged⟩ :=
    addAll_changed (fun c => add_putsInto (hlaw c) rt.has63BitSmis depth) hid forIn_traverses hvalid
      hlaw blockCopies_eq hother hvalid' hcap
  exact ⟨heap', hadd, h.changed hcls hchanged⟩

theorem exec_refines (h : Related rt heap s) (hlaw : ∀ c, (rt.hashing c).Lawful) (depth : Nat)
    (call : Call K) (hpeak : (specExec rt s call).1.peak ≤ maxKeys) :
    ∃ heap', exec rt (depth + 2) heap call = some (heap', (specExec rt s call).2) ∧
      Related rt heap' (specExec rt s call).1 := by
  cases call with
  | create cls =>
    exact ⟨_, rfl, rel_append h (.cons ⟨rfl, [], .inl ⟨.new, rfl⟩, rfl⟩ .nil)⟩
  | on id method =>
    rw [specExec] at hpeak ⊢
    rw [exec]
    rcases forall₂_getElem?_cases h id with ⟨hid, hset⟩ | ⟨object, set, hid, hset, hrelated⟩
    · rw [hid, hset]
      exact ⟨heap, rfl, h⟩
    rw [hset] at hpeak
    rw [hid, hset]
    have hobject := hrelated
    obtain ⟨hcls, entries, hvalid, hl⟩ := hobject
    obtain ⟨spare, hlayout⟩ := hvalid.layout
    dsimp only at hpeak ⊢
    cases method with
    | add key =>
      obtain ⟨fields, entries', hadd, hvalid', hl'⟩ := valid_add (hlaw _) hvalid
        rt.has63BitSmis depth key (by rw [hl]; exact (le_max_right _ _).trans hpeak)
      rw [hl] at hadd hl'
      rw [execOn, hcls, hadd]
      exact ⟨_, rfl, hcls ▸ h.write id hcls hvalid' hl'⟩
    | remove key =>
      rw [execOn, specOn, SpecSet.erase, SpecSet.find, hcls]
      split
      · obtain ⟨fields, entries', hremove, hvalid', hl'⟩ := valid_remove (hlaw _) hvalid key
        rw [hl] at hremove hl'
        have hwrite := h.write id hcls hvalid' hl'
        rw [hcls] at hwrite
        rw [hremove]
        exact ⟨_, rfl, hwrite⟩
      · exact ⟨_, rfl, hcls ▸ h.write id hcls hvalid hl⟩
    | contains key =>
      rw [execOn, specOn, SpecSet.find, hcls, contains, valid_getKeyOrData (hlaw _) hvalid, hl]
      split <;> exact ⟨heap, rfl, h⟩
    | lookup key =>
      rw [execOn, specOn, SpecSet.find, hcls, lookup, valid_getKeyOrData (hlaw _) hvalid, hl]
      split <;> exact ⟨heap, rfl, h⟩
    | clear =>
      obtain ⟨entries', hvalid', hl'⟩ := hvalid.clear
      exact ⟨_, rfl, h.write id hcls hvalid' hl'⟩
    | addAll other =>
      rw [specOn] at hpeak ⊢
      rw [execOn]
      rcases forall₂_getElem?_cases h other with
        ⟨hother, hset'⟩ | ⟨source, set', hother, hset', hrelated'⟩
      · rw [hother, hset']
        exact ⟨heap, rfl, h⟩
      rw [hset'] at hpeak
      rw [hother, hset']
      obtain ⟨heap', hadd, h'⟩ := addAll_refines h hlaw depth hid hrelated hother hrelated'
        ((le_max_right _ _).trans hpeak)
      rw [hadd]
      exact ⟨heap', rfl, h'⟩
    | addAllOf elements =>
      obtain ⟨heap', hadd, hchanged⟩ := (Changed.start hid (hcls ▸ hvalid)).foldlM_putAt
        (fun c => add_putsInto (hlaw c) rt.has63BitSmis depth) hid elements
        (by rw [hcls, hl]; exact (le_max_right _ _).trans hpeak)
      rw [hcls, hl] at hchanged
      rw [execOn, addAt, hadd]
      exact ⟨heap', rfl, h.changed hcls hchanged⟩
    | regenerateIndex =>
      obtain ⟨fields, entries', hregen, hvalid', hl'⟩ :=
        valid_regenerateIndex hvalid (hlaw _) rt.has63BitSmis (depth + 1)
      rw [execOn, hcls, hregen]
      refine ⟨_, rfl, ?_⟩
      have hsame := forall₂_set_set h id
        (show SetRelated rt { cls := set.cls, fields := fields } set from
          ⟨rfl, entries', hvalid', hl'.trans hl⟩)
      rw [show s.sets.set id set = s.sets from set_self hset] at hsame
      exact hsame
    | first =>
      rw [execOn, layout_first hlayout, hl]
      exact ⟨heap, rfl, h⟩
    | last =>
      rw [execOn, layout_last hlayout, hl]
      exact ⟨heap, rfl, h⟩
    | length =>
      rw [execOn, length, hlayout.length_eq, hl]
      exact ⟨heap, rfl, h⟩
    | elements =>
      rw [execOn, layout_elements hlayout, hl]
      exact ⟨heap, rfl, h⟩

theorem execAll_refines (hlaw : ∀ c, (rt.hashing c).Lawful) (depth : Nat) (calls : List (Call K))
    (h : Related rt heap s) (hpeak : (specExecAll rt calls s).1.peak ≤ maxKeys) :
    ∃ heap', execAll rt (depth + 2) calls heap = some (heap', (specExecAll rt calls s).2) ∧
      Related rt heap' (specExecAll rt calls s).1 := by
  induction calls generalizing heap s with
  | nil => exact ⟨heap, rfl, h⟩
  | cons call calls ih =>
    rw [specExecAll] at hpeak ⊢
    obtain ⟨heap₁, hcall, h₁⟩ := exec_refines h hlaw depth call
      ((peak_le_specExecAll rt calls _).trans hpeak)
    obtain ⟨heap₂, hcalls, h₂⟩ := ih h₁ hpeak
    refine ⟨heap₂, ?_, h₂⟩
    rw [execAll, hcall]
    simp only [some_bind, hcalls]

end Calls

/-- Every sequence of calls gives the answers of lists without duplicates in insertion order, and
leaves sets that iterate over their elements. The result exists, so every probe loop has ended. -/
theorem linkedHashSet_refines (rt : Runtime K) (hlaw : ∀ c, (rt.hashing c).Lawful) (depth : Nat)
    (hdepth : 2 ≤ depth) (calls : List (Call K))
    (hpeak : (specExecAll rt calls {}).1.peak ≤ maxKeys) :
    ∃ heap, execAll rt depth calls [] = some (heap, (specExecAll rt calls {}).2) ∧
      heap.map (fun object => elements object.fields) =
        (specExecAll rt calls {}).1.sets.map (fun set => some set.elements) ∧
      ∀ set ∈ (specExecAll rt calls {}).1.sets, Distinct (rt.hashing set.cls) set.elements := by
  obtain ⟨depth, rfl⟩ : ∃ d, depth = d + 2 := ⟨depth - 2, by omega⟩
  have hstart : Related rt ([] : Heap K) {} := .nil
  obtain ⟨heap, hexec, h⟩ := execAll_refines hlaw depth calls hstart hpeak
  refine ⟨heap, hexec, forall₂_map_eq h ?_, fun set hset => ?_⟩
  · rintro object set ⟨-, entries, hvalid, hl⟩
    obtain ⟨spare, hlayout⟩ := hvalid.layout
    rw [layout_elements hlayout, hl]
  · obtain ⟨id, hid, hget⟩ := getElem_of_mem hset
    obtain ⟨object, -, -, entries, hvalid, hl⟩ :=
      forall₂_getElem? h (by rw [getElem?_eq_getElem hid, hget])
    rw [← hl]
    exact valid_distinct hvalid

/-- All sets compare numbers, on a machine with small integers of 63 bits; the custom sets take the
even ones for valid. -/
def numbersRuntime : Runtime Nat where
  has63BitSmis := true
  hashing _ := collidingNumbers
  validKey _ key := key % 2 == 0

/-- Colliding elements, a removal, a regenerated index, a block copy, a set added to itself, and a
custom set that holds an element it does not find. -/
def sampleCalls : List (Call Nat) :=
  [.create .compact, .on 0 (.addAllOf [4, 2, 4, 7, 1, 3]), .on 0 (.remove 2),
    .on 0 .regenerateIndex, .create .compact, .on 1 (.addAll 0), .on 1 (.addAll 1),
    .on 1 (.lookup 7), .on 1 .first, .on 1 .last, .create (.custom 0), .on 2 (.add 5),
    .on 2 (.contains 5), .on 2 (.remove 5), .on 2 .length, .on 0 .elements]

theorem linkedHashSet_refines_sampleCalls :
    ∃ heap, execAll numbersRuntime 2 sampleCalls [] =
        some (heap, (specExecAll numbersRuntime sampleCalls {}).2) ∧
      heap.map (fun object => elements object.fields) =
        (specExecAll numbersRuntime sampleCalls {}).1.sets.map (fun set => some set.elements) ∧
      ∀ set ∈ (specExecAll numbersRuntime sampleCalls {}).1.sets,
        Distinct (numbersRuntime.hashing set.cls) set.elements :=
  linkedHashSet_refines numbersRuntime (fun _ => collidingNumbers_lawful) 2 (le_refl 2)
    sampleCalls (by decide +kernel)

example : (specExecAll numbersRuntime sampleCalls {}).2.getLast? =
    some (.elements [4, 7, 1, 3]) := by
  decide +kernel

/-! ## Beyond the bound -/

theorem contains_ne_true {hashing : Hashing K} {m : Fields K}
    (h : ∀ i j, kind.find hashing m key ≠ some (.found i j)) :
    contains hashing m key ≠ some true := by
  rw [contains, getKeyOrData]
  cases hfind : kind.find hashing m key with
  | none => simp
  | some found =>
    cases found with
    | absent i => simp
    | found i j => exact absurd hfind (h i j)

theorem execAll_cons {rt : Runtime K} {call : Call K} {calls : List (Call K)} {heap heap' : Heap K}
    {answers : List (Answer K)}
    (hexec : execAll rt depth (call :: calls) heap = some (heap', answers)) :
    ∃ heap₁ answer log, exec rt depth heap call = some (heap₁, answer) ∧
      execAll rt depth calls heap₁ = some (heap', log) ∧ answers = answer :: log := by
  obtain ⟨⟨heap₁, answer⟩, hcall, hrest⟩ := bind_eq_some_iff.1 hexec
  obtain ⟨⟨heap₂, log⟩, hcalls, heq⟩ := bind_eq_some_iff.1 hrest
  cases heq
  exact ⟨heap₁, answer, log, hcall, hcalls, rfl⟩

section Fill

def fill (n : Nat) : List (Call Nat) :=
  (List.range n).map fun k => .on 0 (.add k)

variable {fields fields' : Fields Nat} {answers : List (Answer Nat)} {heap : Heap Nat}
  {calls : List (Call Nat)}

theorem execAll_add (hexec : execAll numbersRuntime depth (.on 0 (.add n) :: calls)
      [{ cls := .compact, fields := fields }] = some (heap, answers)) :
    ∃ fields' b log,
      add numbersRuntime.has63BitSmis collidingNumbers depth fields n = some (fields', b) ∧
      execAll numbersRuntime depth calls [{ cls := .compact, fields := fields' }] =
        some (heap, log) ∧
      answers = .flag b :: log := by
  obtain ⟨heap₁, answer, log, hcall, hcalls, rfl⟩ := execAll_cons hexec
  obtain ⟨⟨fields', b⟩, hadd, heq⟩ := map_eq_some_iff.1 hcall
  cases heq
  exact ⟨fields', b, log, hadd, hcalls, rfl⟩

theorem filled_not_found {r : Nat} (h : Filled kind (fun k => k) n fields) (hr : n + r = 2 ^ 31)
    (hexec : execAll numbersRuntime (depth + 2)
      ((range' n (r + 1)).map (fun k => .on 0 (.add k)) ++ [.on 0 (.contains 0)])
      [{ cls := .compact, fields := fields }] = some (heap, answers)) :
    answers.getLast? ≠ some (.flag true) := by
  induction r generalizing n fields answers with
  | zero =>
    obtain ⟨fields', b, log, hadd, hlast, rfl⟩ := execAll_add hexec
    have hnot := contains_ne_true fun i j => h.overflows (fun _ => rfl)
      (puts_add true collidingNumbers) hr (map_eq_some_iff.2 ⟨_, hadd, rfl⟩) (i := i) (j := j) 0
    obtain ⟨_, answer, log, hcontains, hend, rfl⟩ := execAll_cons hlast
    obtain ⟨found, hfound, heq⟩ := map_eq_some_iff.1 hcontains
    cases heq
    cases hend
    rintro hflag
    cases hflag
    exact hnot hfound
  | succ r ih =>
    obtain ⟨fields', b, log, hadd, hrest, rfl⟩ := execAll_add hexec
    obtain ⟨fields'', hadd', hfilled⟩ :=
      h.put_next (fun _ => rfl) (puts_add true collidingNumbers) (by omega) depth
    cases (map_eq_some_iff.2 ⟨_, hadd, rfl⟩).symm.trans hadd'
    have hlog := ih hfilled (by omega) hrest
    obtain ⟨_, answer, log, -, -, rfl⟩ := execAll_cons hrest
    rwa [getLast?_cons_cons]

/-- One more number than `n`, and a look at the first of them. -/
def fillAndFind (n : Nat) : List (Call Nat) :=
  .create .compact :: (fill (n + 1) ++ [.on 0 (.contains 0)])

theorem specExecAll_found {r : Nat} {s : SpecHeap Nat}
    (hs : s.sets = [{ cls := .compact, elements := range n }]) (hr : 0 < n + r) :
    (specExecAll numbersRuntime ((range' n r).map (fun k => .on 0 (.add k)) ++
      [.on 0 (.contains 0)]) s).2.getLast? = some (.flag true) := by
  induction r generalizing n s with
  | zero =>
    have hfound : (findElement collidingNumbers 0 (range n)).isSome = true := by
      rw [findElement, find?_isSome]
      exact ⟨0, mem_range.2 hr, rfl⟩
    rw [range'_zero, map_nil, nil_append, specExecAll, specExec, hs]
    exact congrArg (fun b => some (Answer.flag b)) hfound
  | succ r ih =>
    rw [range'_succ, map_cons, cons_append, specExecAll]
    rw [getLast?_cons, ih (n := n + 1) ?_ (by omega)]
    · rfl
    · rw [specExec, hs]
      simp only [getElem?_cons_zero, specOn, SpecHeap.write, hs]
      show [SpecSet.mk .compact (addElement collidingNumbers (range n) n)] = _
      rw [addElement_absent fun x hx => equals_range (T := kind) (by simpa using hx) fun _ => rfl,
        range_succ]

theorem fillAndFind_overflows (hn : n = 2 ^ 31) (depth : Nat) (heap : Heap Nat) :
    execAll numbersRuntime (depth + 2) (fillAndFind n) [] ≠
      some (heap, (specExecAll numbersRuntime (fillAndFind n) {}).2) := by
  intro hexec
  rw [fillAndFind, fill, range_eq_range', specExecAll] at hexec
  obtain ⟨heap₁, answer, log, hcreate, hcalls, hlog⟩ := execAll_cons hexec
  cases hcreate
  have hfilled : Filled kind (fun k => k) 0 ({} : Fields Nat) := .inl ⟨rfl, .new⟩
  refine filled_not_found (r := n) hfilled (by omega) hcalls ?_
  rw [← (cons.inj hlog).2]
  exact specExecAll_found rfl (by omega)

/-- After `2 ^ 31 + 1` insertions the set no longer finds its first element. -/
theorem linkedHashSet_overflows :
    collidingNumbers.Lawful ∧
      ¬ ∃ depth heap, execAll numbersRuntime (depth + 2) (fillAndFind (2 ^ 31)) [] =
        some (heap, (specExecAll numbersRuntime (fillAndFind (2 ^ 31)) {}).2) :=
  ⟨collidingNumbers_lawful, fun ⟨depth, heap, hexec⟩ =>
    fillAndFind_overflows rfl depth heap hexec⟩

end Fill

end Dart2Wasm.CompactHash.LinkedHashSet
