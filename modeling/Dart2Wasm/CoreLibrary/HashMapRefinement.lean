import Dart2Wasm.Lib.Pointwise
import Dart2Wasm.CoreLibrary.HashMapMethods

/-!
# HashMapRefinement — programs that use maps

A program makes calls on maps, some of them from inside the callback of `putIfAbsent`. `specExec`
says what such a program sees when every map is an association list in insertion order. The maps of
`compact_hash.dart` give the same answers, as long as none of them gets more than `maxKeys` keys:
the pairs of the index have 32 bits, and an index of `2 ^ 33` of them cannot refer to its entries.
-/

namespace Dart2Wasm.CompactHash.LinkedHashMap

open Lib Nat

variable {K V : Type}
variable {object source : MapObject K V} {fields : Fields K V} {entries : List (Option (K × V))}
  {l : List (K × V)}

/-! ## Programs over association lists -/

structure SpecMap (K V : Type) where
  cls : MapClass
  pairs : List (K × V)

/-- The maps of a program, and the greatest number of keys that one of them ever had. -/
structure SpecHeap (K V : Type) where
  maps : List (SpecMap K V) := []
  peak : Nat := 0

def SpecHeap.write (s : SpecHeap K V) (id : Nat) (map : SpecMap K V) (l : List (K × V)) :
    SpecHeap K V :=
  { maps := s.maps.set id { map with pairs := l }
    peak := max s.peak l.length }

def SpecHeap.on (s : SpecHeap K V) (id : Nat)
    (spec : SpecMap K V → SpecHeap K V × List (Answer K V)) : SpecHeap K V × List (Answer K V) :=
  match s.maps[id]? with
  | none => (s, [.noMap])
  | some map => spec map

section Spec

variable (rt : Runtime K)

def SpecMap.lookup (map : SpecMap K V) (key : K) : Option V :=
  if rt.accepts map.cls key then LinkedHashMap.lookup (rt.hashing map.cls) key map.pairs else none

def SpecMap.erase (map : SpecMap K V) (key : K) : List (K × V) :=
  if rt.accepts map.cls key then LinkedHashMap.erase (rt.hashing map.cls) key map.pairs
  else map.pairs

mutual

def specExec : Call K V → SpecHeap K V → SpecHeap K V × List (Answer K V)
  | .create cls, s => ({ s with maps := s.maps ++ [{ cls := cls, pairs := [] }] }, [.done])
  | .set id key value, s =>
    s.on id fun map => (s.write id map (put (rt.hashing map.cls) key value map.pairs), [.done])
  | .get id key, s =>
    s.on id fun map => (s, [.value (map.lookup rt key)])
  | .containsKey id key, s =>
    s.on id fun map => (s, [.flag (map.lookup rt key).isSome])
  | .remove id key, s =>
    s.on id fun map => (s.write id map (map.erase rt key), [.value (map.lookup rt key)])
  | .putIfAbsent id key ifAbsent result, s =>
    s.on id fun map =>
      match lookup (rt.hashing map.cls) key map.pairs with
      | some v => (s, [.value (some v)])
      | none =>
        let (s, log) := specExecAll ifAbsent s
        match result, s.maps[id]? with
        | some value, some after =>
          (s.write id after (put (rt.hashing map.cls) key value after.pairs),
            log ++ [.value (some value)])
        | _, _ => (s, log ++ [.callbackThrew])
  | .clear id, s =>
    s.on id fun map => (s.write id map [], [.done])
  | .addAll id other, s =>
    match s.maps[id]?, s.maps[other]? with
    | some map, some source =>
      (s.write id map (putAll (rt.hashing map.cls) map.pairs source.pairs), [.done])
    | _, _ => (s, [.noMap])
  | .length id, s =>
    s.on id fun map => (s, [.number map.pairs.length])
  | .pairs id, s =>
    s.on id fun map => (s, [.pairs map.pairs])

def specExecAll : List (Call K V) → SpecHeap K V → SpecHeap K V × List (Answer K V)
  | [], s => (s, [])
  | call :: calls, s =>
    let (s, log) := specExec call s
    let (s, log') := specExecAll calls s
    (s, log ++ log')

end

end Spec

variable {id other : Nat} {map : SpecMap K V}

theorem specExecAll_cons (rt : Runtime K) (call : Call K V) (calls : List (Call K V))
    (s : SpecHeap K V) :
    specExecAll rt (call :: calls) s =
      ((specExecAll rt calls (specExec rt call s).1).1,
        (specExec rt call s).2 ++ (specExecAll rt calls (specExec rt call s).1).2) := rfl

mutual

theorem peak_le_specExec (rt : Runtime K) :
    ∀ (call : Call K V) (s : SpecHeap K V), s.peak ≤ (specExec rt call s).1.peak
  | .create cls, s => by
    rw [specExec]
  | .set .., s | .remove .., s | .clear _, s => by
    rw [specExec, SpecHeap.on]
    split
    · exact le_refl _
    · exact le_max_left _ _
  | .get .., s | .containsKey .., s | .length _, s | .pairs _, s => by
    rw [specExec, SpecHeap.on]
    split <;> exact le_refl _
  | .putIfAbsent id key ifAbsent result, s => by
    rw [specExec, SpecHeap.on]
    split
    · exact le_refl _
    split
    · exact le_refl _
    · have hbody := peak_le_specExecAll rt ifAbsent s
      dsimp only
      split
      · exact hbody.trans (le_max_left _ _)
      · exact hbody
  | .addAll id other, s => by
    rw [specExec]
    split
    · exact le_max_left _ _
    · exact le_refl _

theorem peak_le_specExecAll (rt : Runtime K) :
    ∀ (calls : List (Call K V)) (s : SpecHeap K V), s.peak ≤ (specExecAll rt calls s).1.peak
  | [], s => by
    rw [specExecAll]
  | call :: calls, s => by
    rw [specExecAll_cons]
    exact (peak_le_specExec rt call s).trans (peak_le_specExecAll rt calls _)

end

/-! ## Heaps of maps and heaps of lists -/

def MapRelated (rt : Runtime K) (object : MapObject K V) (map : SpecMap K V) : Prop :=
  object.cls = map.cls ∧ ∃ entries, Valid kind (rt.hashing map.cls) object.fields entries ∧
    entries.reduceOption = map.pairs

def Related (rt : Runtime K) (heap : Heap K V) (s : SpecHeap K V) : Prop :=
  List.Forall₂ (MapRelated rt) heap s.maps

/-- Within `maxKeys` a run ends as it does over association lists. -/
def Refines (rt : Runtime K) (r : Option (Heap K V × List (Answer K V)))
    (spec : SpecHeap K V × List (Answer K V)) : Prop :=
  spec.1.peak ≤ maxKeys → ∃ heap, r = some (heap, spec.2) ∧ Related rt heap spec.1

namespace Related

variable {rt : Runtime K} {heap : Heap K V} {s : SpecHeap K V}

variable (h : Related rt heap s)
include h

/-- A call on one map: it is there in both heaps or in neither. -/
theorem call {run : MapObject K V → Option (Heap K V × List (Answer K V))}
    {spec : SpecMap K V → SpecHeap K V × List (Answer K V)} (id : Nat)
    (hcall : ∀ object map, heap[id]? = some object → s.maps[id]? = some map →
      MapRelated rt object map → Refines rt (run object) (spec map)) :
    Refines rt (onMap heap id run) (s.on id spec) := by
  rw [onMap, SpecHeap.on]
  rcases forall₂_getElem?_cases h id with ⟨hid, hmap⟩ | ⟨object, map, hid, hmap, hrelated⟩
  · rw [hid, hmap]
    exact fun _ => ⟨heap, rfl, h⟩
  · rw [hid, hmap]
    exact hcall object map hid hmap hrelated

theorem write (id : Nat) (hcls : object.cls = map.cls)
    (hvalid : Valid kind (rt.hashing map.cls) fields entries) (hl : entries.reduceOption = l) :
    Related rt (heap.set id { object with fields := fields }) (s.write id map l) :=
  forall₂_set_set h id ⟨hcls, entries, hvalid, hl⟩

theorem laidOut : HeapLaidOut heap := by
  intro object hmem
  obtain ⟨map, -, -, entries, hvalid, -⟩ := forall₂_exists_mem h hmem
  exact ⟨entries, hvalid.layout⟩

end Related

/-! ## The calls -/

section Calls

variable {rt : Runtime K} {heap : Heap K V} {s : SpecHeap K V}

theorem blockCopies_eq {c c' : MapClass} (h : c.blockCopies c' = true) : c = c' := by
  cases c <;> cases c' <;> first | rfl | cases h

theorem addAll_refines (h : Related rt heap s) (hlaw : ∀ c, (rt.hashing c).Lawful) (depth : Nat)
    {map' : SpecMap K V} (hid : heap[id]? = some object) (hrelated : MapRelated rt object map)
    (hother : heap[other]? = some source) (hrelated' : MapRelated rt source map')
    (hcap : (putAll (rt.hashing map.cls) map.pairs map'.pairs).length ≤ maxKeys) :
    ∃ heap', addAll rt (depth + 2) id other heap = some (heap', false) ∧
      Related rt heap'
        (s.write id map (putAll (rt.hashing map.cls) map.pairs map'.pairs)) := by
  obtain ⟨hcls, entries, hvalid, hl⟩ := hrelated
  obtain ⟨hcls', entries', hvalid', hl'⟩ := hrelated'
  rw [← hcls] at hvalid hcap ⊢
  rw [← hcls'] at hvalid'
  rw [← hl, ← hl'] at hcap ⊢
  obtain ⟨heap', hadd, fields, entries'', rfl, hvalid'', hl''⟩ :=
    addAll_changed (fun c => indexSet_putsInto (hlaw c) rt.has63BitSmis depth) hid
      forEach_traverses hvalid hlaw blockCopies_eq hother hvalid' hcap
  exact ⟨_, hadd, h.write id hcls (hcls ▸ hvalid'') hl''⟩

end Calls

/-! ## Programs -/

mutual

theorem exec_refines {rt : Runtime K} (hlaw : ∀ c, (rt.hashing c).Lawful) (depth : Nat) :
    ∀ (call : Call K V) {heap : Heap K V} {s : SpecHeap K V}, Related rt heap s →
      Refines rt (exec rt (depth + 2) call heap) (specExec rt call s)
  | .create cls, heap, s, h => by
    rw [exec, specExec]
    refine fun _ => ⟨_, rfl, List.rel_append h (.cons ?_ .nil)⟩
    exact ⟨rfl, [], .inl ⟨.new, rfl⟩, rfl⟩
  | .set id key value, heap, s, h => by
    rw [exec, specExec]
    refine h.call id fun object map hid hmap ⟨hcls, entries, hvalid, hl⟩ hpeak => ?_
    obtain ⟨fields, entries', hset, hvalid', hl'⟩ := valid_indexSet (hlaw _)
      rt.has63BitSmis depth hvalid key value (by rw [hl]; exact (le_max_right _ _).trans hpeak)
    rw [indexSetAt, putAt_eq hid (hcls ▸ hset)]
    exact ⟨_, rfl, h.write id hcls hvalid' (hl ▸ hl')⟩
  | .get id key, heap, s, h => by
    rw [exec, specExec]
    refine h.call id fun object map _ _ ⟨hcls, entries, hvalid, hl⟩ _ => ⟨heap, ?_, h⟩
    rw [hcls, LinkedHashMap.get, valid_getValueOrData (hlaw _) hvalid, hl, SpecMap.lookup]
    split <;> rfl
  | .containsKey id key, heap, s, h => by
    rw [exec, specExec]
    refine h.call id fun object map _ _ ⟨hcls, entries, hvalid, hl⟩ _ => ⟨heap, ?_, h⟩
    rw [hcls, LinkedHashMap.containsKey, valid_getValueOrData (hlaw _) hvalid, hl, SpecMap.lookup]
    split <;> rfl
  | .remove id key, heap, s, h => by
    rw [exec, specExec]
    refine h.call id fun object map _ _ ⟨hcls, entries, hvalid, hl⟩ _ => ?_
    rw [hcls, SpecMap.erase, SpecMap.lookup]
    split
    · obtain ⟨fields, entries', hremove, hvalid', hl'⟩ := valid_remove (hlaw _) hvalid key
      have hwrite := h.write id hcls hvalid' hl'
      rw [hl, hcls] at hwrite
      rw [hremove, hl]
      exact ⟨_, rfl, hwrite⟩
    · have hwrite := h.write id hcls hvalid hl
      rw [hcls] at hwrite
      exact ⟨_, rfl, hwrite⟩
  | .putIfAbsent id key ifAbsent result, heap, s, h => by
    rw [exec, specExec]
    refine h.call id fun object map hid _ ⟨hcls, entries, hvalid, hl⟩ => ?_
    obtain ⟨spare, hlayout⟩ := hvalid.layout
    rw [hcls]
    rcases hvalid.find_cases (hlaw _) key with
      ⟨i, j, ⟨k, v⟩, b, l, l', hfind, -, hj, heq, -, hsplit, hbefore, -⟩ | ⟨i, hfind, hnew⟩
    · have hpos : ((2 * j : Nat) : Int) + 1 > 0 := by omega
      have hnat : (((2 * j : Nat) : Int) + 1).toNat = 2 * j + 1 := by omega
      rw [findValueOrInsertPoint_found hfind, ← hl, hsplit, lookup_present hbefore v (k := k) heq]
      simp only [some_bind, if_pos hpos, hnat, valueAt_eq hlayout hj, Option.map_some]
      exact fun _ => ⟨heap, rfl, h⟩
    · have hneg : ¬ (-(i : Int) > 0) := by omega
      rw [← hl, lookup_absent hnew, findValueOrInsertPoint_absent hfind]
      simp only [some_bind, if_neg hneg]
      intro hpeak
      have hbodyPeak : (specExecAll rt ifAbsent s).1.peak ≤ maxKeys := by
        refine le_trans ?_ hpeak
        split
        · exact le_max_left _ _
        · exact le_refl _
      obtain ⟨heap₁, hbody, h₁⟩ := execAll_refines hlaw depth ifAbsent h hbodyPeak
      rw [hbody]
      cases result with
      | none => exact ⟨heap₁, rfl, h₁⟩
      | some value =>
        obtain ⟨after, hafter, hclsAfter, hevolves⟩ :=
          (execAll_next rt (depth + 2) ifAbsent h.laidOut hbody).2 id object hid
        obtain ⟨map₁, hmap₁, hcls₁, entries₁, hvalid₁, hl₁⟩ := forall₂_getElem? h₁.flip hafter
        have hsame : map₁.cls = map.cls := by rw [← hcls₁, hclsAfter, hcls]
        rw [hmap₁] at hpeak ⊢
        obtain ⟨fields, entries₂, hput, hvalid₂, hl₂⟩ :=
          valid_putAbsent (hlaw _) rt.has63BitSmis depth (hsame ▸ hvalid₁) hfind hevolves value
            (by rw [hl₁]; exact (le_max_right _ _).trans hpeak)
        simp only [hafter, some_bind, hput]
        exact ⟨_, rfl, h₁.write id hcls₁ (hsame ▸ hvalid₂) (hl₁ ▸ hl₂)⟩
  | .clear id, heap, s, h => by
    rw [exec, specExec]
    refine h.call id fun object map _ _ ⟨hcls, entries, hvalid, hl⟩ _ => ?_
    obtain ⟨entries', hvalid', hl'⟩ := hvalid.clear
    exact ⟨_, rfl, h.write id hcls hvalid' hl'⟩
  | .addAll id other, heap, s, h => by
    rw [exec, specExec]
    rcases forall₂_getElem?_cases h id with ⟨hid, hmap⟩ | ⟨object, map, hid, hmap, hrelated⟩
    · rw [hid, hmap]
      exact fun _ => ⟨heap, rfl, h⟩
    rcases forall₂_getElem?_cases h other with
      ⟨hother, hmap'⟩ | ⟨source, map', hother, hmap', hrelated'⟩
    · rw [hid, hmap, hother, hmap']
      exact fun _ => ⟨heap, rfl, h⟩
    rw [hid, hmap, hother, hmap']
    intro hpeak
    obtain ⟨heap', hadd, h'⟩ := addAll_refines h hlaw depth hid hrelated hother hrelated'
      ((le_max_right _ _).trans hpeak)
    rw [hadd]
    exact ⟨heap', rfl, h'⟩
  | .length id, heap, s, h => by
    rw [exec, specExec]
    refine h.call id fun object map _ _ ⟨hcls, entries, hvalid, hl⟩ _ => ⟨heap, ?_, h⟩
    obtain ⟨spare, hlayout⟩ := hvalid.layout
    rw [length, hlayout.length_eq, hl]
  | .pairs id, heap, s, h => by
    rw [exec, specExec]
    refine h.call id fun object map _ _ ⟨hcls, entries, hvalid, hl⟩ _ => ⟨heap, ?_, h⟩
    rw [valid_pairs hvalid, hl]
    rfl

theorem execAll_refines {rt : Runtime K} (hlaw : ∀ c, (rt.hashing c).Lawful) (depth : Nat) :
    ∀ (calls : List (Call K V)) {heap : Heap K V} {s : SpecHeap K V}, Related rt heap s →
      Refines rt (execAll rt (depth + 2) calls heap) (specExecAll rt calls s)
  | [], heap, s, h => by
    rw [execAll, specExecAll]
    exact fun _ => ⟨heap, rfl, h⟩
  | call :: calls, heap, s, h => by
    rw [specExecAll_cons, execAll]
    intro hpeak
    obtain ⟨heap₁, hcall, h₁⟩ := exec_refines hlaw depth call h
      ((peak_le_specExecAll rt calls _).trans hpeak)
    obtain ⟨heap₂, hcalls, h₂⟩ := execAll_refines hlaw depth calls h₁ hpeak
    rw [hcall]
    simp only [some_bind, hcalls]
    exact ⟨heap₂, rfl, h₂⟩

end

end Dart2Wasm.CompactHash.LinkedHashMap
