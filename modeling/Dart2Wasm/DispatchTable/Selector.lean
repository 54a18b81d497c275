import Mathlib.Data.List.Sort
import Dart2Wasm.Lib.OrderedMap

/-!
# DispatchTable.Selector — references and target maps

A selector maps the ids of the classes that understand it to the members they run. The map is
filled by the collection phase of the dispatch table and does not change afterwards.
-/

namespace Dart2Wasm

/-- Position of a class in the translator's list of classes. -/
abbrev ClassId := Nat

/-- A kernel reference to a member, with what the dispatch table asks of the member. -/
structure Reference where
  member : Nat
  isAbstract : Bool
  deriving DecidableEq

/-- The `targets` map of a selector. -/
abbrev TargetMap := Lib.OrderedMap ClassId Reference

/-- Sorting different ids. -/
theorem insertionSort_lt {ids : List Nat} (h : ids.Nodup) :
    (ids.insertionSort (· ≤ ·)).Pairwise (· < ·) := by
  have hsorted : (ids.insertionSort (· ≤ ·)).Pairwise (· ≤ ·) := List.pairwise_insertionSort _ _
  have hnodup : (ids.insertionSort (· ≤ ·)).Nodup := (List.perm_insertionSort _ _).nodup_iff.2 h
  exact (hsorted.and hnodup).imp fun h => Nat.lt_of_le_of_ne h.1 h.2

end Dart2Wasm
