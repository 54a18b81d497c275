import Mathlib

/-!
# ListBase — which accesses to a list trap

The index operators of `list.dart` leave the check of the index to the Wasm array behind the list.
The array has the length of the capacity, and it is accessed at the lower half of the index.
-/

namespace Dart2Wasm

/-- `_ListBase`: the elements are the start of an array that may be longer. -/
structure ListBase (E : Type) where
  length : Nat
  data : List E
  length_le : length ≤ data.length

namespace ListBase

variable {E : Type}

def elements (list : ListBase E) : List E := list.data.take list.length

/-- The operand of `array_get` and `array_set`, after `i32_wrap_i64` -/
def slot (index : BitVec 64) : Nat := (index.setWidth 32).toNat

/-- `_ListBase.[]`; `none` is a trap. -/
def get (list : ListBase E) (index : BitVec 64) : Option E := list.data[slot index]?

/-- `_ModifiableList.[]=` -/
def set (list : ListBase E) (index : BitVec 64) (value : E) : Option (ListBase E) :=
  if slot index < list.data.length then
    some { list with
      data := list.data.set (slot index) value
      length_le := by
        rw [List.length_set]
        exact list.length_le }
  else none

/-- Outside the length of the list, an access traps only if it is also outside the array: the value
in an unused slot is returned. -/
theorem access_outside_iff (list : ListBase E) (index : BitVec 64) :
    (¬ (0 ≤ index.toInt ∧ index.toInt < list.length) →
      list.get index = none ∧
      ∀ value list', list.set index value = some list' → list'.elements = list.elements) ↔
    (0 ≤ index.toInt ∧ index.toInt < list.length) ∨ list.data.length ≤ slot index := by
  rw [← or_iff_not_imp_left]
  refine or_congr_right ⟨fun h => List.getElem?_eq_none_iff.1 h.1, fun h => ⟨?_, ?_⟩⟩
  · exact List.getElem?_eq_none h
  · intro value list' hset
    rw [set, if_neg (Nat.not_lt.2 h)] at hset
    cases hset

/-- An unused slot is read, and an index past the 32-bit range writes to the first element. -/
theorem access_outside_succeeds :
    (ListBase.mk 1 ["a", "unused"] (by decide)).get 1 = some "unused" ∧
    ((ListBase.mk 1 ["a"] (by decide)).set (2 ^ 32) "b").map elements = some ["b"] := by
  decide

end ListBase
end Dart2Wasm
