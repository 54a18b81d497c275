import Mathlib.Data.List.Basic

/-!
# SparseTable — a table that grows when a slot beyond its end is filled

A table is a list of slots, empty (`none`) or filled. Slots beyond the end of the list count as
empty, so filling a slot says the same thing whether or not the table has to grow for it.
-/

namespace Dart2Wasm.Lib

open List

variable {β : Type*}
variable {table : List (Option β)}

/-- The content of a slot; slots beyond the end of the table are empty. -/
def slot (table : List (Option β)) (n : Nat) : Option β :=
  (table[n]?).join

/-- Append empty slots until there is a slot `n`, and fill it. -/
def fillSlot (table : List (Option β)) (n : Nat) (b : Option β) : List (Option β) :=
  (table ++ List.replicate (n + 1 - table.length) none).set n b

@[simp] theorem length_fillSlot (table : List (Option β)) (n : Nat) (b : Option β) :
    (fillSlot table n b).length = max table.length (n + 1) := by
  simp only [fillSlot, length_set, length_append, length_replicate]
  omega

theorem slot_append_replicate (table : List (Option β)) (k m : Nat) :
    slot (table ++ List.replicate k none) m = slot table m := by
  unfold slot
  by_cases hm : m < table.length
  · simp [getElem?_append_left hm]
  · have hnone : table[m]? = none := getElem?_eq_none (Nat.le_of_not_lt hm)
    rw [getElem?_append_right (Nat.le_of_not_lt hm), hnone, getElem?_replicate]
    split <;> rfl

theorem slot_fillSlot (table : List (Option β)) (n : Nat) (b : Option β) (m : Nat) :
    slot (fillSlot table n b) m = if m = n then b else slot table m := by
  have hlen : n < (table ++ replicate (n + 1 - table.length) (none : Option β)).length := by
    simp only [length_append, length_replicate]
    omega
  by_cases hmn : m = n
  · subst hmn
    simp [slot, fillSlot, getElem?_set_self hlen]
  · rw [if_neg hmn, ← slot_append_replicate table (n + 1 - table.length) m]
    simp [slot, fillSlot, getElem?_set_ne (Ne.symm hmn)]

theorem getElem?_eq_slot {n : Nat} (hn : n < table.length) : table[n]? = some (slot table n) := by
  simp [slot, getElem?_eq_getElem hn]

theorem slot_eq_none_of_le {n : Nat} (hn : table.length ≤ n) : slot table n = none := by
  simp [slot, getElem?_eq_none hn]

end Dart2Wasm.Lib
