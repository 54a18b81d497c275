import Dart2Wasm.DispatchTable.Build
import Dart2Wasm.DispatchTable.MemberLookup

/-!
# DispatchTable.Rows — from the collected selectors to the table

The two halves of `DispatchTable.build` together. The selectors that the collection phase leaves are
the rows of the offset assignment; a reference is a number there. In the table, the slot of a
selector and a concrete class holds the target that the class has for the selector.
-/

namespace Dart2Wasm.DispatchTable

open Lib OrderedMap List

variable {N κ : Type}

/-- The number of a reference: that of its member, and which of its functions it is. -/
def MemberReference.reference (r : MemberReference N κ) : Reference where
  member := 4 * r.asMember.id + match r with
    | .implicitGetter _ => 0
    | .implicitSetter _ => 1
    | .procedure _ => 2
    | .tearOff _ => 3
  isAbstract := r.isAbstract

/-- What the offset assignment reads of a selector. -/
def SelectorInfo.row (id : Nat) (selector : SelectorInfo N κ) : Dart2Wasm.SelectorInfo where
  id := id
  callCount := selector.callCount
  forced := selector.forced
  targets := selector.targets.mapValues MemberReference.reference

def Selectors.rows (s : Selectors N κ) : List Dart2Wasm.SelectorInfo :=
  s.selectorInfo.entries.map fun e => e.2.row e.1

variable {P : Program N κ} [DecidableEq N] {isAbstract : ClassAbstractness}

/-- The table of a program: for every row and every concrete class that declares or inherits a
member of the selector, the slot holds the target of the class. -/
theorem Program.collect_dispatches (hwf : P.WellFormed) :
    ∃ s, P.collect = some s ∧ ∀ sorted, SortedAlive isAbstract s.1.rows sorted →
      (∀ row ∈ sorted.tail, row.classIds isAbstract ≠ []) →
      ∃ st, assignOffsets isAbstract sorted = .ok st ∧
        ∀ row offset, (row, offset) ∈ st.offsets → ∀ c, isAbstract c = false →
          ∀ r ∈ P.declared c, P.selectorOf r = row.id →
            ∃ t, targetOf (filed P.references row.id (P.declared c)) = some t ∧
              0 ≤ offset + c ∧ slot st.table (offset + c).toNat = some t.reference := by
  obtain ⟨s, hcollect, hvisited⟩ := collect_visited hwf
  refine ⟨s, hcollect, fun sorted hsorted htail => ?_⟩
  obtain ⟨st, hrun, hplaced, hmap⟩ :=
    run_assignOffset_placed (⟨by simp, by simp⟩ : Placed _ {}) (fun _ _ => .inl rfl) htail
  refine ⟨st, hrun, fun row offset hrow c hc r hr hid => ?_⟩
  -- the row is that of a collected selector, which has the target of the class
  have hmem : row ∈ sorted := by
    have hoffsets : st.offsets.map Prod.fst = sorted := hmap
    rw [← hoffsets]
    exact mem_map.2 ⟨_, hrow, rfl⟩
  obtain ⟨⟨id, selector⟩, hentry, rfl⟩ := mem_map.1 (mem_of_mem_filter (hsorted.1.mem_iff.1 hmem))
  obtain ⟨selector', t, hget, htarget, ht⟩ := hvisited.exists_target hr
  rw [hid] at hget ht
  obtain rfl : selector' = selector :=
    Option.some.inj (hget.symm.trans (get_eq_some_iff.2 hentry))
  have hreference : (selector'.row id).targets.get c = some t.reference := by
    rw [SelectorInfo.row, get_mapValues, htarget]
    rfl
  obtain ⟨hnonneg, -, hslot⟩ := hplaced.holds _ hrow c
    (mem_classIds.2 ⟨⟨_, get_eq_some_iff.1 hreference⟩, hc⟩)
  exact ⟨t, ht, hnonneg, hslot.trans hreference⟩

/-! ## A selector of classes that are all abstract -/

def sampleField (id : Nat) : Field where
  id := id
  name := ⟨"x", none⟩
  isAbstract := false
  attributes := ⟨2, 1, false⟩
  type := ⟨0, false⟩
  hasSetter := false

def sampleMethod (id : Nat) : Procedure String Nat where
  id := id
  name := ⟨"m", none⟩
  isAbstract := false
  attributes := ⟨3, 4, false⟩
  kind := .method
  function := ⟨0, [], 0, [], nodup_nil⟩
  returnType := none

/-- `class A { int x = 0; }`, `class B extends A { int x = 1; }` with fields that are entry points,
`class C { void m() {} }` and `class D extends C { void m() {} }`, with calls of `x` and `m`. No `A`
or `B` is allocated, so both classes are abstract. -/
def entryPoints : Program String Nat where
  selectorMetadata := fun _ => ⟨1, false⟩
  classes :=
    [⟨none, []⟩, ⟨some 0, [.field (sampleField 1)]⟩, ⟨some 1, [.field (sampleField 2)]⟩,
      ⟨some 0, [.procedure (sampleMethod 3)]⟩, ⟨some 3, [.procedure (sampleMethod 4)]⟩]

/-- The collection phase leaves two alive selectors; that of `x` comes last, and has no class id. -/
theorem assignOffsets_entryPoints_noElement :
    ∃ x m, entryPoints.collect.map (fun s => s.1.rows) = some [x, m] ∧
      SortedAlive (fun c => decide (c < 3)) [x, m] [m, x] ∧
      assignOffsets (fun c => decide (c < 3)) [m, x] = .error .noElement := by
  refine ⟨⟨1, 1, false, ⟨[(1, ⟨4, false⟩), (2, ⟨8, false⟩)], by decide⟩⟩,
    ⟨3, 1, false, ⟨[(3, ⟨14, false⟩), (4, ⟨18, false⟩)], by decide⟩⟩, ?_, ⟨?_, ?_⟩, rfl⟩
  · decide +kernel
  · decide
  · decide

end Dart2Wasm.DispatchTable
