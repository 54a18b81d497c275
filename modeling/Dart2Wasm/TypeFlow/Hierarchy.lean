import Mathlib.Data.List.Sort
import Dart2Wasm.TypeFlow.TypesLattice

/-!
# Hierarchy — the class hierarchy cache

The specialization of cones as `analysis.dart` computes it: the allocated subtypes of a class as a
set of concrete types, a wide cone if there are too many of them. It contains every instance of an
allocated subclass, which is what the operations on types assume of a hierarchy.
-/

namespace Dart2Wasm.TypeFlow

open List

variable {ρ κ : Type}

def maxAllocatedTypes : Nat := 128

/-- What `_ClassHierarchyCache` knows of the classes. -/
structure ClassHierarchyCache where
  supertypes : Nat → List Nat
  supertypes_self : ∀ c, c ∈ supertypes c
  supertypes_trans : ∀ a b c, b ∈ supertypes a → c ∈ supertypes b → c ∈ supertypes a
  typeParameters : Nat → Nat
  objectClass : Nat
  allocatedClasses : List Nat
  allocatedClasses_nodup : allocatedClasses.Nodup

namespace ClassHierarchyCache

variable (cache : ClassHierarchyCache)

/-- An allocated class is added to all its supertypes. -/
def allocatedSubtypes (cls : Nat) : List Nat :=
  cache.allocatedClasses.filter fun c => (cache.supertypes c).contains cls

/-- The concrete types of the allocated subtypes, sorted by class id. -/
def specializedTypes (cls : Nat) : TypeSet ρ κ :=
  ((cache.allocatedSubtypes cls).mergeSort (fun a b => a ≤ b)).map fun c => ⟨c, none, none⟩

def specializedConeType (cls : Nat) : FlowType ρ κ := ofList (cache.specializedTypes cls)

/-- `specializeTypeCone` with `allowWideCone`. -/
def specializeTypeCone (cls : Nat) : FlowType ρ κ :=
  if cls = cache.objectClass then .any
  else if (cache.allocatedSubtypes cls).length > maxAllocatedTypes then .wideCone cls
  else cache.specializedConeType cls

theorem isSpecialization_ofList (types : TypeSet ρ κ) : (ofList types).isSpecialization = true := by
  match types with
  | [] => rfl
  | [_] => rfl
  | _ :: _ :: _ => rfl

theorem specializeTypeCone_kind (cls : Nat) :
    (cache.specializeTypeCone cls : FlowType ρ κ).isSpecialization = true := by
  rw [specializeTypeCone]
  split
  · rfl
  · split
    · rfl
    · exact isSpecialization_ofList _

/-- The hierarchy that the operations on types use. -/
def toHierarchy (identical : FlowType ρ κ → FlowType ρ κ → Bool)
    (identical_eq : ∀ a b, identical a b = true → a = b) : TypeHierarchy ρ κ where
  supertypes := cache.supertypes
  supertypes_trans := cache.supertypes_trans
  typeParameters := cache.typeParameters
  specializeTypeCone := cache.specializeTypeCone
  specializeTypeCone_kind := cache.specializeTypeCone_kind
  identical := identical
  identical_eq := identical_eq

variable {cache} {identical : FlowType ρ κ → FlowType ρ κ → Bool}
  {identical_eq : ∀ a b, identical a b = true → a = b}

theorem mem_allocatedSubtypes {cls c : Nat} :
    c ∈ cache.allocatedSubtypes cls ↔
      c ∈ cache.allocatedClasses ∧
        (cache.toHierarchy identical identical_eq).isSubtype c cls = true := by
  have hself := cache.supertypes_self c
  simp only [allocatedSubtypes, mem_filter, contains_iff_mem, TypeHierarchy.isSubtype,
    toHierarchy, Bool.or_eq_true, beq_iff_eq]
  constructor
  · exact fun hmem => ⟨hmem.1, Or.inr hmem.2⟩
  · rintro ⟨hallocated, rfl | hsub⟩
    · exact ⟨hallocated, hself⟩
    · exact ⟨hallocated, hsub⟩

theorem specializedTypes_wellFormed (w : World (cache.toHierarchy identical identical_eq))
    (cls : Nat) : WellFormedList w (cache.specializedTypes cls) := by
  constructor
  · have hsorted := pairwise_mergeSort' (· ≤ ·) (cache.allocatedSubtypes cls)
    have hnodup : ((cache.allocatedSubtypes cls).mergeSort (fun a b => a ≤ b)).Nodup :=
      (mergeSort_perm _ _).nodup_iff.2 (cache.allocatedClasses_nodup.filter _)
    rw [specializedTypes, pairwise_map]
    exact (hsorted.and hnodup).imp fun hle => Nat.lt_of_le_of_ne hle.1 hle.2
  · intro t ht
    obtain ⟨c, -, rfl⟩ := mem_map.1 ht
    exact nofun

/-- The cache meets what the operations assume. -/
theorem specializes (w : World (cache.toHierarchy identical identical_eq))
    (hallocated : ∀ c, w.allocated c → c ∈ cache.allocatedClasses) : w.Specializes := by
  constructor
  · intro c
    change FlowType.WellFormed w (cache.specializeTypeCone c)
    rw [specializeTypeCone]
    split
    · trivial
    · split
      · trivial
      · exact (ofList_spec (specializedTypes_wellFormed w c)).1
  · intro c i hi hsub
    change FlowType.describes _ (cache.specializeTypeCone c) _
    rw [specializeTypeCone]
    split
    · exact nofun
    · split
      · exact ⟨i, rfl, hsub⟩
      · refine (ofList_spec (specializedTypes_wellFormed w c)).2.2 i ⟨⟨i.cls, none, none⟩, ?_, ?_⟩
        · refine mem_map.2 ⟨i.cls, mem_mergeSort.2 ?_, rfl⟩
          exact mem_allocatedSubtypes.2 ⟨hallocated i.cls hi.1, hsub⟩
        · exact ⟨rfl, nofun, nofun⟩

end ClassHierarchyCache

/-! ## The operations on all types -/

variable [DecidableEq ρ] [DecidableEq κ]

/-- For every hierarchy, set of allocated classes and all types: union and intersection return a
well-formed type, in which every set is strictly sorted and has two elements or more, and lose no
value. -/
theorem operations_over_approximate {h : TypeHierarchy ρ κ} {w : World h} (hs : w.Specializes)
    {a b : FlowType ρ κ} (ha : a.WellFormed w) (hb : b.WellFormed w) :
    (∃ r, a.union h b = .ok r ∧ r.WellFormed w ∧
      ∀ v, w.HasValue v → a.describes h v ∨ b.describes h v → r.describes h v) ∧
    (∃ r, a.intersection h b = .ok r ∧ r.WellFormed w ∧
      ∀ v, w.HasValue v → a.describes h v → b.describes h v → r.describes h v) := by
  obtain ⟨r, hr, hunion⟩ := union_sound hs ha hb
  obtain ⟨r', hr', hinter⟩ := intersection_sound hs ha hb
  refine ⟨⟨r, hr, hunion.wellFormed, ?_⟩, r', hr', hinter.wellFormed, hinter.both⟩
  rintro v hv (hva | hvb)
  · exact hunion.left v hv hva
  · exact hunion.right v hv hvb

/-- `Object` with the subclasses 1 and 2, and 3 below 1. -/
def sampleCache : ClassHierarchyCache where
  supertypes c := 0 :: c :: (if c = 3 then [1] else [])
  supertypes_self c := List.mem_cons_of_mem _ List.mem_cons_self
  supertypes_trans a b c hab hbc := by
    by_cases ha : a = 3 <;> by_cases hb : b = 3 <;> simp_all <;> omega
  typeParameters c := if c = 2 then 1 else 0
  objectClass := 0
  allocatedClasses := [1, 3, 2]
  allocatedClasses_nodup := by decide

def sampleHierarchy : TypeHierarchy Nat Nat :=
  sampleCache.toHierarchy (fun _ _ => false) (fun _ _ hsame => by cases hsame)

def sampleWorld : World sampleHierarchy where
  allocated c := c ∈ [1, 3, 2]
  flattenedLength c := if c = 2 then 1 else 0
  flattened _ args := args
  length_flattened _ _ hlength := hlength
  take_flattened _ _ hlength := by rw [← hlength, List.take_length]

theorem sampleTypes_wellFormed :
    (FlowType.nullable (.cone 1)).WellFormed sampleWorld ∧
      (FlowType.concrete ⟨2, some [.runtime 7], none⟩).WellFormed sampleWorld := by
  refine ⟨⟨trivial, rfl⟩, ?_⟩
  intro args hargs
  cases hargs
  exact ⟨by decide, rfl, fun _ _ hall => hall⟩

theorem operations_over_approximate_sample :
    ∃ r, (FlowType.nullable (.cone 1)).union sampleHierarchy
        (.concrete ⟨2, some [.runtime 7], none⟩) = .ok r ∧ r.WellFormed sampleWorld ∧
      r.describes sampleHierarchy .null ∧
      r.describes sampleHierarchy (.object ⟨3, [], some 5⟩) := by
  obtain ⟨r, hr, hwf, hall⟩ := (operations_over_approximate
    (ClassHierarchyCache.specializes sampleWorld fun _ hc => hc) sampleTypes_wellFormed.1
    sampleTypes_wellFormed.2).1
  refine ⟨r, hr, hwf, hall _ trivial (Or.inl (Or.inl rfl)), hall _ ?_ (Or.inl (Or.inr ?_))⟩
  · exact ⟨mem_cons_of_mem _ mem_cons_self, [], rfl, rfl⟩
  · exact ⟨_, rfl, by decide⟩

end Dart2Wasm.TypeFlow
