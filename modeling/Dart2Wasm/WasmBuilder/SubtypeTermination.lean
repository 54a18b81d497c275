import Mathlib.Data.Finite.Prod
import Dart2Wasm.WasmBuilder.Module

/-!
# WasmBuilder.SubtypeTermination — when the subtype test returns

`isSubtypeOf` compares the fields of recursive types without a record of the comparisons under way,
so it need not return. `comparisons` are the pairs of heap types that the test of a pair compares,
in order; one of them is compared if those before it hold. The test returns exactly if the pairs
that are compared have no cycle and none of them needs an element type that was not supplied.
-/

namespace Dart2Wasm.WasmBuilder

open Lib Questions HeapType List Relation

variable {types : TypeTable}

/-! ## The types of a module -/

def HeapType.Registered (types : TypeTable) : HeapType → Prop
  | .defined d => d < types.length
  | _ => True

def ValueType.Registered (types : TypeTable) : ValueType → Prop
  | .ref h _ => h.Registered types
  | .rtt d _ => d < types.length
  | .num _ => True

def StorageType.Registered (types : TypeTable) : StorageType → Prop
  | .value t => t.Registered types
  | .packed _ => True

def DefKind.Registered (types : TypeTable) : DefKind → Prop
  | .function inputs outputs =>
    (∀ t ∈ inputs, t.Registered types) ∧ ∀ t ∈ outputs, t.Registered types
  | .struct _ fields => ∀ f ∈ fields, f.type.Registered types
  | .array _ elementType => ∀ f ∈ elementType, f.type.Registered types

/-- The types of a module only mention types of the module. -/
def TypeTable.Closed (types : TypeTable) : Prop :=
  ∀ t ∈ types, t.kind.Registered types ∧ ∀ s ∈ t.superType, s.Registered types

/-! ## What the test compares -/

/-- A pair of heap types to compare, or the answer if no heap types have to be compared. -/
abbrev Comparison := Bool ⊕ (HeapType × HeapType)

def ValueType.comparison : ValueType → ValueType → Comparison
  | .num k, .num k' => .inl (k == k')
  | .rtt d p, .rtt d' p' => .inl (d == d' && (p' == none || p == p'))
  | .ref h n, .ref h' n' => if n && !n' then .inl false else .inr (h, h')
  | _, _ => .inl false

def StorageType.comparison : StorageType → StorageType → Comparison
  | .value t, .value t' => t.comparison t'
  | .packed k, .packed k' => .inl (k == k')
  | _, _ => .inl false

def FieldType.comparison (f g : FieldType) : Comparison :=
  if f.mutable != g.mutable then .inl false
  else if f.mutable then .inl (f.type == g.type)
  else f.type.comparison g.type

/-- The comparisons of two structures in order; there are none without an element type. -/
def DefKind.comparisons (types : TypeTable) (this : DefKind) (other : HeapType) :
    Option (List Comparison) :=
  match this, other with
  | .function inputs outputs, .defined o =>
    match (types[o]?).map DefType.kind with
    | some (.function inputs' outputs') =>
      some (.inl (inputs.length == inputs'.length) :: .inl (outputs.length == outputs'.length) ::
        ((inputs.zip inputs').map (fun p => p.2.comparison p.1) ++
          (outputs.zip outputs').map fun p => p.1.comparison p.2))
    | _ => some [.inl false]
  | .struct _ fields, .defined o =>
    match (types[o]?).map DefType.kind with
    | some (.struct _ fields') =>
      some (.inl (fields'.length ≤ fields.length) ::
        (fields.zip fields').map fun p => p.1.comparison p.2)
    | _ => some [.inl false]
  | .array _ element, .defined o =>
    match (types[o]?).map DefType.kind with
    | some (.array _ element') => element.bind fun f => element'.map fun g => [f.comparison g]
    | _ => some [.inl false]
  -- The abstract heap types are compared at once.
  | _, _ => some [.inl (this.isStructuralSubtypeOfWith types (fun _ _ => none) other == some true)]

/-- The comparisons that the test of a pair of heap types makes. -/
def comparisons (types : TypeTable) : HeapType × HeapType → Option (List Comparison)
  | (.defined d, other) =>
    if other = .defined d then some []
    else
      (types[d]?).bind fun t =>
        match t.superType with
        | some s => some [.inr (s, other)]
        | none => t.kind.comparisons types other
  | (this, other) => some [.inl (isSubtypeOf types 1 this other == some true)]

section

variable (f : HeapType × HeapType → Option Bool)

theorem ValueType.isSubtypeOfWith_eq (t u : ValueType) :
    t.isSubtypeOfWith (fun a b => f (a, b)) u = answer f (t.comparison u) := by
  cases t <;> cases u <;> simp only [isSubtypeOfWith, comparison] <;> first | rfl | split <;> rfl

theorem FieldType.isSubtypeOfWith_eq (t u : FieldType) :
    t.isSubtypeOfWith (fun a b => f (a, b)) u = answer f (t.comparison u) := by
  obtain ⟨t, isMutable⟩ := t
  obtain ⟨u, isMutable'⟩ := u
  rw [isSubtypeOfWith, comparison]
  split_ifs
  · rfl
  · rfl
  · cases t with
    | value t =>
      cases u with
      | value u => exact t.isSubtypeOfWith_eq f u
      | packed k => rfl
    | packed k => cases u <;> rfl

theorem DefKind.isStructuralSubtypeOfWith_eq (k : DefKind) (other : HeapType) :
    k.isStructuralSubtypeOfWith types (fun a b => f (a, b)) other =
      (k.comparisons types other).bind (checkAll (answer f)) := by
  cases other with
  | defined o =>
    cases k with
    | function inputs outputs =>
      simp only [isStructuralSubtypeOfWith, DefKind.comparisons]
      cases (types[o]?).map DefType.kind with
      | none => rfl
      | some l =>
        cases l with
        | function inputs' outputs' =>
          simp only [ValueType.isSubtypeOfWith_eq, Option.bind_some, checkAll, answer_inl,
            checkAll_append, checkAll_map]
          by_cases hin : inputs.length = inputs'.length
          · by_cases hout : outputs.length = outputs'.length
            · rcases checkAll _ (inputs.zip inputs') with _ | _ | _ <;> simp [hin, hout]
            · simp [hin, hout]
          · simp [hin]
        | _ => rfl
    | struct name fields =>
      simp only [isStructuralSubtypeOfWith, DefKind.comparisons]
      cases (types[o]?).map DefType.kind with
      | none => rfl
      | some l =>
        cases l with
        | struct name' fields' =>
          simp only [FieldType.isSubtypeOfWith_eq, Option.bind_some, checkAll, answer_inl,
            checkAll_map]
          by_cases hlength : fields.length < fields'.length
          · simp [hlength]
          · simp [hlength, not_lt.1 hlength]
        | _ => rfl
    | array name element =>
      cases element with
      | none =>
        simp only [isStructuralSubtypeOfWith, DefKind.comparisons]
        rcases (types[o]?).map DefType.kind with _ | _ | _ | _ <;> rfl
      | some element =>
        simp only [isStructuralSubtypeOfWith, DefKind.comparisons]
        rcases (types[o]?).map DefType.kind with _ | _ | _ | ⟨name', _ | element'⟩
        · rfl
        · rfl
        · rfl
        · rfl
        · exact (element.isSubtypeOfWith_eq f element').trans (checkAll_singleton _ _).symm
  | _ =>
    cases k with
    | array name element => cases element <;> rfl
    | _ => rfl

/-- The subtype test goes through the comparisons. -/
theorem isSubtypeOf_eq_test (fuel : Nat) (a b : HeapType) :
    isSubtypeOf types fuel a b = test (comparisons types) fuel (a, b) := by
  induction fuel generalizing a b with
  | zero => rfl
  | succ fuel ih =>
    cases a with
    | defined d =>
      have hfuel : isSubtypeOf types fuel = fun a b => test (comparisons types) fuel (a, b) :=
        funext fun a => funext fun b => ih a b
      rw [isSubtypeOf, test, comparisons, hfuel]
      by_cases hsame : b = .defined d
      · rw [if_pos hsame, if_pos hsame]
        rfl
      · rw [if_neg hsame, if_neg hsame]
        cases types[d]? with
        | none => rfl
        | some t =>
          simp only [Option.bind_some]
          cases t.superType with
          | none => exact t.kind.isStructuralSubtypeOfWith_eq _ b
          | some s => exact (checkAll_singleton _ _).symm
    | _ => cases b <;> rfl

end

/-! ## The graph of the comparisons -/

/-- The pairs of heap types that a comparison in the module can be about. -/
def TypeTable.pairs (types : TypeTable) : Set (HeapType × HeapType) :=
  {p | p.1.Registered types ∧ p.2.Registered types}

theorem finite_pairs (types : TypeTable) : types.pairs.Finite := by
  have hfinite : {h : HeapType | h.Registered types}.Finite := by
    refine ((Set.toFinite {.any, .eq, .func, .data, .i31, .extern_}).union
      ((Set.finite_lt_nat types.length).image .defined)).subset fun h hh => ?_
    cases h with
    | defined d => exact .inr ⟨d, hh, rfl⟩
    | _ => simp
  exact Set.Finite.prod hfinite hfinite

variable {p : HeapType × HeapType}

theorem ValueType.mem_pairs {t u : ValueType} (ht : t.Registered types) (hu : u.Registered types)
    (hp : t.comparison u = .inr p) : p ∈ types.pairs := by
  cases t <;> cases u <;> simp only [comparison, reduceCtorEq] at hp
  split at hp
  · cases hp
  · cases hp
    exact ⟨ht, hu⟩

theorem FieldType.mem_pairs {t u : FieldType} (ht : t.type.Registered types)
    (hu : u.type.Registered types) (hp : t.comparison u = .inr p) : p ∈ types.pairs := by
  obtain ⟨t, isMutable⟩ := t
  obtain ⟨u, isMutable'⟩ := u
  rw [comparison] at hp
  split_ifs at hp
  cases t with
  | value t =>
    cases u with
    | value u => exact ValueType.mem_pairs ht hu hp
    | packed k => cases hp
  | packed k => cases u <;> cases hp

section

variable (hclosed : types.Closed) {l : List Comparison}
include hclosed

theorem DefKind.mem_pairs {k : DefKind} (hk : k.Registered types) {other : HeapType}
    (hl : k.comparisons types other = some l) (hp : .inr p ∈ l) : p ∈ types.pairs := by
  have hother : ∀ {o : Nat} {k'}, (types[o]?).map DefType.kind = some k' → k'.Registered types := by
    intro o k' hk'
    obtain ⟨t, ht, rfl⟩ := Option.map_eq_some_iff.1 hk'
    exact (hclosed t (mem_of_getElem? ht)).1
  rw [DefKind.comparisons.eq_def] at hl
  split at hl
  · split at hl
    · rename_i hkind
      cases hl
      simp only [mem_cons, reduceCtorEq, false_or, mem_append, mem_map] at hp
      rcases hp with ⟨pair, hpair, hp⟩ | ⟨pair, hpair, hp⟩
      · exact ValueType.mem_pairs ((hother hkind).1 _ (of_mem_zip hpair).2)
          (hk.1 _ (of_mem_zip hpair).1) hp
      · exact ValueType.mem_pairs (hk.2 _ (of_mem_zip hpair).1)
          ((hother hkind).2 _ (of_mem_zip hpair).2) hp
    · cases hl
      simp at hp
  · split at hl
    · rename_i hkind
      cases hl
      simp only [mem_cons, reduceCtorEq, false_or, mem_map] at hp
      obtain ⟨pair, hpair, hp⟩ := hp
      exact FieldType.mem_pairs (hk _ (of_mem_zip hpair).1)
        (hother hkind _ (of_mem_zip hpair).2) hp
    · cases hl
      simp at hp
  · split at hl
    · rename_i hkind
      obtain ⟨f, hf, hl⟩ := Option.bind_eq_some_iff.1 hl
      obtain ⟨g, hg, rfl⟩ := Option.map_eq_some_iff.1 hl
      exact FieldType.mem_pairs (hk f hf) (hother hkind g hg) (mem_singleton.1 hp).symm
    · cases hl
      simp at hp
  · cases hl
    simp at hp

theorem comparisons_mem_pairs {q : HeapType × HeapType} (hq : q ∈ types.pairs)
    (hl : comparisons types q = some l) (hp : .inr p ∈ l) : p ∈ types.pairs := by
  obtain ⟨a, b⟩ := q
  cases a with
  | defined d =>
    rw [comparisons] at hl
    split at hl
    · cases hl
      simp at hp
    · obtain ⟨t, ht, hl⟩ := Option.bind_eq_some_iff.1 hl
      obtain ⟨hkind, hsuper⟩ := hclosed t (mem_of_getElem? ht)
      split at hl
      · rename_i s hs
        cases hl
        cases mem_singleton.1 hp
        exact ⟨hsuper s hs, hq.2⟩
      · exact DefKind.mem_pairs hclosed hkind hl hp
  | _ =>
    cases hl
    simp at hp

end

/-- The subtype test of two types of a module returns exactly if no pair that it comes to compare
leads back to itself or is a pair of arrays of which one has no element type. -/
theorem isSubtypeOf_returns_iff (types : TypeTable) (hclosed : types.Closed) {a b : HeapType}
    (ha : a.Registered types) (hb : b.Registered types) :
    (∃ fuel r, HeapType.isSubtypeOf types fuel a b = some r) ↔
      ∀ p, ReflTransGen (Asks (comparisons types)) (a, b) p →
        ¬ TransGen (Asks (comparisons types)) p p ∧ comparisons types p ≠ none := by
  simp only [isSubtypeOf_eq_test]
  rw [returns_iff_acc, acc_iff_no_cycle (finite_pairs types) ?_ ⟨ha, hb⟩]
  · exact ⟨fun h p hp => ⟨h.1 p hp, h.2 p hp⟩, fun h => ⟨fun p hp => (h p hp).1,
      fun p hp => (h p hp).2⟩⟩
  · rintro p q hp ⟨before, after, hl, -⟩
    exact comparisons_mem_pairs hclosed hp hl (by simp)

/-- Struct types whose fields are structs again are compared without coming to a cycle. -/
theorem isSubtypeOf_returns_iff_nested :
    ∃ types : TypeTable,
      types = [⟨.struct "A" [⟨.value (.ref (.defined 2) false), false⟩], none, 0⟩,
        ⟨.struct "B" [⟨.value (.ref (.defined 3) false), false⟩], none, 1⟩,
        ⟨.struct "C" [⟨.packed .i8, true⟩], none, 2⟩, ⟨.struct "D" [], none, 3⟩] ∧
      ∀ p, ReflTransGen (Asks (comparisons types)) (.defined 0, .defined 1) p →
        ¬ TransGen (Asks (comparisons types)) p p ∧ comparisons types p ≠ none := by
  refine ⟨_, rfl, (isSubtypeOf_returns_iff _ ?_ (by simp [HeapType.Registered])
    (by simp [HeapType.Registered])).1 ⟨2, true, by decide⟩⟩
  simp [TypeTable.Closed, DefKind.Registered, StorageType.Registered, ValueType.Registered,
    HeapType.Registered]

/-- Two struct types, each with an immutable field of its own type, are compared for ever: their
comparison asks for itself. -/
theorem isSubtypeOf_recursive_diverges :
    ∃ m, Module.build [.addStructType "A" [] none, .addStructType "B" [] none,
        .addField 0 ⟨.value (.ref (.defined 0) false), false⟩,
        .addField 1 ⟨.value (.ref (.defined 1) false), false⟩] = .ok m ∧
      m.defTypes.Closed ∧
      TransGen (Asks (comparisons m.defTypes)) (.defined 0, .defined 1) (.defined 0, .defined 1) ∧
      ∀ fuel, HeapType.isSubtypeOf m.defTypes fuel (.defined 0) (.defined 1) = none := by
  refine ⟨_, rfl, ?_, .single ⟨[.inl true], [], rfl, by simp, by simp⟩, fun fuel => ?_⟩
  · simp [TypeTable.Closed, DefKind.Registered, StorageType.Registered, ValueType.Registered,
      HeapType.Registered, Module.addStructType]
  · induction fuel with
    | zero => rfl
    | succ fuel ih =>
      -- the only field of the first type is compared with the only field of the second
      have hfield : FieldType.isSubtypeOfWith (isSubtypeOf _ fuel)
          ⟨.value (.ref (.defined 0) false), false⟩ ⟨.value (.ref (.defined 1) false), false⟩ =
        none := ih
      show checkAll (fun p => FieldType.isSubtypeOfWith _ p.1 p.2) [(_, _)] = none
      rw [checkAll, hfield]

end Dart2Wasm.WasmBuilder
