import Mathlib.Logic.Relation
import Dart2Wasm.Lib.Pointwise
import Dart2Wasm.WasmBuilder.Types

/-!
# WasmBuilder.Subtyping — the order behind the subtype test

`isSubtypeOf` follows declared supertypes first and compares structures only where none is
declared, and it need not return. The subtyping that holds between the values of a program is its
reflexive and transitive closure, `HeapSub`. On a type table whose declared supertypes are
structural supertypes (which `serializeDefinition` asserts) the closure is structural: a subtype of
a struct type has all its fields, and a subtype of a function type accepts its inputs and returns
its outputs.
-/

namespace Dart2Wasm.WasmBuilder

open Lib DefKind List

variable {fuel : Nat} {t u : StorageType} {f g : FieldType} {k l : DefKind} {o : DefTypeId}
  {h : HeapType}

/-- The heap type `h` is a subtype of `h'`: a chain of successful subtype tests leads from `h` to
`h'`. -/
def HeapSub (types : TypeTable) : HeapType → HeapType → Prop :=
  Relation.ReflTransGen fun h h' => ∃ fuel, HeapType.isSubtypeOf types fuel h h' = some true

inductive ValueSub (types : TypeTable) : ValueType → ValueType → Prop
  | num (k : NumTypeKind) : ValueSub types (.num k) (.num k)
  | rtt (d : DefTypeId) {p p' : Option Nat} (h : p' = none ∨ p = p') :
      ValueSub types (.rtt d p) (.rtt d p')
  | ref {h h' : HeapType} {n n' : Bool} (hn : n = true → n' = true) (hh : HeapSub types h h') :
      ValueSub types (.ref h n) (.ref h' n')

variable {types : TypeTable}

namespace ValueSub

theorem refl (t : ValueType) : ValueSub types t t := by
  cases t with
  | num k => exact .num k
  | rtt d p => exact .rtt d (Or.inr rfl)
  | ref h n => exact .ref id .refl

theorem trans {t u v : ValueType} (htu : ValueSub types t u) (huv : ValueSub types u v) :
    ValueSub types t v := by
  cases htu with
  | num k => exact huv
  | rtt d hp =>
    cases huv with
    | rtt _ hp' =>
      refine .rtt d ?_
      rcases hp' with hnone | heq
      · exact Or.inl hnone
      · exact heq ▸ hp
  | ref hn hh =>
    cases huv with
    | ref hn' hh' => exact .ref (hn' ∘ hn) (hh.trans hh')

theorem of_isSubtypeOfWith {t t' : ValueType}
    (h : t.isSubtypeOfWith (HeapType.isSubtypeOf types fuel) t' = some true) :
    ValueSub types t t' := by
  cases t <;> cases t' <;> simp only [ValueType.isSubtypeOfWith, Option.some.injEq] at h
  case num.num k k' =>
    obtain rfl : k = k' := by simpa using h
    exact .num k
  case rtt.rtt d p d' p' =>
    obtain ⟨rfl, hp⟩ : d = d' ∧ (p' = none ∨ p = p') := by simpa using h
    exact .rtt d hp
  case ref.ref g n g' n' =>
    split at h
    · cases h
    · rename_i hn
      exact .ref (by simpa using hn) (.single ⟨fuel, h⟩)
  all_goals cases h

end ValueSub

/-! ## Structures -/

/-- What a field of a subtype can stand for: a mutable field must be the same, an immutable one may
become more special. -/
structure FieldSub (types : TypeTable) (f g : FieldType) : Prop where
  mutability : f.mutable = g.mutable
  invariant : g.mutable = true → f.type = g.type
  covariant : ValueSub types f.type.unpacked g.type.unpacked

/-- The structure of a subtype against the structure of its supertype. Arrays are only compared
for being arrays: no instruction modelled here looks inside one. -/
inductive KindSub (types : TypeTable) : DefKind → DefKind → Prop
  | function {ins outs ins' outs' : List ValueType}
      (hins : List.Forall₂ (ValueSub types) ins' ins)
      (houts : List.Forall₂ (ValueSub types) outs outs') :
      KindSub types (.function ins outs) (.function ins' outs')
  | struct {name name' : String} {fields fields' : List FieldType}
      (h : ∀ (i : Nat) g, fields'[i]? = some g → ∃ f, fields[i]? = some f ∧ FieldSub types f g) :
      KindSub types (.struct name fields) (.struct name' fields')
  | array {name name' : String} {element element' : Option FieldType} :
      KindSub types (.array name element) (.array name' element')

inductive StorageBelow (types : TypeTable) : StorageType → StorageType → Prop
  | value {t u : ValueType} (h : ValueSub types t u) : StorageBelow types (.value t) (.value u)
  | packed (k : PackedTypeKind) : StorageBelow types (.packed k) (.packed k)

/-- What `isSubtypeOf` of the fields compares, with subtyping in place of the test. -/
structure FieldBelow (types : TypeTable) (f g : FieldType) : Prop where
  mutability : f.mutable = g.mutable
  invariant : f.mutable = true → f.type = g.type
  covariant : StorageBelow types f.type g.type

/-- What `isStructuralSubtypeOf` compares, with subtyping in place of the test. -/
inductive KindBelow (types : TypeTable) : DefKind → DefKind → Prop
  | function {ins outs ins' outs' : List ValueType}
      (hins : List.Forall₂ (ValueSub types) ins' ins)
      (houts : List.Forall₂ (ValueSub types) outs outs') :
      KindBelow types (.function ins outs) (.function ins' outs')
  | struct {name name' : String} {fields fields' : List FieldType}
      (h : ∀ (i : Nat) g, fields'[i]? = some g → ∃ f, fields[i]? = some f ∧ FieldBelow types f g) :
      KindBelow types (.struct name fields) (.struct name' fields')
  | array {name name' : String} {element element' : Option FieldType}
      (h : ∀ g, element' = some g → ∃ f, element = some f ∧ FieldBelow types f g) :
      KindBelow types (.array name element) (.array name' element')

namespace StorageBelow

theorem refl (t : StorageType) : StorageBelow types t t := by
  cases t with
  | value t => exact .value (.refl t)
  | packed k => exact .packed k

theorem trans {v : StorageType} (htu : StorageBelow types t u) (huv : StorageBelow types u v) :
    StorageBelow types t v := by
  cases htu with
  | value h =>
    cases huv with
    | value h' => exact .value (h.trans h')
  | packed k => exact huv

theorem of_isSubtypeOfWith (h : t.isSubtypeOfWith (HeapType.isSubtypeOf types fuel) u = some true) :
    StorageBelow types t u := by
  cases t <;> cases u
  · exact .value (.of_isSubtypeOfWith h)
  · cases h
  · cases h
  · rename_i k k'
    obtain rfl : k = k' := by simpa [StorageType.isSubtypeOfWith] using h
    exact .packed k

theorem unpacked (h : StorageBelow types t u) : ValueSub types t.unpacked u.unpacked := by
  cases h with
  | value h => exact h
  | packed k => exact .refl _

end StorageBelow

namespace FieldBelow

theorem refl (f : FieldType) : FieldBelow types f f :=
  ⟨rfl, fun _ => rfl, .refl _⟩

theorem trans {h : FieldType} (hfg : FieldBelow types f g) (hgh : FieldBelow types g h) :
    FieldBelow types f h where
  mutability := hfg.mutability.trans hgh.mutability
  invariant hm := (hfg.invariant hm).trans (hgh.invariant (hfg.mutability.symm.trans hm))
  covariant := hfg.covariant.trans hgh.covariant

theorem of_isSubtypeOfWith (h : f.isSubtypeOfWith (HeapType.isSubtypeOf types fuel) g = some true) :
    FieldBelow types f g := by
  rw [FieldType.isSubtypeOfWith] at h
  split at h
  · cases h
  rename_i hm
  have hmut : f.mutable = g.mutable := by simpa using hm
  split at h
  · have htype : f.type = g.type := by simpa using h
    exact ⟨hmut, fun _ => htype, htype ▸ .refl _⟩
  · rename_i himm
    exact ⟨hmut, fun hf => (himm hf).elim, .of_isSubtypeOfWith h⟩

end FieldBelow

/-- Two lists of equal length whose zipped pairs all pass the test. -/
theorem forall₂_of_checkAll {α : Type} {R : α → α → Prop} {f : α × α → Option Bool}
    (hR : ∀ a b, f (a, b) = some true → R a b) {as bs : List α} (hlen : as.length = bs.length)
    (h : checkAll f (as.zip bs) = some true) : List.Forall₂ R as bs := by
  refine forall₂_iff_zip.2 ⟨hlen, ?_⟩
  intro a b hmem
  exact hR a b (checkAll_true.1 h (a, b) hmem)

namespace KindBelow

theorem refl (k : DefKind) : KindBelow types k k := by
  cases k with
  | function ins outs =>
    exact .function (forall₂_same.2 fun t _ => .refl t)
      (forall₂_same.2 fun t _ => .refl t)
  | struct name fields => exact .struct fun i g hg => ⟨g, hg, .refl g⟩
  | array name element => exact .array fun g hg => ⟨g, hg, .refl g⟩

theorem trans {m : DefKind} (hkl : KindBelow types k l) (hlm : KindBelow types l m) :
    KindBelow types k m := by
  cases hkl with
  | function hins houts =>
    cases hlm with
    | function hins' houts' =>
      exact .function (Lib.forall₂_comp .trans hins' hins)
        (Lib.forall₂_comp .trans houts houts')
  | struct h =>
    cases hlm with
    | struct h' =>
      refine .struct fun i g hg => ?_
      obtain ⟨f', hf', hsub'⟩ := h' i g hg
      obtain ⟨f, hf, hsub⟩ := h i f' hf'
      exact ⟨f, hf, hsub.trans hsub'⟩
  | array h =>
    cases hlm with
    | array h' =>
      refine .array fun g hg => ?_
      obtain ⟨f', hf', hsub'⟩ := h' g hg
      obtain ⟨f, hf, hsub⟩ := h f' hf'
      exact ⟨f, hf, hsub.trans hsub'⟩

theorem of_isStructuralSubtypeOfWith (hl : (types[o]?).map DefType.kind = some l)
    (h : k.isStructuralSubtypeOfWith types (HeapType.isSubtypeOf types fuel) (.defined o)
      = some true) : KindBelow types k l := by
  cases k with
  | function ins outs =>
    simp only [isStructuralSubtypeOfWith, hl] at h
    cases l with
    | function ins' outs' =>
      simp only [] at h
      split at h
      · cases h
      split at h
      · cases h
      rename_i hins houts
      split at h
      · rename_i hchecked
        refine .function ?_ ?_
        · refine (forall₂_of_checkAll (fun t t' h => ?_) (by simpa using hins) hchecked).flip
          have hsub : ValueSub types t' t := .of_isSubtypeOfWith h
          exact hsub
        · exact forall₂_of_checkAll (fun _ _ => .of_isSubtypeOfWith)
            (by simpa using houts) h
      · rename_i hnot
        exact (hnot h).elim
    | struct | array => cases h
  | struct name fields =>
    simp only [isStructuralSubtypeOfWith, hl] at h
    cases l with
    | function | array => cases h
    | struct name' fields' =>
      simp only [] at h
      split at h
      · cases h
      rename_i hlen
      refine .struct fun i g hg => ?_
      have hi : i < fields.length :=
        Nat.lt_of_lt_of_le (List.getElem?_eq_some_iff.1 hg).1 (Nat.not_lt.1 hlen)
      have hmem : (fields[i], g) ∈ fields.zip fields' := by
        refine mem_of_getElem? (i := i) ?_
        simp [getElem?_zip_eq_some, hg, hi]
      exact ⟨fields[i], getElem?_eq_getElem hi, .of_isSubtypeOfWith (checkAll_true.1 h _ hmem)⟩
  | array name element =>
    cases element with
    | none => cases l <;> simp [isStructuralSubtypeOfWith, hl] at h
    | some f =>
      cases l with
      | function | struct => simp [isStructuralSubtypeOfWith, hl] at h
      | array name' element' =>
        cases element' with
        | none => simp [isStructuralSubtypeOfWith, hl] at h
        | some g =>
          simp only [isStructuralSubtypeOfWith, hl] at h
          refine .array fun g' hg' => ⟨f, rfl, ?_⟩
          cases hg'
          exact .of_isSubtypeOfWith h

theorem kindSub (h : KindBelow types k l) : KindSub types k l := by
  cases h with
  | function hins houts => exact .function hins houts
  | struct h =>
    refine .struct fun i g hg => ?_
    obtain ⟨f, hf, hsub⟩ := h i g hg
    exact ⟨f, hf, hsub.mutability, fun hg => hsub.invariant (hsub.mutability.trans hg),
      hsub.covariant.unpacked⟩
  | array h => exact .array

end KindBelow

/-! ## Well-formed type tables -/

/-- Every declared supertype is a structural supertype, as `serializeDefinition` asserts. -/
def TypesWellFormed (types : TypeTable) : Prop :=
  ∀ t ∈ types, ∀ s, t.superType = some s →
    ∃ fuel, t.isStructuralSubtypeOf types fuel s = some true

section

variable (hwf : TypesWellFormed types) (hl : (types[o]?).map DefType.kind = some l)
include hwf hl

/-- Only custom types lie below a custom type, and their structure lies below its structure. -/
theorem kindBelow_of_isSubtypeOf
    (hsub : HeapType.isSubtypeOf types fuel h (.defined o) = some true) :
    ∃ d k, h = .defined d ∧ (types[d]?).map DefType.kind = some k ∧ KindBelow types k l := by
  induction fuel generalizing h with
  | zero => cases hsub
  | succ fuel ih =>
    cases h with
    | defined d =>
      rw [HeapType.isSubtypeOf] at hsub
      split at hsub
      · rename_i heq
        cases heq
        exact ⟨o, l, rfl, hl, .refl l⟩
      split at hsub
      · cases hsub
      rename_i t ht
      refine ⟨d, t.kind, rfl, by rw [ht]; rfl, ?_⟩
      split at hsub
      · -- A declared supertype: the structure is compared with that of the supertype.
        rename_i s hs
        obtain ⟨e, m, rfl, hm, hml⟩ := ih hsub
        obtain ⟨fuel', hstruct⟩ := hwf t (mem_of_getElem? ht) _ hs
        exact (KindBelow.of_isStructuralSubtypeOfWith hm hstruct).trans hml
      · exact .of_isStructuralSubtypeOfWith hl hsub
    | _ => simp [HeapType.isSubtypeOf] at hsub

theorem HeapSub.kindBelow (hsub : HeapSub types h (.defined o)) :
    ∃ d k, h = .defined d ∧ (types[d]?).map DefType.kind = some k ∧ KindBelow types k l := by
  induction hsub using Relation.ReflTransGen.head_induction_on with
  | refl => exact ⟨o, l, rfl, hl, .refl l⟩
  | head hstep _ ih =>
    obtain ⟨fuel, hstep⟩ := hstep
    obtain ⟨e, m, rfl, hm, hml⟩ := ih
    obtain ⟨d, k, rfl, hk, hkm⟩ := kindBelow_of_isSubtypeOf hwf hm hstep
    exact ⟨d, k, rfl, hk, hkm.trans hml⟩

theorem HeapSub.kindSub (hsub : HeapSub types h (.defined o)) :
    ∃ d k, h = .defined d ∧ (types[d]?).map DefType.kind = some k ∧ KindSub types k l := by
  obtain ⟨d, k, rfl, hk, hkl⟩ := hsub.kindBelow hwf hl
  exact ⟨d, k, rfl, hk, hkl.kindSub⟩

end

end Dart2Wasm.WasmBuilder
