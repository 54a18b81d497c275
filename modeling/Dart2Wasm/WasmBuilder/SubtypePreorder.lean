import Dart2Wasm.WasmBuilder.Subtyping

/-!
# WasmBuilder.SubtypePreorder — the subtype test is a preorder where it returns

`isSubtypeOf` compares nominally where a supertype is declared and structurally elsewhere, and the
structural comparison of recursive types need not return. Where it does return, it decides the
reflexive and transitive closure `HeapSub` of itself: a test between two related types cannot fail,
because each test that it makes in turn is again between related types. Transitivity follows at
once, also for the value types, storage types and fields that are built over the heap types.
-/

namespace Dart2Wasm.WasmBuilder

open Lib DefKind HeapType StorageType List DefType Option Relation.ReflTransGen

variable {types : TypeTable}
variable {k l : DefKind} {fuel : Nat} {d o : DefTypeId}

/-! ## Built-in heap types above a structure -/

/-- A test that only knows the built-in heap types. -/
def DefKind.BelowBuiltin (k : DefKind) (h : HeapType) : Prop :=
  k.isStructuralSubtypeOfWith [] (fun _ _ => none) h = some true

def HeapType.IsBuiltin (h : HeapType) : Prop :=
  ∀ d, h ≠ .defined d

variable {h : HeapType}

theorem DefKind.isStructuralSubtypeOfWith_builtin {f : HeapTest} (hh : h.IsBuiltin) (k : DefKind) :
    k.isStructuralSubtypeOfWith types f h = k.isStructuralSubtypeOfWith [] (fun _ _ => none) h := by
  cases h with
  | defined d => exact (hh d rfl).elim
  | _ => cases k <;> rfl

theorem KindBelow.belowBuiltin (hkl : KindBelow types k l)
    (hh : h.IsBuiltin) (hl : l.BelowBuiltin h) : k.BelowBuiltin h := by
  cases h with
  | defined d => exact (hh d rfl).elim
  | _ => cases hkl <;> exact hl

/-- A built-in heap type has only built-in heap types above it. -/
theorem HeapType.IsBuiltin.above {h h' : HeapType} (hh : h.IsBuiltin)
    (hsub : isSubtypeOf types fuel h h' = some true) : h'.IsBuiltin := by
  rintro d rfl
  cases fuel with
  | zero => cases hsub
  | succ fuel =>
    cases h with
    | defined e => exact hh e rfl
    | _ => simp [isSubtypeOf] at hsub

/-- The test between built-in heap types is a finite table, and the table is transitive. -/
theorem DefKind.BelowBuiltin.trans {h h' : HeapType} (hk : k.BelowBuiltin h) (hh : h.IsBuiltin)
    (hsub : isSubtypeOf types fuel h h' = some true) : k.BelowBuiltin h' := by
  cases fuel with
  | zero => cases hsub
  | succ fuel =>
    cases h with
    | defined d => exact (hh d rfl).elim
    | _ =>
      cases h' <;> first
        | (simp [isSubtypeOf] at hsub; done)
        | (cases k <;> first
            | rfl
            | simp [DefKind.BelowBuiltin, isStructuralSubtypeOfWith] at hk)

theorem belowBuiltin_of_isSubtypeOf (hwf : TypesWellFormed types)
    (hh : h.IsBuiltin) (hsub : isSubtypeOf types fuel (.defined d) h = some true) :
    ∃ t, types[d]? = some t ∧ t.kind.BelowBuiltin h := by
  induction fuel generalizing d with
  | zero => cases hsub
  | succ fuel ih =>
    rw [isSubtypeOf, if_neg (hh d)] at hsub
    split at hsub
    · cases hsub
    rename_i t ht
    refine ⟨t, ht, ?_⟩
    split at hsub
    · -- A declared supertype is a structural supertype.
      rename_i s hs
      obtain ⟨fuel', hstruct⟩ := hwf t (mem_of_getElem? ht) s hs
      by_cases hbuiltin : s.IsBuiltin
      · have hts : t.kind.BelowBuiltin s := by
          rw [isStructuralSubtypeOf, isStructuralSubtypeOfWith_builtin hbuiltin] at hstruct
          exact hstruct
        exact hts.trans hbuiltin hsub
      · obtain ⟨e, rfl⟩ : ∃ e, s = .defined e := by simpa [HeapType.IsBuiltin] using hbuiltin
        obtain ⟨u, hu, hbelow⟩ := ih hsub
        have hkind : (types[e]?).map kind = some u.kind := by rw [hu]; rfl
        exact (KindBelow.of_isStructuralSubtypeOfWith hkind hstruct).belowBuiltin hh hbelow
    · rw [isStructuralSubtypeOfWith_builtin hh] at hsub
      exact hsub

/-! ## What lies above a custom type -/

theorem HeapSub.belowBuiltin (hwf : TypesWellFormed types) (hh : h.IsBuiltin)
    (hsub : HeapSub types (.defined d) h) : ∃ t, types[d]? = some t ∧ t.kind.BelowBuiltin h := by
  -- From the upper end: once the chain has left the custom types it stays among the built-in ones.
  induction hsub with
  | refl => exact (hh d rfl).elim
  | @tail g h hchain hstep ih =>
    obtain ⟨fuel, hstep⟩ := hstep
    by_cases hbuiltin : g.IsBuiltin
    · obtain ⟨t, ht, hbelow⟩ := ih hbuiltin
      exact ⟨t, ht, hbelow.trans hbuiltin hstep⟩
    obtain ⟨e, rfl⟩ : ∃ e, g = .defined e := by simpa [HeapType.IsBuiltin] using hbuiltin
    obtain ⟨u, hu, hbelow⟩ := belowBuiltin_of_isSubtypeOf hwf hh hstep
    have hkind : (types[e]?).map kind = some u.kind := by rw [hu]; rfl
    obtain ⟨d', k, hd', hk, hku⟩ := HeapSub.kindBelow hwf hkind hchain
    cases hd'
    obtain ⟨t, ht, rfl⟩ := map_eq_some_iff.1 hk
    exact ⟨t, ht, hku.belowBuiltin hh hbelow⟩

theorem DefKind.isStructuralSubtypeOfWith_missing (ho : types[o]? = none) (f : HeapTest)
    (k : DefKind) : k.isStructuralSubtypeOfWith types f (.defined o) = some false := by
  cases k with
  | function | struct => simp [isStructuralSubtypeOfWith, ho]
  | array name element => cases element <;> simp [isStructuralSubtypeOfWith, ho]

/-- A type that is not in the table has nothing but itself below it. -/
theorem eq_of_isSubtypeOf_missing (hwf : TypesWellFormed types) (ho : types[o]? = none)
    (hsub : isSubtypeOf types fuel h (.defined o) = some true) : h = .defined o := by
  induction fuel generalizing h with
  | zero => cases hsub
  | succ fuel ih =>
    cases h with
    | defined d =>
      rw [isSubtypeOf] at hsub
      split at hsub
      · rename_i heq
        exact heq.symm
      split at hsub
      · cases hsub
      rename_i t ht
      split at hsub
      · -- The declared supertype would have to be the missing type itself.
        rename_i s hs
        obtain rfl := ih hsub
        obtain ⟨fuel', hstruct⟩ := hwf t (mem_of_getElem? ht) _ hs
        rw [isStructuralSubtypeOf, isStructuralSubtypeOfWith_missing ho] at hstruct
        cases hstruct
      · rw [isStructuralSubtypeOfWith_missing ho] at hsub
        cases hsub
    | _ => simp [isSubtypeOf] at hsub

theorem HeapSub.eq_of_missing (hwf : TypesWellFormed types) (ho : types[o]? = none)
    (hsub : HeapSub types h (.defined o)) : h = .defined o := by
  induction hsub using head_induction_on with
  | refl => rfl
  | head hstep _ ih =>
    obtain ⟨fuel, hstep⟩ := hstep
    subst ih
    exact eq_of_isSubtypeOf_missing hwf ho hstep

/-- A chain that leaves a type with a declared supertype leaves it through the supertype. -/
theorem HeapSub.through_superType {t : DefType} {s h : HeapType}
    (ht : types[d]? = some t) (hs : t.superType = some s) (hne : h ≠ .defined d)
    (hsub : HeapSub types (.defined d) h) : HeapSub types s h := by
  generalize hg : defined d = g at hsub
  induction hsub using head_induction_on with
  | refl => exact (hne hg.symm).elim
  | head hstep hchain ih =>
    subst hg
    obtain ⟨fuel, hstep⟩ := hstep
    cases fuel with
    | zero => cases hstep
    | succ fuel =>
      rw [isSubtypeOf, ht] at hstep
      simp only [hs] at hstep
      split at hstep
      · rename_i heq
        exact ih heq.symm
      · exact .head ⟨fuel, hstep⟩ hchain

theorem HeapSub.of_builtin {h h' : HeapType} (hh : h.IsBuiltin) (hsub : HeapSub types h h') :
    isSubtypeOf types 1 h h' = some true ∧ h'.IsBuiltin := by
  induction hsub with
  | refl =>
    refine ⟨?_, hh⟩
    cases h with
    | defined d => exact (hh d rfl).elim
    | _ => rfl
  | @tail g g' _ hstep ih =>
    obtain ⟨fuel, hstep⟩ := hstep
    obtain ⟨hhg, hg⟩ := ih
    refine ⟨?_, hg.above hstep⟩
    cases fuel with
    | zero => cases hstep
    | succ fuel =>
      cases g with
      | defined d => exact (hg d rfl).elim
      | _ =>
        cases g' <;> first
          | (simp [isSubtypeOf] at hstep; done)
          | (cases h <;> first
              | rfl
              | exact (hh _ rfl).elim
              | simp [isSubtypeOf] at hhg)

/-! ## A test between related types does not fail -/

/-- Where the test returns on related heap types, it returns `true`. -/
def NeverFails (types : TypeTable) (test : HeapTest) : Prop :=
  ∀ h h', HeapSub types h h' → ∀ r, test h h' = some r → r = true

theorem checkAll_of_never_false {α : Type} {f : α → Option Bool} {as : List α}
    (hf : ∀ a ∈ as, ∀ r, f a = some r → r = true) {r : Bool} (h : checkAll f as = some r) :
    r = true := by
  induction as with
  | nil => exact (some.inj h).symm
  | cons a as ih =>
    rw [checkAll] at h
    split at h
    · exact ih (fun b hb => hf b (mem_cons_of_mem a hb)) h
    · exact hf a mem_cons_self r h

section Tests

variable {test : HeapTest} {r : Bool}

section

variable (htest : NeverFails types test)
include htest

theorem ValueSub.never_fails {t u : ValueType}
    (hsub : ValueSub types t u) (h : t.isSubtypeOfWith test u = some r) : r = true := by
  cases hsub with
  | num k => simpa [ValueType.isSubtypeOfWith, eq_comm] using h
  | rtt d hp =>
    rcases hp with rfl | rfl
    · simpa [ValueType.isSubtypeOfWith, eq_comm] using h
    · simpa [ValueType.isSubtypeOfWith, eq_comm] using h
  | @ref g g' n n' hn hh =>
    rw [ValueType.isSubtypeOfWith] at h
    split at h
    · rename_i hnull
      simp only [Bool.and_eq_true, Bool.not_eq_true'] at hnull
      rw [hn hnull.1] at hnull
      cases hnull.2
    · exact htest _ _ hh r h

theorem StorageBelow.never_fails {t u : StorageType}
    (hsub : StorageBelow types t u) (h : t.isSubtypeOfWith test u = some r) : r = true := by
  cases hsub with
  | value hsub => exact hsub.never_fails htest h
  | packed k => simpa [isSubtypeOfWith, eq_comm] using h

theorem FieldBelow.never_fails {f g : FieldType}
    (hsub : FieldBelow types f g) (h : f.isSubtypeOfWith test g = some r) : r = true := by
  rw [FieldType.isSubtypeOfWith] at h
  split at h
  · rename_i hm
    simp [hsub.mutability] at hm
  · split at h
    · rename_i hmutable
      simpa [hsub.invariant hmutable, eq_comm] using h
    · exact hsub.covariant.never_fails htest h

theorem KindBelow.never_fails (hl : (types[o]?).map kind = some l) (hkl : KindBelow types k l)
    (h : k.isStructuralSubtypeOfWith types test (.defined o) = some r) : r = true := by
  cases hkl with
  | @function ins outs ins' outs' hins houts =>
    simp only [isStructuralSubtypeOfWith, hl] at h
    rw [if_neg (by simp [hins.length_eq]), if_neg (by simp [houts.length_eq])] at h
    split at h
    · refine checkAll_of_never_false (fun p hp r hr => ?_) h
      have hsub : ValueSub types p.1 p.2 := (forall₂_iff_zip.1 houts).2 hp
      exact hsub.never_fails htest hr
    · refine checkAll_of_never_false (fun p hp r hr => ?_) h
      -- Inputs are compared the other way round.
      have hsub : ValueSub types p.2 p.1 := (forall₂_iff_zip.1 hins.flip).2 hp
      exact hsub.never_fails htest hr
  | @struct name name' fields fields' hfields =>
    simp only [isStructuralSubtypeOfWith, hl] at h
    split at h
    · rename_i hlen
      have hlast := getElem?_eq_getElem hlen
      obtain ⟨f, hf, _⟩ := hfields _ _ hlast
      simp at hf
    · refine checkAll_of_never_false (fun p hp r hr => ?_) h
      obtain ⟨i, hi⟩ := mem_iff_getElem?.1 hp
      obtain ⟨hfi, hgi⟩ := getElem?_zip_eq_some.1 hi
      obtain ⟨f, hf, hsub⟩ := hfields i p.2 hgi
      obtain rfl := some.inj (hf.symm.trans hfi)
      exact hsub.never_fails htest hr
  | @array name name' element element' helement =>
    cases element' with
    | none => cases element <;> simp [isStructuralSubtypeOfWith, hl] at h
    | some g =>
      obtain ⟨f, rfl, hsub⟩ := helement g rfl
      simp only [isStructuralSubtypeOfWith, hl] at h
      exact hsub.never_fails htest h

end

end Tests

theorem isSubtypeOf_never_fails (hwf : TypesWellFormed types) (fuel : Nat) :
    NeverFails types (isSubtypeOf types fuel) := by
  -- The comparison of two structures makes its own tests with less fuel.
  induction fuel with
  | zero =>
    intro h h' _ r hr
    cases hr
  | succ fuel ih =>
    intro h h' hsub r hr
    by_cases hbuiltin : h.IsBuiltin
    · have htrue := (hsub.of_builtin hbuiltin).1
      cases h with
      | defined d => exact (hbuiltin d rfl).elim
      | _ => exact some.inj (hr.symm.trans htrue)
    · obtain ⟨d, rfl⟩ : ∃ d, h = .defined d := by simpa [HeapType.IsBuiltin] using hbuiltin
      rw [isSubtypeOf] at hr
      split at hr
      · exact (some.inj hr).symm
      rename_i hne
      split at hr
      · cases hr
      rename_i t ht
      split at hr
      · rename_i s hs
        exact ih s h' (hsub.through_superType ht hs hne) r hr
      by_cases habove : h'.IsBuiltin
      · obtain ⟨u, hu, hbelow⟩ := hsub.belowBuiltin hwf habove
        obtain rfl := some.inj (ht.symm.trans hu)
        rw [isStructuralSubtypeOfWith_builtin habove] at hr
        exact some.inj (hr.symm.trans hbelow)
      · obtain ⟨o, rfl⟩ : ∃ o, h' = .defined o := by
          simpa [HeapType.IsBuiltin] using habove
        cases ho : types[o]? with
        | none => exact (hne (hsub.eq_of_missing hwf ho).symm).elim
        | some u =>
          have hkind : (types[o]?).map kind = some u.kind := by rw [ho]; rfl
          obtain ⟨d', k, hd', hk, hku⟩ := hsub.kindBelow hwf hkind
          cases hd'
          rw [ht] at hk
          cases hk
          exact hku.never_fails ih hkind hr

/-! ## The preorder -/

def StorageType.isSubtypeOf (types : TypeTable) (fuel : Nat) (this other : StorageType) :
    Option Bool :=
  this.isSubtypeOfWith (HeapType.isSubtypeOf types fuel) other

def FieldType.isSubtypeOf (types : TypeTable) (fuel : Nat) (this other : FieldType) :
    Option Bool :=
  this.isSubtypeOfWith (HeapType.isSubtypeOf types fuel) other

/-- A test on fuel is a preorder where it returns: it accepts every element with itself, and if it
accepts `a` with `b` and `b` with `c`, it does not reject `a` with `c`. -/
structure IsPreorderTest {α : Type} (test : Nat → α → α → Option Bool) : Prop where
  refl : ∀ a, ∃ fuel, test fuel a a = some true
  trans : ∀ a b c, (∃ fuel, test fuel a b = some true) → (∃ fuel, test fuel b c = some true) →
    (∃ fuel r, test fuel a c = some r) → ∃ fuel, test fuel a c = some true

/-- A test that accepts only related elements and never rejects them, for a preorder `R`. -/
theorem IsPreorderTest.of_decides {α : Type} {test : Nat → α → α → Option Bool} {R : α → α → Prop}
    (hrefl : ∀ a, test 1 a a = some true) (htrans : ∀ a b c, R a b → R b c → R a c)
    (hsound : ∀ fuel a b, test fuel a b = some true → R a b)
    (hnever : ∀ fuel a b r, R a b → test fuel a b = some r → r = true) : IsPreorderTest test where
  refl a := ⟨1, hrefl a⟩
  trans := by
    rintro a b c ⟨fuel, hab⟩ ⟨fuel', hbc⟩ ⟨fuel'', r, hac⟩
    have hR : R a c := htrans a b c (hsound fuel a b hab) (hsound fuel' b c hbc)
    obtain rfl := hnever fuel'' a c r hR hac
    exact ⟨fuel'', hac⟩

theorem HeapType.isSubtypeOf_refl (h : HeapType) :
    isSubtypeOf types (fuel + 1) h h = some true := by
  cases h with
  | defined d => simp [isSubtypeOf]
  | _ => rfl

theorem ValueType.isSubtypeOf_refl (t : ValueType) :
    ValueType.isSubtypeOf types (fuel + 1) t t = some true := by
  cases t with
  | num | rtt => simp [ValueType.isSubtypeOf, ValueType.isSubtypeOfWith]
  | ref h n => simp [ValueType.isSubtypeOf, ValueType.isSubtypeOfWith, HeapType.isSubtypeOf_refl]

theorem StorageType.isSubtypeOf_refl (t : StorageType) : isSubtypeOf types 1 t t = some true := by
  cases t with
  | value t => exact ValueType.isSubtypeOf_refl t
  | packed k => simp [isSubtypeOf, isSubtypeOfWith]

theorem FieldType.isSubtypeOf_refl (f : FieldType) :
    FieldType.isSubtypeOf types 1 f f = some true := by
  have htype : f.type.isSubtypeOfWith (HeapType.isSubtypeOf types 1) f.type = some true :=
    StorageType.isSubtypeOf_refl f.type
  cases hm : f.mutable <;> simp [FieldType.isSubtypeOf, FieldType.isSubtypeOfWith, hm, htype]

/-- On every type table whose declared supertypes are structural supertypes, the subtype tests of
heap, value and storage types and of fields are preorders. -/
theorem isSubtypeOf_preorder (types : TypeTable) (hwf : TypesWellFormed types) :
    IsPreorderTest (HeapType.isSubtypeOf types) ∧ IsPreorderTest (ValueType.isSubtypeOf types) ∧
      IsPreorderTest (StorageType.isSubtypeOf types) ∧
      IsPreorderTest (FieldType.isSubtypeOf types) := by
  have hnever := isSubtypeOf_never_fails hwf
  refine ⟨?_, ?_, ?_, ?_⟩
  · exact .of_decides (R := HeapSub types) isSubtypeOf_refl
      (fun _ _ _ => trans) (fun fuel _ _ h => .single ⟨fuel, h⟩)
      (fun fuel a b r hab => hnever fuel a b hab r)
  · exact .of_decides (R := ValueSub types) ValueType.isSubtypeOf_refl
      (fun _ _ _ => ValueSub.trans) (fun _ _ _ => .of_isSubtypeOfWith)
      (fun fuel _ _ _ hab => hab.never_fails (hnever fuel))
  · exact .of_decides (R := StorageBelow types) isSubtypeOf_refl
      (fun _ _ _ => StorageBelow.trans) (fun _ _ _ => .of_isSubtypeOfWith)
      (fun fuel _ _ _ hab => hab.never_fails (hnever fuel))
  · exact .of_decides (R := FieldBelow types) FieldType.isSubtypeOf_refl
      (fun _ _ _ => FieldBelow.trans) (fun _ _ _ => .of_isSubtypeOfWith)
      (fun fuel _ _ _ hab => hab.never_fails (hnever fuel))

/-- A struct type, a subtype declared to be one, and a function type that accepts the former. -/
def nominalTypes : TypeTable :=
  [⟨.struct "B" [⟨.value (.ref .any true), false⟩], none, 0⟩,
    ⟨.struct "A" [⟨.value (.ref .data true), false⟩, ⟨.packed .i8, true⟩], some (.defined 0), 1⟩,
    ⟨.function [.ref (.defined 0) true] [.ref (.defined 1) false], none, 2⟩]

theorem isSubtypeOf_preorder_nominalTypes :
    TypesWellFormed nominalTypes ∧
      ∃ fuel, HeapType.isSubtypeOf nominalTypes fuel (.defined 1) .eq = some true := by
  have hwf : TypesWellFormed nominalTypes := by
    intro t ht s hs
    simp only [nominalTypes, mem_cons, not_mem_nil, or_false] at ht
    rcases ht with rfl | rfl | rfl
    · cases hs
    · cases hs
      exact ⟨2, rfl⟩
    · cases hs
  exact ⟨hwf, (isSubtypeOf_preorder nominalTypes hwf).1.trans _ (.defined 0) _ ⟨2, rfl⟩ ⟨2, rfl⟩
    ⟨3, true, rfl⟩⟩

end Dart2Wasm.WasmBuilder
