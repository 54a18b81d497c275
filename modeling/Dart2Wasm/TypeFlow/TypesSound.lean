import Mathlib.Data.List.Forall2
import Dart2Wasm.TypeFlow.Types

/-!
# TypesSound — union and intersection over-approximate

A type describes a set of values. `union_sound` and `intersection_sound` say that the operations
return a well-formed type and lose no value that exists. A value exists if its class is allocated;
this is what the specialization of a cone relies on.

The type arguments of generic supertypes follow the immediate ones in a vector and are implied by
them, so that comparing the immediate ones is enough (`SameData.describes`).
-/

namespace Dart2Wasm.TypeFlow

open TypeArg List Option TypeHierarchy

variable {ρ κ : Type}
variable {u : ConcreteType ρ κ} {types1 types2 : TypeSet ρ κ}

/-! ## Values -/

/-- An object with the vector of its type arguments, and the constant that it is, if any. -/
structure Instance (ρ κ : Type) where
  cls : Nat
  typeArgs : List ρ
  constant : Option κ

inductive Value (ρ κ : Type)
  | null
  | object (i : Instance ρ κ)

def TypeArg.describes : TypeArg ρ → ρ → Prop
  | .unknown, _ => True
  | .runtime type, r => type = r

def ConcreteType.describes (t : ConcreteType ρ κ) (i : Instance ρ κ) : Prop :=
  i.cls = t.cls ∧ (∀ args, t.typeArgs = some args →
    List.Forall₂ TypeArg.describes args i.typeArgs) ∧
    ∀ c, t.constant = some c → i.constant = some c

def FlowType.describes (h : TypeHierarchy ρ κ) : FlowType ρ κ → Value ρ κ → Prop
  | .empty, _ => False
  | .nullable baseType, v => v = .null ∨ baseType.describes h v
  | .any, v => v ≠ .null
  | .wideCone cls, v => ∃ i, v = .object i ∧ h.isSubtype i.cls cls = true
  | .set types, v => ∃ i, v = .object i ∧ ∃ t ∈ types, t.describes i
  | .cone cls, v => ∃ i, v = .object i ∧ h.isSubtype i.cls cls = true
  | .concrete t, v => ∃ i, v = .object i ∧ t.describes i

/-- The allocated classes, and how the immediate type arguments of an instance make its vector. -/
structure World (h : TypeHierarchy ρ κ) where
  allocated : Nat → Prop
  flattenedLength : Nat → Nat
  flattened : Nat → List ρ → List ρ
  length_flattened : ∀ c args, args.length = h.typeParameters c →
    (flattened c args).length = flattenedLength c
  take_flattened : ∀ c args, args.length = h.typeParameters c →
    (flattened c args).take (h.typeParameters c) = args

variable {h : TypeHierarchy ρ κ}

def World.HasInstance (w : World h) (i : Instance ρ κ) : Prop :=
  w.allocated i.cls ∧
    ∃ args, args.length = h.typeParameters i.cls ∧ i.typeArgs = w.flattened i.cls args

def World.HasValue (w : World h) : Value ρ κ → Prop
  | .null => True
  | .object i => w.HasInstance i

/-! ## Well-formed types -/

/-- The type arguments after the immediate ones are implied by them. -/
def ConcreteType.WellFormed (w : World h) (t : ConcreteType ρ κ) : Prop :=
  ∀ args, t.typeArgs = some args → 0 < h.typeParameters t.cls ∧
    args.length = w.flattenedLength t.cls ∧
    ∀ immediate, immediate.length = h.typeParameters t.cls →
      List.Forall₂ TypeArg.describes (args.take (h.typeParameters t.cls)) immediate →
      List.Forall₂ TypeArg.describes args (w.flattened t.cls immediate)

/-- The list of a set type: sorted by class id without duplicates. -/
def WellFormedList (w : World h) (types : TypeSet ρ κ) : Prop :=
  types.Pairwise (fun t u => t.cls < u.cls) ∧ ∀ t ∈ types, t.WellFormed w

def FlowType.WellFormed (w : World h) : FlowType ρ κ → Prop
  | .nullable baseType => baseType.WellFormed w ∧ baseType.isNullable = false
  | .set types => 2 ≤ types.length ∧ WellFormedList w types
  | .concrete t => t.WellFormed w
  | _ => True

/-- The specialization of a cone contains every instance of an allocated subclass. -/
structure World.Specializes (w : World h) : Prop where
  wellFormed : ∀ c, (h.specializeTypeCone c).WellFormed w
  contains : ∀ c i, w.HasInstance i → h.isSubtype i.cls c = true →
    (h.specializeTypeCone c).describes h (.object i)

variable {w : World h}

theorem ConcreteType.WellFormed.raw (t : ConcreteType ρ κ) : t.raw.WellFormed w :=
  nofun

variable {t t : ConcreteType ρ κ} {i : Instance ρ κ}

theorem ConcreteType.describes.raw (hi : t.describes i) : t.raw.describes i :=
  ⟨hi.1, nofun, nofun⟩

/-! ## Concrete types -/

/-- A vector describes an instance if its immediate part does. -/
theorem immediate_iff (ht : t.WellFormed w) {args : List (TypeArg ρ)}
    (hargs : t.typeArgs = some args) (hi : w.HasInstance i) (hcls : i.cls = t.cls) :
    List.Forall₂ describes args i.typeArgs ↔
      List.Forall₂ describes (args.take (h.typeParameters t.cls))
        (i.typeArgs.take (h.typeParameters t.cls)) := by
  obtain ⟨-, immediate, hlength, hvector⟩ := hi
  rw [hcls] at hlength hvector
  rw [hvector, w.take_flattened _ _ hlength]
  constructor
  · intro hall
    have htake := forall₂_take (h.typeParameters t.cls) hall
    rwa [w.take_flattened _ _ hlength] at htake
  · exact (ht args hargs).2.2 immediate hlength

/-- The data that `operator ==` compares. -/
def SameData (h : TypeHierarchy ρ κ) (t u : ConcreteType ρ κ) : Prop :=
  t.cls = u.cls ∧ t.constant = u.constant ∧
    ((t.typeArgs = none ∧ u.typeArgs = none) ∨
      ∃ as bs, t.typeArgs = some as ∧ u.typeArgs = some bs ∧
        as.take (h.typeParameters t.cls) = bs.take (h.typeParameters t.cls))

theorem SameData.symm (hsame : SameData h t u) : SameData h u t := by
  obtain ⟨hcls, hconstant, hargs⟩ := hsame
  refine ⟨hcls.symm, hconstant.symm, ?_⟩
  rcases hargs with ⟨ht, hu⟩ | ⟨as, bs, has, hbs, heq⟩
  · exact .inl ⟨hu, ht⟩
  · exact .inr ⟨bs, as, hbs, has, by rw [← hcls, heq]⟩

theorem SameData.describes (hsame : SameData h t u) (ht : t.WellFormed w)
    (hu : u.WellFormed w) (hi : w.HasInstance i) (hdescribes : t.describes i) : u.describes i := by
  obtain ⟨hcls, hconstant, hargs⟩ := hsame
  obtain ⟨hicls, hiargs, hiconstant⟩ := hdescribes
  refine ⟨hicls.trans hcls, ?_, by rw [← hconstant]; exact hiconstant⟩
  intro uargs huargs
  rcases hargs with ⟨-, hnone⟩ | ⟨as, bs, has, hbs, heq⟩
  · rw [hnone] at huargs
    cases huargs
  · obtain rfl : bs = uargs := some.inj (hbs.symm.trans huargs)
    rw [immediate_iff hu hbs hi (hicls.trans hcls), ← hcls, ← heq]
    exact (immediate_iff ht has hi hicls).1 (hiargs as has)

/-! ## Sets -/

/-- Some member of a list describes an instance. -/
def DescribedBy (types : TypeSet ρ κ) (i : Instance ρ κ) : Prop :=
  ∃ t ∈ types, t.describes i

variable {types : TypeSet ρ κ}

theorem describedBy_cons : DescribedBy (t :: types) i ↔ t.describes i ∨ DescribedBy types i := by
  simp [DescribedBy]

theorem WellFormedList.tail (hwf : WellFormedList w (t :: types)) : WellFormedList w types :=
  ⟨hwf.1.of_cons, fun u hu => hwf.2 u (mem_cons_of_mem _ hu)⟩

theorem WellFormedList.lt_cls {c : Nat} (hwf : WellFormedList w (t :: types)) (hlt : c < t.cls) :
    ∀ u ∈ t :: types, c < u.cls := by
  intro u hu
  rcases mem_cons.1 hu with rfl | hu
  · exact hlt
  · exact hlt.trans (rel_of_pairwise_cons hwf.1 hu)

theorem WellFormedList.cons (ht : t.WellFormed w) (hwf : WellFormedList w types)
    (hlt : ∀ u ∈ types, t.cls < u.cls) : WellFormedList w (t :: types) :=
  ⟨pairwise_cons.2 ⟨hlt, hwf.1⟩, forall_mem_cons.2 ⟨ht, hwf.2⟩⟩

/-- What the intersection of concrete types is. -/
def ConcreteResult (w : World h) (t u : ConcreteType ρ κ) (r : FlowType ρ κ) : Prop :=
  (r = .empty ∧ ∀ i, w.HasInstance i → t.describes i → ¬ u.describes i) ∨
    ∃ m, r = .concrete m ∧ m.WellFormed w ∧ m.cls = t.cls ∧ m.cls = u.cls ∧
      ∀ i, w.HasInstance i → t.describes i → u.describes i → m.describes i

theorem not_describedBy {c : Nat} (hlt : ∀ t ∈ types, c < t.cls) (hi : i.cls = c) :
    ¬ DescribedBy types i := by
  rintro ⟨t, ht, hdescribed⟩
  have hless := hlt t ht
  rw [← hdescribed.1, hi] at hless
  exact Nat.lt_irrefl _ hless

theorem intersect_front {t1 t2 : ConcreteType ρ κ} {types : TypeSet ρ κ}
    (h1 : WellFormedList w (t1 :: types1)) (h2 : WellFormedList w (t2 :: types2))
    (hcls : t1.cls = t2.cls) {r : FlowType ρ κ} (hr : ConcreteResult w t1 t2 r)
    (hwf : WellFormedList w types) (hclasses : ∀ t ∈ types, ∃ u ∈ types1, t.cls = u.cls)
    (hall : ∀ i, w.HasInstance i → DescribedBy types1 i → DescribedBy types2 i →
      DescribedBy types i) :
    ∃ type, castConcrete r = .ok type ∧ WellFormedList w (type.toList ++ types) ∧
      (∀ t ∈ type.toList ++ types, ∃ u ∈ t1 :: types1, t.cls = u.cls) ∧
      ∀ i, w.HasInstance i → DescribedBy (t1 :: types1) i → DescribedBy (t2 :: types2) i →
        DescribedBy (type.toList ++ types) i := by
  have hlt1 : ∀ t ∈ types1, t1.cls < t.cls := fun t ht => rel_of_pairwise_cons h1.1 ht
  have hlt2 : ∀ t ∈ types2, t2.cls < t.cls := fun t ht => rel_of_pairwise_cons h2.1 ht
  -- an instance of the common class is described by both first elements
  have hfirst : ∀ i, DescribedBy (t1 :: types1) i → DescribedBy (t2 :: types2) i →
      (t1.describes i ∧ t2.describes i) ∨ (DescribedBy types1 i ∧ DescribedBy types2 i) := by
    intro i hd1 hd2
    rcases describedBy_cons.1 hd1 with hd1 | hd1 <;> rcases describedBy_cons.1 hd2 with hd2 | hd2
    · exact .inl ⟨hd1, hd2⟩
    · exact absurd hd2 (not_describedBy hlt2 (hd1.1.trans hcls))
    · exact absurd hd1 (not_describedBy hlt1 (hd2.1.trans hcls.symm))
    · exact .inr ⟨hd1, hd2⟩
  have hrest : ∀ t ∈ types, ∃ u ∈ t1 :: types1, t.cls = u.cls := by
    intro t ht
    obtain ⟨u, hu, heq⟩ := hclasses t ht
    exact ⟨u, mem_cons_of_mem _ hu, heq⟩
  rcases hr with ⟨rfl, hempty⟩ | ⟨m, rfl, hmwf, hmcls, -, hm⟩
  · refine ⟨none, rfl, hwf, hrest, fun i hi hd1 hd2 => ?_⟩
    rcases hfirst i hd1 hd2 with hd | hd
    · exact absurd hd.2 (hempty i hi hd.1)
    · exact hall i hi hd.1 hd.2
  · refine ⟨some m, rfl, hwf.cons hmwf fun t ht => ?_, fun t ht => ?_, fun i hi hd1 hd2 => ?_⟩
    · obtain ⟨u, hu, heq⟩ := hclasses t ht
      rw [hmcls, heq]
      exact hlt1 u hu
    · rcases mem_cons.1 ht with rfl | ht
      · exact ⟨t1, mem_cons_self, hmcls⟩
      · exact hrest t ht
    · rcases hfirst i hd1 hd2 with hd | hd
      · exact describedBy_cons.2 (.inl (hm i hi hd.1 hd.2))
      · exact describedBy_cons.2 (.inr (hall i hi hd.1 hd.2))

theorem isSubList_mem {sublist list : TypeSet ρ κ}
    (hsub : isSubList h sublist list = true) : ∀ t ∈ sublist, t ∈ list := by
  fun_induction isSubList h sublist list with
  | case1 list => exact nofun
  | case2 | case5 => cases hsub
  | case3 t1 sublist t2 list hidentical ih =>
    have hsame := h.identical_eq _ _ hidentical
    cases hsame
    intro t ht
    rcases mem_cons.1 ht with rfl | ht
    · exact mem_cons_self
    · exact mem_cons_of_mem _ (ih hsub t ht)
  | case4 t1 sublist t2 list _ _ ih => exact fun t ht => mem_cons_of_mem _ (ih hsub t ht)

theorem ofList_spec (hwf : WellFormedList w types) :
    (ofList types).WellFormed w ∧ (ofList types).isNullable = false ∧
      ∀ i, DescribedBy types i → (ofList types).describes h (.object i) := by
  match types with
  | [] => exact ⟨trivial, rfl, fun i hi => by simp [DescribedBy] at hi⟩
  | [t] =>
    refine ⟨hwf.2 t mem_cons_self, rfl, fun i hi => ⟨i, rfl, ?_⟩⟩
    simpa [DescribedBy] using hi
  | t :: u :: types =>
    exact ⟨⟨by simp, hwf⟩, rfl, fun i hi => ⟨i, rfl, hi⟩⟩

/-! ## Operations -/

section Operations

variable [DecidableEq ρ] [DecidableEq κ]

theorem sameData_of_concreteEq (ht : t.WellFormed w)
    (hu : u.WellFormed w) (heq : h.concreteEq t u = true) : SameData h t u := by
  rw [concreteEq, Bool.or_eq_true] at heq
  rcases heq with hidentical | hequal
  · have hsame := h.identical_eq _ _ hidentical
    cases hsame
    refine ⟨rfl, rfl, ?_⟩
    cases hargs : u.typeArgs with
    | none => exact .inl ⟨rfl, rfl⟩
    | some args => exact .inr ⟨args, args, rfl, rfl, rfl⟩
  · simp only [Bool.and_eq_true, beq_iff_eq, Bool.or_eq_true, isNone_iff_eq_none] at hequal
    obtain ⟨⟨⟨hcls, hnum⟩, hargs⟩, hconstant⟩ := hequal
    refine ⟨hcls, hconstant, ?_⟩
    -- the numbers of immediate type arguments tell whether there are any
    cases htargs : t.typeArgs with
    | none =>
      cases huargs : u.typeArgs with
      | none => exact .inl ⟨rfl, rfl⟩
      | some uargs =>
        have hpos := (hu uargs huargs).1
        simp [numImmediateTypeArgs, htargs, huargs] at hnum
        omega
    | some targs =>
      cases huargs : u.typeArgs with
      | none =>
        have hpos := (ht targs htargs).1
        simp [numImmediateTypeArgs, htargs, huargs] at hnum
        omega
      | some uargs =>
        simp only [htargs, huargs, numImmediateTypeArgs, isSome_some,
          if_true, getD_some, reduceCtorEq, false_or] at hargs
        exact .inr ⟨targs, uargs, rfl, rfl, hargs⟩

theorem TypeArg.intersection_describes (a b : TypeArg ρ) (r : ρ) :
    a.describes r ∧ b.describes r ↔ ∃ m, a.intersection b = some m ∧ m.describes r := by
  cases a with
  | unknown => simp [intersection, describes]
  | runtime type =>
    cases b with
    | unknown => simp [intersection, describes]
    | runtime other =>
      by_cases heq : type = other
      · subst heq
        simp [intersection, describes]
      · simp only [intersection, describes, if_neg heq]
        constructor
        · rintro ⟨rfl, hother⟩
          exact absurd hother.symm heq
        · rintro ⟨m, hm, -⟩
          cases hm

/-- A merged vector describes what both vectors describe, and so does each of its beginnings. -/
theorem mergeTypeArgs_spec {as bs : List (TypeArg ρ)} (hlength : as.length = bs.length) :
    (mergeTypeArgs as bs = .ok none ∧ ∀ rs, List.Forall₂ describes as rs →
      ¬ List.Forall₂ describes bs rs) ∨
    ∃ ms, mergeTypeArgs as bs = .ok (some ms) ∧ ms.length = as.length ∧
      ∀ n rs, List.Forall₂ describes (ms.take n) rs ↔
        List.Forall₂ describes (as.take n) rs ∧
          List.Forall₂ describes (bs.take n) rs := by
  induction as generalizing bs with
  | nil =>
    obtain rfl : bs = [] := length_eq_zero_iff.1 hlength.symm
    exact .inr ⟨[], rfl, rfl, fun n rs => by simp⟩
  | cons a as ih =>
    obtain _ | ⟨b, bs⟩ := bs
    · cases hlength
    rw [mergeTypeArgs]
    cases hab : a.intersection b with
    | none =>
      refine .inl ⟨rfl, ?_⟩
      rintro rs (_ | ⟨har, -⟩) (_ | ⟨hbr, -⟩)
      obtain ⟨m, hm, -⟩ := (intersection_describes a b _).1 ⟨har, hbr⟩
      rw [hab] at hm
      cases hm
    | some m =>
      rcases ih (Nat.succ.inj hlength) with ⟨hnone, hempty⟩ | ⟨ms, hsome, hms, hiff⟩
      · refine .inl ⟨by rw [hnone]; rfl, ?_⟩
        rintro rs (_ | ⟨-, has⟩) (_ | ⟨-, hbs⟩)
        exact hempty _ has hbs
      refine .inr ⟨m :: ms, by rw [hsome]; rfl, by simp [hms], ?_⟩
      intro n rs
      cases n with
      | zero => simp
      | succ n =>
        cases rs with
        | nil => simp
        | cons r rs =>
          have hhead := intersection_describes a b r
          simp only [hab, some.injEq, exists_eq_left'] at hhead
          simp only [take_succ_cons, forall₂_cons, hiff, ← hhead]
          tauto

omit [DecidableEq κ] in
theorem mergedTypeArgs_spec (ht : t.WellFormed w) (hu : u.WellFormed w) (hcls : t.cls = u.cls) :
    (mergedTypeArgs t.typeArgs u.typeArgs = .ok none ∧
      ∀ i, t.describes i → ¬ u.describes i) ∨
    ∃ typeArgs, mergedTypeArgs t.typeArgs u.typeArgs = .ok (some typeArgs) ∧
      (∀ c, (ConcreteType.mk t.cls typeArgs c).WellFormed w) ∧
      ∀ i, t.describes i → u.describes i → ∀ args, typeArgs = some args →
        List.Forall₂ describes args i.typeArgs := by
  cases hta : t.typeArgs with
  | none =>
    refine .inr ⟨u.typeArgs, rfl, ?_, fun i _ hi => hi.2.1⟩
    intro c args hargs
    rw [hcls]
    exact hu args hargs
  | some as =>
    cases hua : u.typeArgs with
    | none =>
      refine .inr ⟨some as, rfl, ?_, fun i hi _ args hargs => ?_⟩
      · intro c args hargs
        exact ht args (hta.trans hargs)
      · exact hi.2.1 args (hta.trans hargs)
    | some bs =>
      have hwt := ht as hta
      have hwu := hu bs hua
      rw [← hcls] at hwu
      rcases mergeTypeArgs_spec (hwt.2.1.trans hwu.2.1.symm) with
        ⟨hnone, hempty⟩ | ⟨ms, hsome, hms, hiff⟩
      · refine .inl ⟨by rw [mergedTypeArgs, hnone]; rfl, fun i hti hui => ?_⟩
        exact hempty _ (hti.2.1 as hta) (hui.2.1 bs hua)
      have hfull : ∀ rs, List.Forall₂ describes as rs →
          List.Forall₂ describes bs rs → List.Forall₂ describes ms rs := by
        intro rs has hbs
        have hall := (hiff ms.length rs).2
        rw [take_length, hms, take_length, hwt.2.1.trans hwu.2.1.symm, take_length] at hall
        exact hall ⟨has, hbs⟩
      refine .inr ⟨if ms.any isRuntimeType then some ms else none,
        by rw [mergedTypeArgs, hsome]; rfl, ?_, ?_⟩
      · intro c args hargs
        split at hargs
        · cases hargs
          refine ⟨hwt.1, hms.trans hwt.2.1, fun immediate hlength hall => ?_⟩
          have hboth := (hiff _ _).1 hall
          exact hfull _ (hwt.2.2 immediate hlength hboth.1) (hwu.2.2 immediate hlength hboth.2)
        · cases hargs
      · intro i hti hui args hargs
        split at hargs
        · cases hargs
          exact hfull _ (hti.2.1 as hta) (hui.2.1 bs hua)
        · cases hargs

theorem mergedConstant_spec (a b : Option κ) :
    (mergedConstant a b = none ∧ ∀ c : Option κ, (∀ k, a = some k → c = some k) →
      ¬ ∀ k, b = some k → c = some k) ∨
    ∃ m, mergedConstant a b = some m ∧ ∀ c : Option κ, (∀ k, a = some k → c = some k) →
      (∀ k, b = some k → c = some k) → ∀ k, m = some k → c = some k := by
  cases a with
  | none => exact .inr ⟨b, rfl, fun c _ hb => hb⟩
  | some a =>
    cases b with
    | none => exact .inr ⟨some a, rfl, fun c ha _ => ha⟩
    | some b =>
      by_cases heq : a = b
      · subst heq
        exact .inr ⟨some a, by simp [mergedConstant], fun c ha _ => ha⟩
      · refine .inl ⟨by simp [mergedConstant, heq], fun c ha hb => heq ?_⟩
        have hca := ha a rfl
        rw [hb b rfl] at hca
        exact (some.inj hca).symm

theorem concrete_intersection (ht : t.WellFormed w)
    (hu : u.WellFormed w) : ∃ r, t.intersection h u = .ok r ∧ ConcreteResult w t u r := by
  rw [ConcreteType.intersection]
  by_cases heq : h.concreteEq t u = true
  · rw [if_pos heq]
    exact ⟨_, rfl, .inr ⟨t, rfl, ht, rfl, (sameData_of_concreteEq ht hu heq).1, fun _ _ hi _ => hi⟩⟩
  rw [if_neg heq]
  by_cases hcls : t.cls = u.cls
  · rw [if_neg (not_not.2 hcls)]
    by_cases hraw : t.isRaw = true
    · rw [if_pos hraw]
      exact ⟨_, rfl, .inr ⟨u, rfl, hu, hcls.symm, rfl, fun _ _ _ hi => hi⟩⟩
    rw [if_neg hraw]
    by_cases huraw : u.isRaw = true
    · rw [if_pos huraw]
      exact ⟨_, rfl, .inr ⟨t, rfl, ht, rfl, hcls, fun _ _ hi _ => hi⟩⟩
    rw [if_neg huraw]
    rcases mergedTypeArgs_spec ht hu hcls with ⟨hnone, hempty⟩ | ⟨args, hsome, hwf, hargs⟩
    · rw [hnone]
      exact ⟨_, rfl, .inl ⟨rfl, fun i _ => hempty i⟩⟩
    rw [hsome]
    rcases mergedConstant_spec t.constant u.constant with ⟨hnone, hempty⟩ | ⟨c, hc, hconstant⟩
    · refine ⟨.empty, ?_, .inl ⟨rfl, fun i _ hti hui => hempty _ hti.2.2 hui.2.2⟩⟩
      simp only [hnone]
      rfl
    · refine ⟨.concrete ⟨t.cls, args, c⟩, ?_, .inr ⟨_, rfl, hwf c, rfl, hcls, ?_⟩⟩
      · simp only [hc]
        rfl
      · exact fun i _ hti hui => ⟨hti.1, hargs i hti hui, hconstant _ hti.2.2 hui.2.2⟩
  · rw [if_pos hcls]
    exact ⟨_, rfl, .inl ⟨rfl, fun i _ hti hui => hcls (hti.1.symm.trans hui.1)⟩⟩

theorem unionLists_cls
    (ht : t ∈ unionLists h types1 types2) : ∃ u, (u ∈ types1 ∨ u ∈ types2) ∧ t.cls = u.cls := by
  fun_induction unionLists h types1 types2 with
  | case1 types2 => exact ⟨t, .inr ht, rfl⟩
  | case2 types1 => exact ⟨t, .inl ht, rfl⟩
  | case3 t1 types1 t2 types2 hlt ih =>
    rcases mem_cons.1 ht with rfl | ht
    · exact ⟨t, .inl mem_cons_self, rfl⟩
    · obtain ⟨u, hu, hcls⟩ := ih ht
      exact ⟨u, hu.imp_left (mem_cons_of_mem _), hcls⟩
  | case4 t1 types1 t2 types2 _ hgt ih =>
    rcases mem_cons.1 ht with rfl | ht
    · exact ⟨t, .inr mem_cons_self, rfl⟩
    · obtain ⟨u, hu, hcls⟩ := ih ht
      exact ⟨u, hu.imp_right (mem_cons_of_mem _), hcls⟩
  | case5 t1 types1 t2 types2 _ _ ih =>
    rcases mem_cons.1 ht with rfl | ht
    · exact ⟨t1, .inl mem_cons_self, by split <;> rfl⟩
    · obtain ⟨u, hu, hcls⟩ := ih ht
      exact ⟨u, hu.imp (mem_cons_of_mem _) (mem_cons_of_mem _), hcls⟩

theorem unionLists_spec (h1 : WellFormedList w types1) (h2 : WellFormedList w types2) :
    WellFormedList w (unionLists h types1 types2) ∧
      types1.length ≤ (unionLists h types1 types2).length ∧
      ∀ i, w.HasInstance i → DescribedBy types1 i ∨ DescribedBy types2 i →
        DescribedBy (unionLists h types1 types2) i := by
  fun_induction unionLists h types1 types2 with
  | case1 types2 =>
    exact ⟨h2, Nat.zero_le _, fun i _ hi => hi.resolve_left (by simp [DescribedBy])⟩
  | case2 types1 => exact ⟨h1, le_refl _, fun i _ hi => hi.resolve_right (by simp [DescribedBy])⟩
  | case3 t1 types1 t2 types2 hlt ih =>
    obtain ⟨hwf, hlength, hall⟩ := ih h1.tail h2
    refine ⟨hwf.cons (h1.2 t1 mem_cons_self) ?_, Nat.succ_le_succ hlength, ?_⟩
    · intro u hu
      obtain ⟨v, hv, hcls⟩ := unionLists_cls hu
      rw [hcls]
      rcases hv with hv | hv
      · exact rel_of_pairwise_cons h1.1 hv
      · exact h2.lt_cls hlt v hv
    · intro i hi hdescribed
      rw [describedBy_cons] at hdescribed ⊢
      rcases hdescribed with (ht1 | hrest) | h2'
      · exact .inl ht1
      · exact .inr (hall i hi (.inl hrest))
      · exact .inr (hall i hi (.inr h2'))
  | case4 t1 types1 t2 types2 _ hgt ih =>
    obtain ⟨hwf, hlength, hall⟩ := ih h1 h2.tail
    refine ⟨hwf.cons (h2.2 t2 mem_cons_self) ?_, hlength.trans (Nat.le_succ _), ?_⟩
    · intro u hu
      obtain ⟨v, hv, hcls⟩ := unionLists_cls hu
      rw [hcls]
      rcases hv with hv | hv
      · exact h1.lt_cls hgt v hv
      · exact rel_of_pairwise_cons h2.1 hv
    · intro i hi hdescribed
      rw [describedBy_cons (t := t2)] at hdescribed ⊢
      rcases hdescribed with h1' | ht2 | hrest
      · exact .inr (hall i hi (.inl h1'))
      · exact .inl ht2
      · exact .inr (hall i hi (.inr hrest))
  | case5 t1 types1 t2 types2 hnlt hngt ih =>
    obtain ⟨hwf, hlength, hall⟩ := ih h1.tail h2.tail
    have hcls : t1.cls = t2.cls := by omega
    have ht1 := h1.2 t1 mem_cons_self
    have ht2 := h2.2 t2 mem_cons_self
    -- the merged type has the class of both and describes the instances of both
    have hmerged : ∃ m, (if h.concreteEq t1 t2 then t1 else t1.raw) = m ∧ m.WellFormed w ∧
        m.cls = t1.cls ∧ ∀ i, w.HasInstance i → t1.describes i ∨ t2.describes i →
          m.describes i := by
      by_cases heq : h.concreteEq t1 t2 = true
      · refine ⟨t1, if_pos heq, ht1, rfl, fun i hi hdescribed => ?_⟩
        rcases hdescribed with hd | hd
        · exact hd
        · exact (sameData_of_concreteEq ht1 ht2 heq).symm.describes ht2 ht1 hi hd
      · refine ⟨t1.raw, if_neg heq, .raw t1, rfl, fun i _ hdescribed => ?_⟩
        rcases hdescribed with hd | hd
        · exact hd.raw
        · exact ⟨hd.1.trans hcls.symm, nofun, nofun⟩
    obtain ⟨m, hm, hmwf, hmcls, hmall⟩ := hmerged
    rw [hm]
    refine ⟨hwf.cons hmwf ?_, Nat.succ_le_succ hlength, ?_⟩
    · intro u hu
      obtain ⟨v, hv, hucls⟩ := unionLists_cls hu
      rw [hucls, hmcls]
      rcases hv with hv | hv
      · exact rel_of_pairwise_cons h1.1 hv
      · rw [hcls]
        exact rel_of_pairwise_cons h2.1 hv
    · intro i hi hdescribed
      rw [describedBy_cons] at hdescribed ⊢
      rw [describedBy_cons] at hdescribed
      rcases hdescribed with (hd | hd) | hd | hd
      · exact .inl (hmall i hi (.inl hd))
      · exact .inr (hall i hi (.inl hd))
      · exact .inl (hmall i hi (.inr hd))
      · exact .inr (hall i hi (.inr hd))

theorem intersectLists_spec (h1 : WellFormedList w types1) (h2 : WellFormedList w types2) :
    ∃ types, intersectLists h types1 types2 = .ok types ∧ WellFormedList w types ∧
      (∀ t ∈ types, ∃ u ∈ types1, t.cls = u.cls) ∧
      ∀ i, w.HasInstance i → DescribedBy types1 i → DescribedBy types2 i →
        DescribedBy types i := by
  fun_induction intersectLists h types1 types2 with
  | case1 types2 => exact ⟨[], rfl, h1, nofun, fun i _ hi _ => hi⟩
  | case2 types1 => exact ⟨[], rfl, h2, nofun, fun i _ _ hi => hi⟩
  | case3 t1 types1 t2 types2 hlt ih =>
    obtain ⟨types, hok, hwf, hcls, hall⟩ := ih h1.tail h2
    refine ⟨types, hok, hwf, fun t ht => ?_, fun i hi hd1 hd2 => ?_⟩
    · obtain ⟨u, hu, heq⟩ := hcls t ht
      exact ⟨u, mem_cons_of_mem _ hu, heq⟩
    · rcases describedBy_cons.1 hd1 with hd | hd
      · exact absurd hd2 (not_describedBy (h2.lt_cls hlt) hd.1)
      · exact hall i hi hd hd2
  | case4 t1 types1 t2 types2 _ hgt ih =>
    obtain ⟨types, hok, hwf, hcls, hall⟩ := ih h1 h2.tail
    refine ⟨types, hok, hwf, hcls, fun i hi hd1 hd2 => ?_⟩
    rcases describedBy_cons.1 hd2 with hd | hd
    · exact absurd hd1 (not_describedBy (h1.lt_cls hgt) hd.1)
    · exact hall i hi hd1 hd
  | case5 t1 types1 t2 types2 hnlt hngt hraw ih =>
    obtain ⟨types, hok, hwf, hclasses, hall⟩ := ih h1.tail h2.tail
    have hcls : t1.cls = t2.cls := by omega
    obtain ⟨type, hcast, hspec⟩ := intersect_front h1 h2 hcls
      (.inr ⟨t1, rfl, h1.2 t1 mem_cons_self, rfl, hcls, fun _ _ hi _ => hi⟩) hwf hclasses
      hall
    cases hcast
    exact ⟨t1 :: types, by rw [hok]; rfl, hspec⟩
  | case6 t1 types1 t2 types2 hnlt hngt hraw ih =>
    obtain ⟨types, hok, hwf, hclasses, hall⟩ := ih h1.tail h2.tail
    obtain ⟨r, hr, hresult⟩ :=
      concrete_intersection (h1.2 t1 mem_cons_self) (h2.2 t2 mem_cons_self)
    obtain ⟨type, hcast, hspec⟩ := intersect_front h1 h2 (by omega) hresult hwf hclasses hall
    refine ⟨type.toList ++ types, ?_, hspec⟩
    rw [hr]
    change (castConcrete r).bind _ = _
    rw [hcast]
    change (intersectLists h types1 types2).bind _ = _
    rw [hok]
    rfl

theorem intersectConcrete_spec {other : ConcreteType ρ κ} (hother : other.WellFormed w)
    (hwf : WellFormedList w types) :
    ∃ r, intersectConcrete h other types = .ok r ∧ r.WellFormed w ∧ r.isNullable = false ∧
      ∀ i, w.HasInstance i → DescribedBy types i → other.describes i →
        r.describes h (.object i) := by
  induction types with
  | nil => exact ⟨.empty, rfl, trivial, rfl, fun i _ hi => by simp [DescribedBy] at hi⟩
  | cons t types ih =>
    rw [intersectConcrete]
    by_cases heq : h.concreteEq t other = true
    · rw [if_pos heq]
      exact ⟨_, rfl, hother, rfl, fun i _ _ hi => ⟨i, rfl, hi⟩⟩
    rw [if_neg heq]
    by_cases hcls : t.cls = other.cls
    · rw [if_pos hcls]
      obtain ⟨r, hr, hresult⟩ := concrete_intersection (hwf.2 t mem_cons_self) hother
      -- no other element has the class
      have hfirst : ∀ i, DescribedBy (t :: types) i → other.describes i → t.describes i := by
        intro i hi hio
        rcases describedBy_cons.1 hi with hi | hi
        · exact hi
        · exact absurd hi (not_describedBy
            (fun u hu => rel_of_pairwise_cons hwf.1 hu) (hio.1.trans hcls.symm))
      rcases hresult with ⟨rfl, hempty⟩ | ⟨m, rfl, hmwf, -, -, hm⟩
      · exact ⟨.empty, hr, trivial, rfl, fun i hi hd hio =>
          absurd hio (hempty i hi (hfirst i hd hio))⟩
      · exact ⟨.concrete m, hr, hmwf, rfl, fun i hi hd hio =>
          ⟨i, rfl, hm i hi (hfirst i hd hio) hio⟩⟩
    · rw [if_neg hcls]
      obtain ⟨r, hr, hrwf, hnull, hall⟩ := ih hwf.tail
      refine ⟨r, hr, hrwf, hnull, fun i hi hd hio => hall i hi ?_ hio⟩
      rcases describedBy_cons.1 hd with hd | hd
      · exact absurd (hd.1.symm.trans hio.1) hcls
      · exact hd

end Operations

end Dart2Wasm.TypeFlow
