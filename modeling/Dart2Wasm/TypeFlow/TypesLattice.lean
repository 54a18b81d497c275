import Dart2Wasm.TypeFlow.TypesSound

/-!
# TypesLattice — every combination of types

`union_sound` and `intersection_sound` follow the dispatch of the operations, one case for each way
through it. A call that is handed over to the argument is the same statement with the types swapped;
a cone that is specialized loses no value that exists.
-/

namespace Dart2Wasm.TypeFlow

open FlowType

variable {ρ κ : Type} {h : TypeHierarchy ρ κ} {w : World h}
variable {a b r : FlowType ρ κ} {c : Nat} {t : ConcreteType ρ κ} {types : TypeSet ρ κ}

/-! ## Inclusion -/

/-- Every value of `a` that exists is described by `b`. -/
def Included (w : World h) (a b : FlowType ρ κ) : Prop :=
  ∀ v, w.HasValue v → a.describes h v → b.describes h v

theorem not_describes_null (ha : a.isNullable = false) : ¬ a.describes h .null := by
  cases a <;> simp_all [describes, isNullable]

theorem included_any (ha : a.isNullable = false) : Included w a .any := by
  rintro v - hv rfl
  exact not_describes_null ha hv

theorem included_cone {d : Nat} (hcd : h.isSubtype c d = true) :
    Included w (.cone c) (.cone d) := by
  rintro v - ⟨i, rfl, hi⟩
  exact ⟨i, rfl, h.isSubtype_trans hi hcd⟩

theorem concrete_included_cone
    (ht : h.isSubtype t.cls c = true) : Included w (.concrete t) (.cone c) := by
  rintro v - ⟨i, rfl, hi⟩
  exact ⟨i, rfl, by rw [hi.1]; exact ht⟩

theorem set_included_cone
    (htypes : ∀ t ∈ types, h.isSubtype t.cls c = true) : Included w (.set types) (.cone c) := by
  rintro v - ⟨i, rfl, t, ht, hi⟩
  exact ⟨i, rfl, by rw [hi.1]; exact htypes t ht⟩

/-- Types that describe only objects are compared on instances. -/
theorem set_included
    (hall : ∀ i, w.HasInstance i → DescribedBy types i → b.describes h (.object i)) :
    Included w (.set types) b := by
  rintro v hv ⟨i, rfl, hi⟩
  exact hall i hv hi

theorem concrete_included
    (hall : ∀ i, w.HasInstance i → t.describes i → b.describes h (.object i)) :
    Included w (.concrete t) b := by
  rintro v hv ⟨i, rfl, hi⟩
  exact hall i hv hi

theorem cone_included_specialization (hs : w.Specializes) (c : Nat) :
    Included w (.cone c) (h.specializeTypeCone c) := by
  rintro v hv ⟨i, rfl, hi⟩
  exact hs.contains c i hv hi

theorem specialization_not_nullable (c : Nat) : (h.specializeTypeCone c).isNullable = false := by
  have hkind := h.specializeTypeCone_kind c
  cases hspec : h.specializeTypeCone c <;>
    simp_all [isSpecialization, isNullable]

/-! ## Union -/

/-- What a union has to be. -/
structure UnionOf (w : World h) (a b r : FlowType ρ κ) : Prop where
  wellFormed : r.WellFormed w
  nullable : r.isNullable = (a.isNullable || b.isNullable)
  left : Included w a r
  right : Included w b r

theorem UnionOf.symm (hr : UnionOf w a b r) : UnionOf w b a r :=
  ⟨hr.wellFormed, by rw [hr.nullable, Bool.or_comm], hr.right, hr.left⟩

variable {a b b : FlowType ρ κ}

theorem UnionOf.of_included (ha : a.WellFormed w)
    (hnull : b.isNullable = false) (hba : Included w b a) : UnionOf w a b a :=
  ⟨ha, by rw [hnull, Bool.or_false], fun _ _ hv => hv, hba⟩

theorem UnionOf.of_any (ha : a.isNullable = false)
    (hb : b.isNullable = false) : UnionOf w a b .any :=
  ⟨trivial, by rw [ha, hb]; rfl, included_any ha, included_any hb⟩

/-- A cone may be replaced by its specialization. -/
theorem UnionOf.of_specialization (hs : w.Specializes)
    (hr : UnionOf w (h.specializeTypeCone c) b r) : UnionOf w (.cone c) b r :=
  ⟨hr.wellFormed, by rw [hr.nullable, specialization_not_nullable]; rfl,
    fun v hv hd => hr.left v hv (cone_included_specialization hs c v hv hd), hr.right⟩

theorem not_nullable_of_order
    (hb : ¬ b.order < (FlowType.any : FlowType ρ κ).order) : b.isNullable = false := by
  cases b with
  | nullable baseType => exact absurd (Nat.lt_succ_self 3) hb
  | _ => rfl

theorem unionLists_unionOf [DecidableEq ρ] [DecidableEq κ] {otherTypes : TypeSet ρ κ}
    (ht : 2 ≤ types.length ∧ WellFormedList w types) (ho : WellFormedList w otherTypes) :
    UnionOf w (.set types) (.set otherTypes) (.set (unionLists h types otherTypes)) := by
  obtain ⟨hwf, hlength, hall⟩ := unionLists_spec ht.2 ho
  exact ⟨⟨ht.1.trans hlength, hwf⟩, rfl,
    set_included fun i hi hd => ⟨i, rfl, hall i hi (Or.inl hd)⟩,
    set_included fun i hi hd => ⟨i, rfl, hall i hi (Or.inr hd)⟩⟩

theorem isSubList_included {sublist list : TypeSet ρ κ}
    (hsub : isSubList h sublist list = true) : Included w (.set sublist) (.set list) := by
  rintro v - ⟨i, rfl, t, ht, hi⟩
  exact ⟨i, rfl, t, isSubList_mem hsub t ht, hi⟩

theorem pair_unionOf {u : ConcreteType ρ κ} (ht : t.WellFormed w) (hu : u.WellFormed w)
    (hcls : t.cls ≠ u.cls) :
    UnionOf w (.concrete t) (.concrete u)
      (.set (if t.cls < u.cls then [t, u] else [u, t])) := by
  have hwf : WellFormedList w (if t.cls < u.cls then [t, u] else [u, t]) := by
    split
    · exact ⟨by simpa, by simp [ht, hu]⟩
    · exact ⟨by simp; omega, by simp [ht, hu]⟩
  have hmem : ∀ r, r ∈ (if t.cls < u.cls then [t, u] else [u, t]) ↔ r = t ∨ r = u := by
    intro r
    split <;> simp [or_comm]
  refine ⟨⟨by split <;> simp, hwf⟩, rfl, ?_, ?_⟩
  · exact concrete_included fun i _ hd => ⟨i, rfl, t, (hmem t).2 (Or.inl rfl), hd⟩
  · exact concrete_included fun i _ hd => ⟨i, rfl, u, (hmem u).2 (Or.inr rfl), hd⟩

theorem union_sound [DecidableEq ρ] [DecidableEq κ] (hs : w.Specializes) (ha : a.WellFormed w)
    (hb : b.WellFormed w) : ∃ r, a.union h b = .ok r ∧ UnionOf w a b r := by
  fun_induction union h a b with
  | case1 b => exact ⟨b, rfl, hb, rfl, fun _ _ hd => hd.elim, fun _ _ hv => hv⟩
  -- the call with the operands the other way round
  | case2 _ _ _ ih | case5 _ _ ih | case8 _ _ _ _ ih | case22 _ _ _ _ ih | case32 _ _ _ _ ih
  | case40 _ _ _ ih =>
    obtain ⟨r, hr, hunion⟩ := ih hb ha
    exact ⟨r, hr, hunion.symm⟩
  | case3 baseType otherBaseType _ ih =>
    obtain ⟨r, hr, hunion⟩ := ih ha.1 hb.1
    refine ⟨.nullable r, by rw [hr]; rfl, ⟨hunion.wellFormed, ?_⟩, rfl, ?_, ?_⟩
    · rw [hunion.nullable, ha.2, hb.2]
      rfl
    · exact fun v hv hd => hd.imp_right (hunion.left v hv)
    · exact fun v hv hd => hd.imp_right (hunion.right v hv)
  | case4 b baseType _ hnotNullable ih =>
    have hnull : b.isNullable = false := by
      cases b with
      | nullable otherBaseType => exact (hnotNullable otherBaseType rfl).elim
      | _ => rfl
    obtain ⟨r, hr, hunion⟩ := ih ha.1 hb
    refine ⟨.nullable r, by rw [hr]; rfl, ⟨hunion.wellFormed, ?_⟩, rfl, ?_, ?_⟩
    · rw [hunion.nullable, ha.2, hnull]
      rfl
    · exact fun v hv hd => hd.imp_right (hunion.left v hv)
    · exact fun v hv hd => Or.inr (hunion.right v hv hd)
  | case6 b horder =>
    have hnull := not_nullable_of_order horder
    exact ⟨.any, rfl, .of_included trivial hnull (included_any hnull)⟩
  | case7 _ _ hidentical | case21 _ _ hidentical | case31 _ _ hidentical =>
    obtain rfl := h.identical_eq _ _ hidentical
    exact ⟨_, rfl, .of_included ha rfl fun _ _ hv => hv⟩
  | case9 c d hsub => exact ⟨_, rfl, .of_included ha rfl (included_cone hsub)⟩
  | case10 _ _ _ hsup | case13 _ _ _ hsup =>
    exact ⟨_, rfl, trivial, rfl, included_cone hsup, fun _ _ hv => hv⟩
  | case11 | case14 | case17 | case19 => exact ⟨_, rfl, .of_any rfl rfl⟩
  | case12 c d hsub => exact ⟨_, rfl, .of_included ha rfl (included_cone hsub)⟩
  | case15 _ _ hsub | case37 _ _ hsub =>
    exact ⟨_, rfl, .of_included ha rfl (concrete_included_cone hsub)⟩
  | case16 c t _ hsup =>
    exact ⟨_, rfl, trivial, rfl, included_cone hsup,
      concrete_included_cone (by simp [TypeHierarchy.isSubtype])⟩
  | case18 c types hall =>
    exact ⟨_, rfl, .of_included ha rfl (set_included_cone (List.all_eq_true.1 hall))⟩
  | case20 b | case30 b =>
    cases b <;> simp_all [order]
  | case23 types otherTypes _ hsub =>
    exact ⟨_, rfl, .of_included ha rfl (isSubList_included hsub)⟩
  | case24 | case26 => exact ⟨_, rfl, unionLists_unionOf ha hb.2⟩
  | case25 types otherTypes _ hsub =>
    exact ⟨_, rfl, (UnionOf.of_included hb rfl (isSubList_included hsub)).symm⟩
  | case27 types t hany =>
    obtain ⟨u, hu, heq⟩ := List.any_eq_true.1 hany
    refine ⟨_, rfl, .of_included ha rfl (concrete_included fun i hi hd => ⟨i, rfl, u, hu, ?_⟩)⟩
    have hwf := ha.2.2 u hu
    exact (sameData_of_concreteEq hwf hb heq).symm.describes hb hwf hi hd
  | case28 types t =>
    have hone : WellFormedList w [t] :=
      ⟨List.pairwise_singleton _ _, fun u hu => by rwa [List.mem_singleton.1 hu]⟩
    have hunion := unionLists_unionOf ha hone
    refine ⟨_, rfl, hunion.wellFormed, rfl, hunion.left, concrete_included fun i hi hd => ?_⟩
    exact hunion.right _ hi ⟨i, rfl, t, List.mem_singleton_self t, hd⟩
  | case29 types c _ _ ih =>
    obtain ⟨r, hr, hunion⟩ := ih (hs.wellFormed c) ha
    exact ⟨r, hr, (hunion.of_specialization hs).symm⟩
  | case33 c => exact ⟨_, rfl, .of_included ha rfl fun _ _ hv => hv⟩
  | case34 c d _ hsub => exact ⟨_, rfl, .of_included ha rfl (included_cone hsub)⟩
  | case35 c d _ _ hsup =>
    exact ⟨_, rfl, (UnionOf.of_included hb rfl (included_cone hsup)).symm⟩
  | case36 c _ _ _ _ _ _ ih | case38 c _ _ _ _ ih | case39 c _ _ _ _ _ ih =>
    obtain ⟨r, hr, hunion⟩ := ih (hs.wellFormed c) hb
    exact ⟨r, hr, hunion.of_specialization hs⟩
  | case41 t u heq =>
    refine ⟨_, rfl, .of_included ha rfl (concrete_included fun i hi hd => ⟨i, rfl, ?_⟩)⟩
    exact (sameData_of_concreteEq ha hb heq).symm.describes hb ha hi hd
  | case42 t u _ hcls => exact ⟨_, rfl, pair_unionOf ha hb hcls⟩
  | case43 t u _ hcls =>
    have hsame := not_not.1 hcls
    refine ⟨_, rfl, ConcreteType.WellFormed.raw t, rfl,
      concrete_included fun i _ hd => ⟨i, rfl, hd.raw⟩,
      concrete_included fun i _ hd =>
        ⟨i, rfl, hd.1.trans hsame.symm, by rintro _ ⟨⟩, by rintro _ ⟨⟩⟩⟩
  | case44 b t horder hconcrete => cases b <;> simp_all [order]

/-! ## Intersection -/

/-- What an intersection has to be. -/
structure IntersectionOf (w : World h) (a b r : FlowType ρ κ) : Prop where
  wellFormed : r.WellFormed w
  nullable : r.isNullable = true → a.isNullable = true ∧ b.isNullable = true
  both : ∀ v, w.HasValue v → a.describes h v → b.describes h v → r.describes h v

theorem IntersectionOf.symm {a : FlowType ρ κ} (hr : IntersectionOf w a b r) :
    IntersectionOf w b a r :=
  ⟨hr.wellFormed, fun hn => (hr.nullable hn).symm, fun v hv hb ha => hr.both v hv ha hb⟩

/-- Returning one of the types over-approximates. -/
theorem IntersectionOf.of_left (ha : a.WellFormed w)
    (hnull : a.isNullable = false) : IntersectionOf w a b a :=
  ⟨ha, fun hn => Bool.noConfusion (hnull.symm.trans hn), fun _ _ hv _ => hv⟩

theorem IntersectionOf.of_right (hb : b.WellFormed w)
    (hnull : b.isNullable = false) : IntersectionOf w a b b :=
  (IntersectionOf.of_left hb hnull).symm

theorem IntersectionOf.of_specialization (hs : w.Specializes)
    (hr : IntersectionOf w (h.specializeTypeCone c) b r) : IntersectionOf w (.cone c) b r :=
  ⟨hr.wellFormed,
    fun hn => Bool.noConfusion ((specialization_not_nullable c).symm.trans (hr.nullable hn).1),
    fun v hv ha hb => hr.both v hv (cone_included_specialization hs c v hv ha) hb⟩

/-- An instance of a class is in a cone only if the class is. -/
theorem disjoint_cone (ht : ¬ h.isSubtype t.cls c = true) {a : FlowType ρ κ}
    (ha : Included w a (.cone c)) : IntersectionOf w a (.concrete t) .empty := by
  refine ⟨trivial, nofun, fun v hv hva hvb => ?_⟩
  obtain ⟨i, rfl, hi⟩ := ha v hv hva
  obtain ⟨j, hj, hdescribes⟩ := hvb
  cases hj
  rw [hdescribes.1] at hi
  exact ht hi

theorem intersection_sound [DecidableEq ρ] [DecidableEq κ] (hs : w.Specializes)
    (ha : a.WellFormed w)
    (hb : b.WellFormed w) : ∃ r, a.intersection h b = .ok r ∧ IntersectionOf w a b r := by
  fun_induction intersection h a b with
  | case1 b => exact ⟨_, rfl, .of_left trivial rfl⟩
  -- the call with the operands the other way round
  | case2 _ _ _ ih | case5 _ _ ih | case8 _ _ _ _ ih | case18 _ _ _ _ ih | case24 _ _ _ _ ih
  | case32 _ _ _ ih =>
    obtain ⟨r, hr, hinter⟩ := ih hb ha
    exact ⟨r, hr, hinter.symm⟩
  | case3 baseType otherBaseType _ ih =>
    obtain ⟨r, hr, hinter⟩ := ih ha.1 hb.1
    refine ⟨.nullable r, by rw [hr]; rfl, ⟨hinter.wellFormed, ?_⟩, fun _ => ⟨rfl, rfl⟩, ?_⟩
    · cases hnull : r.isNullable with
      | false => rfl
      | true =>
        have hbase := (hinter.nullable hnull).1
        rw [ha.2] at hbase
        cases hbase
    · rintro v hv (rfl | hva) hvb
      · exact Or.inl rfl
      · exact hvb.imp_right (hinter.both v hv hva)
  | case4 b baseType _ hnotNullable ih =>
    have hnull : b.isNullable = false := by
      cases b with
      | nullable otherBaseType => exact (hnotNullable otherBaseType rfl).elim
      | _ => rfl
    obtain ⟨r, hr, hinter⟩ := ih ha.1 hb
    refine ⟨r, hr, hinter.wellFormed, fun hn => ⟨rfl, (hinter.nullable hn).2⟩, ?_⟩
    rintro v hv (rfl | hva) hvb
    · exact absurd hvb (not_describes_null hnull)
    · exact hinter.both v hv hva hvb
  | case6 b horder =>
    exact ⟨_, rfl, .of_right hb (not_nullable_of_order horder)⟩
  | case7 | case10 | case12 | case17 | case23 | case25 | case27 => exact ⟨_, rfl, .of_left ha rfl⟩
  | case9 | case11 | case13 | case15 | case26 | case29 => exact ⟨_, rfl, .of_right hb rfl⟩
  | case14 _ _ hsub | case30 _ _ hsub => exact ⟨_, rfl, disjoint_cone hsub fun _ _ hv => hv⟩
  | case16 b | case22 b =>
    cases b <;> simp_all [order]
  | case19 types otherTypes =>
    obtain ⟨list, hok, hwf, -, hall⟩ := intersectLists_spec ha.2 hb.2
    obtain ⟨hresult, hnull, hdescribes⟩ := ofList_spec hwf
    refine ⟨_, by rw [hok]; rfl, hresult, fun hn => Bool.noConfusion (hnull.symm.trans hn), ?_⟩
    rintro v hv ⟨i, rfl, hi⟩ ⟨j, hj, hj'⟩
    cases hj
    exact hdescribes i (hall i hv hi hj')
  | case20 types t =>
    obtain ⟨r, hok, hresult, hnull, hall⟩ := intersectConcrete_spec hb ha.2
    refine ⟨r, hok, hresult, fun hn => Bool.noConfusion (hnull.symm.trans hn), ?_⟩
    rintro v hv ⟨i, rfl, hi⟩ ⟨j, hj, hj'⟩
    cases hj
    exact hall i hv hi hj'
  | case21 types c _ _ ih =>
    obtain ⟨r, hr, hinter⟩ := ih (hs.wellFormed c) ha
    exact ⟨r, hr, (hinter.of_specialization hs).symm⟩
  | case28 c _ _ _ _ _ _ ih | case31 c _ _ _ _ _ ih =>
    obtain ⟨r, hr, hinter⟩ := ih (hs.wellFormed c) hb
    exact ⟨r, hr, hinter.of_specialization hs⟩
  | case33 t u =>
    obtain ⟨r, hr, hresult⟩ := concrete_intersection ha hb
    rcases hresult with ⟨rfl, hempty⟩ | ⟨m, rfl, hwf, -, -, hm⟩
    · refine ⟨_, hr, trivial, nofun, ?_⟩
      rintro v hv ⟨i, rfl, hi⟩ ⟨j, hj, hj'⟩
      cases hj
      exact hempty i hv hi hj'
    · refine ⟨_, hr, hwf, nofun, ?_⟩
      rintro v hv ⟨i, rfl, hi⟩ ⟨j, hj, hj'⟩
      cases hj
      exact ⟨i, rfl, hm i hv hi hj'⟩
  | case34 b t horder hconcrete => cases b <;> simp_all [order]

end Dart2Wasm.TypeFlow
