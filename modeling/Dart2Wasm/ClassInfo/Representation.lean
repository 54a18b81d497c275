import Dart2Wasm.ClassInfo.Collector
import Mathlib

/-!
# ClassInfo.Representation — which subtypes the representation types cover

The representation type of a class is the struct used for variables of that class, so it has to be
above every class whose instances such a variable can hold. `Covers` says so for a whole program.
The collector records a class with the interfaces it names and with what is above them in the Wasm
hierarchy, but not with the interfaces of its interfaces; `Hierarchy.InterfacesCovered` is exactly
what is needed to make up for that.
-/

namespace Dart2Wasm.ClassInfoCollector

open Relation

variable {H : Hierarchy} {st : ClassInfoCollector H}

/-- For all `c` and `j` such that `c` is a Dart subtype of `j`, the representation of `j` is the
info of `c` or one of its ancestors. -/
def Covers (st : ClassInfoCollector H) (fuel : Nat) : Prop :=
  ∀ c j, H.Subtype c j → ∃ kc kj r, st.classInfo c = some kc ∧ st.classInfo j = some kj ∧
    st.computeRepresentation fuel kj = some r ∧ r.AboveEq kc

/-! ## Depths -/

theorem Consistent.depth_eq (h : Consistent st) {c : H.Cls} {k : ClassInfo H.Cls} {d : Nat}
    (hd : H.HasDepth c d) (hc : st.classInfo c = some k) : k.depth = d := by
  induction hd generalizing k with
  | one hp =>
    rcases h.info_eq _ k hc with ⟨id, s, rfl, ⟨-, rfl⟩ | ⟨p, hp', -⟩⟩
    · rfl
    · rw [hp] at hp'
      cases hp'
  | succ hp _ ih =>
    rcases h.info_eq _ k hc with ⟨id, s, rfl, ⟨hp', -⟩ | ⟨p, hp', hps⟩⟩
    · rw [hp] at hp'
      cases hp'
    · have heq := Option.some.inj (hp.symm.trans hp')
      subst heq
      exact congrArg Nat.succ (ih hps)

theorem exists_depth_bound (H : Hierarchy) : ∃ D, ∀ st : ClassInfoCollector H, Consistent st →
    ∀ k ∈ st.classes, k.depth < D := by
  choose depth hdepth using fun c : H.Cls => Hierarchy.exists_hasDepth c
  refine ⟨Finset.univ.sup depth + 1, ?_⟩
  intro st h k hk
  rcases (h.mem_classes k).1 hk with rfl | ⟨c, hc⟩
  · exact Nat.succ_pos _
  · rw [h.depth_eq (hdepth c) hc]
    exact Nat.lt_succ_of_le (Finset.le_sup (Finset.mem_univ c))

/-! ## Representations -/

/-- The representation is the deepest info above everything recorded. -/
theorem Consistent.computeRepresentation_spec (h : Consistent st) {D fuel : Nat}
    (hD : ∀ k ∈ st.classes, k.depth < D) (hfuel : D ≤ fuel) {k : ClassInfo H.Cls}
    (hk : k ∈ st.classes) :
    ∃ r, st.computeRepresentation fuel k = some r ∧ (∀ y ∈ st.implementedBy k, r.AboveEq y) ∧
      (r.depth ≤ 999999999 ∨ st.implementedBy k = [k]) ∧
      ∀ a : ClassInfo H.Cls, (∀ y ∈ st.implementedBy k, a.AboveEq y) → a.depth ≤ 999999999 →
        a.AboveEq r := by
  rcases h.head_implementedBy k hk with ⟨rest, hhead, hrest⟩
  have hmem : ∀ y ∈ st.implementedBy k, y ∈ st.classes := by
    intro y hy
    rw [hhead] at hy
    rcases List.mem_cons.1 hy with rfl | hy
    · exact hk
    · exact (hrest y hy).2
  have hdistinct : 1 < (st.implementedBy k).length →
      ∃ x ∈ st.implementedBy k, ∃ y ∈ st.implementedBy k, x ≠ y := by
    intro hlen
    rw [hhead] at hlen ⊢
    cases rest with
    | nil => simp at hlen
    | cons y rest => exact ⟨k, by simp, y, by simp, Ne.symm (hrest y (by simp)).1⟩
  rcases ClassInfo.upperBound_spec (by simp [hhead]) hdistinct (fun y hy => hD y (hmem y hy)) hfuel
    with ⟨r, hr, habove, hcap, hdeepest⟩
  refine ⟨r, hr, habove, ?_, fun a ha hcap => hdeepest a ha (.inl hcap)⟩
  rcases hcap with hcap | hlen
  · exact .inl hcap
  · rw [hhead] at hlen ⊢
    have hnil : rest = [] := by simpa using hlen
    exact .inr (by rw [hnil])

section Covering

variable {D fuel : Nat} (h : Consistent st) (hall : ∀ c, ∃ k, st.classInfo c = some k)
  (hD : ∀ k ∈ st.classes, k.depth < D) (hfuel : D ≤ fuel)

include h hall hD hfuel

theorem covers_of_interfacesCovered (hcov : H.InterfacesCovered) : Covers st fuel := by
  intro c j hsub
  rcases hall c with ⟨kc, hc⟩
  rcases hall j with ⟨kj, hj⟩
  have hmem : kj ∈ st.classes := (h.mem_classes kj).2 (.inr ⟨j, hj⟩)
  rcases h.computeRepresentation_spec hD hfuel hmem with ⟨r, hr, habove, hcap, -⟩
  refine ⟨kc, kj, r, hc, hj, hr, ?_⟩
  by_cases hroot : H.IsRoot j
  · -- `#Top` is recorded for a root, so the representation is `#Top`.
    have htop : r = .top :=
      habove .top ((h.mem_implementedBy j kj hj .top).2 (.inr (.inl ⟨hroot, rfl⟩)))
    exact htop ▸ ClassInfo.top_aboveEq kc
  rcases hsub.path hroot with ⟨n, hpath⟩
  have hself : r.AboveEq kj := habove kj ((h.mem_implementedBy j kj hj kj).2 (.inl rfl))
  rcases (h.aboveEq_iff hj).1 hself with htop | ⟨a, ha, haj⟩
  · exact htop ▸ ClassInfo.top_aboveEq kc
  rw [h.above_iff ha hc]
  rcases hcap with hcap | hone
  · refine hcov.above_of_path hpath hroot ⟨?_, ?_⟩
    · rcases Hierarchy.exists_hasDepth a with ⟨d, hd⟩
      exact ⟨d, h.depth_eq hd ha ▸ hcap, hd⟩
    · rintro y (rfl | ⟨k, hk, habovek⟩)
      · exact haj
      · rcases hall y with ⟨ky, hy⟩
        have hrec : ky ∈ st.implementedBy kj :=
          (h.mem_implementedBy j kj hj ky).2 (.inr (.inr ⟨y, k, hy, hk, habovek⟩))
        exact (h.above_iff ha hy).1 (habove ky hrec)
  · -- Nothing implements `j` or a class below it, so the subtype is a subclass.
    have hn : n = 0 := by
      by_contra hn
      rcases hpath.last hn with ⟨y, k, hk, habovek⟩
      rcases hall y with ⟨ky, hy⟩
      have hrec : ky ∈ st.implementedBy kj :=
        (h.mem_implementedBy j kj hj ky).2 (.inr (.inr ⟨y, k, hy, hk, habovek⟩))
      have hkj : ky = kj := by simpa [hone] using hrec
      have hyj : y = j := h.cls_injective hy (hkj ▸ hj)
      exact not_above_interface (hyj ▸ hk) habovek
    exact haj.trans (hpath.above hn)

theorem interfacesCovered_of_covers (hcov : Covers st fuel) : H.InterfacesCovered := by
  intro c i x j hci hxi hxj hroot a hcommon
  have hsub : H.Subtype c j := ReflTransGen.head (.inr hci) (hxi.subtype.tail (.inr hxj))
  rcases hcov c j hsub with ⟨kc, kj, r, hc, hj, hr, hrc⟩
  have hmem : kj ∈ st.classes := (h.mem_classes kj).2 (.inr ⟨j, hj⟩)
  rcases h.computeRepresentation_spec hD hfuel hmem with ⟨r', hr', -, -, hdeepest⟩
  have hrr : r = r' := Option.some.inj (hr.symm.trans hr')
  subst hrr
  rcases hall a with ⟨ka, ha⟩
  have hka : ∀ y ∈ st.implementedBy kj, ka.AboveEq y := by
    intro y hy
    rcases (h.mem_implementedBy j kj hj y).1 hy with rfl | ⟨hr, -⟩ | ⟨d, k, hd, hk, habove⟩
    · exact (h.above_iff ha hj).2 (hcommon.2 j (.inl rfl))
    · exact absurd hr hroot
    · exact (h.above_iff ha hd).2 (hcommon.2 d (.inr ⟨k, hk, habove⟩))
  rcases hcommon.1 with ⟨d, hd, hdepth⟩
  have hkr : ka.AboveEq r := hdeepest ka hka (h.depth_eq hdepth ha ▸ hd)
  exact (h.above_iff ha hc).1 (ClassInfo.aboveEq_trans hkr hrc)

end Covering

/-- With enough fuel, the class infos and all representations are computed, which cover all Dart
subtypes exactly if the interfaces of interfaces are covered. -/
theorem collect_covers_iff (H : Hierarchy) :
    ∃ fuel₀, ∀ fuel ≥ fuel₀, ∃ st, collect H fuel = some st ∧
      (∀ k ∈ st.classes, ∃ r, st.computeRepresentation fuel k = some r) ∧
      (Covers st fuel ↔ H.InterfacesCovered) := by
  rcases collect_spec H with ⟨fuel₁, hcollect⟩
  rcases exists_depth_bound H with ⟨D, hbound⟩
  refine ⟨max fuel₁ D, ?_⟩
  intro fuel hfuel
  rcases hcollect fuel (Nat.le_trans (Nat.le_max_left _ _) hfuel) with ⟨st, hrun, h, hall⟩
  have hD := hbound st h
  have hle : D ≤ fuel := Nat.le_trans (Nat.le_max_right _ _) hfuel
  refine ⟨st, hrun, ?_, ?_, ?_⟩
  · intro k hk
    rcases h.computeRepresentation_spec hD hle hk with ⟨r, hr, -⟩
    exact ⟨r, hr⟩
  · exact interfacesCovered_of_covers h hall hD hle
  · exact covers_of_interfacesCovered h hall hD hle

/-! ## An interface of an interface -/

theorem acyclic_of_lt {n : Nat} {node : Fin n → ClassNode n}
    (h : ∀ c d, DirectSuper node c d → d < c) (c : Fin n) : ¬ TransGen (DirectSuper node) c c := by
  have hlt : ∀ {a b : Fin n}, TransGen (DirectSuper node) a b → b < a := by
    intro a b hab
    induction hab with
    | single hstep => exact h _ _ hstep
    | tail _ hstep ih => exact lt_trans (h _ _ hstep) ih
  intro hc
  exact lt_irrefl c (hlt hc)

/-- `class B {}  class J extends B {}  class I extends B implements J {}  class C implements I {}`,
with `Object` as class 0. -/
def interfaceOfInterface : Hierarchy where
  size := 5
  node := ![⟨none, [], .belowSuperclass⟩, ⟨some 0, [], .belowSuperclass⟩,
    ⟨some 1, [], .belowSuperclass⟩, ⟨some 1, [2], .belowSuperclass⟩,
    ⟨some 0, [3], .belowSuperclass⟩]
  acyclic := acyclic_of_lt (by unfold DirectSuper; decide)
  root_implements := by decide
  special_superclass := by decide
  special_interface := by decide

/-- `C` is a subtype of `J`, but `J` is represented by `B`, which is not above `C`. -/
theorem interfaceOfInterface_not_covered :
    interfaceOfInterface.Subtype (4 : Fin 5) (2 : Fin 5) ∧
      ∃ st kc r, collect interfaceOfInterface 6 = some st ∧
        st.classInfo (4 : Fin 5) = some kc ∧
        (st.classInfo (2 : Fin 5)).bind (st.computeRepresentation 6) = some r ∧
        ¬ r.AboveEq kc := by
  refine ⟨?_, _, _, _, rfl, rfl, rfl, ?_⟩
  · exact ReflTransGen.head (.inr (by decide : (3 : Fin 5) ∈ [3]))
      (ReflTransGen.single (.inr (by decide : (2 : Fin 5) ∈ [2])))
  · rintro (h | h | h) <;> cases h

end Dart2Wasm.ClassInfoCollector
