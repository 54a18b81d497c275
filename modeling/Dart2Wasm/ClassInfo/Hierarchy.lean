import Mathlib.Order.Preorder.Finite

/-!
# ClassInfo.Hierarchy — Dart class hierarchies and the Wasm hierarchy below `#Top`

A Dart program is seen as a finite acyclic hierarchy of classes; mixin applications have been turned
into implemented types. Most classes sit below their superclass in the Wasm type hierarchy. The
exceptions are the classes that the source names: `bool` and `num` sit directly below `#Top`, and
the implementation classes `_StringBase`, `_Type` and the box classes sit below the one public class
that they implement.

This module contains what can be said about a hierarchy before any class info exists: Dart
subtyping, the ancestors in the Wasm hierarchy, and how the former decomposes into steps of the
latter and `implements` edges.
-/

namespace Dart2Wasm

open Relation ReflTransGen

variable {n m : Nat}

/-- Where a class with a superclass sits in the Wasm type hierarchy. -/
inductive Placement
  | belowSuperclass
  -- `bool` and `num`.
  | belowTop
  -- `_StringBase`, `_Type` and the box classes.
  | belowInterface
  deriving DecidableEq

structure ClassNode (n : Nat) where
  superclass : Option (Fin n)
  implementedTypes : List (Fin n)
  placement : Placement
  deriving DecidableEq

/-- `d` is the superclass of `c` or one of its implemented types. -/
def DirectSuper {n : Nat} (node : Fin n → ClassNode n) (c d : Fin n) : Prop :=
  (node c).superclass = some d ∨ d ∈ (node c).implementedTypes

structure Hierarchy where
  size : Nat
  node : Fin size → ClassNode size
  acyclic : ∀ c, ¬ TransGen (DirectSuper node) c c
  /-- A class without superclass (`Object`) implements nothing. -/
  root_implements : ∀ c, (node c).superclass = none → (node c).implementedTypes = []
  /-- The classes with a placement of their own extend `Object`. -/
  special_superclass : ∀ c s, (node c).placement ≠ .belowSuperclass →
    (node c).superclass = some s → (node s).superclass = none
  special_interface : ∀ c, (node c).placement = .belowInterface →
    (node c).superclass ≠ none → ∃ i, (node c).implementedTypes = [i]

namespace Hierarchy

variable (H : Hierarchy)

abbrev Cls : Type := Fin H.size

/-! ## Dart subtyping -/

/-- Dart subtyping of classes: any chain of `extends` and `implements` steps. -/
def Subtype : H.Cls → H.Cls → Prop :=
  ReflTransGen (DirectSuper H.node)

def IsRoot (c : H.Cls) : Prop :=
  (H.node c).superclass = none

def Implements (c i : H.Cls) : Prop :=
  i ∈ (H.node c).implementedTypes

theorem wellFounded_super : WellFounded fun d c => DirectSuper H.node c d := by
  have htrans : IsTrans H.Cls fun d c => TransGen (DirectSuper H.node) c d :=
    ⟨fun _ _ _ hab hbc => hbc.trans hab⟩
  have hirrefl : Std.Irrefl fun d c : H.Cls => TransGen (DirectSuper H.node) c d :=
    ⟨fun c h => H.acyclic c h⟩
  have hwf : WellFounded fun d c : H.Cls => TransGen (DirectSuper H.node) c d :=
    Finite.wellFounded_of_trans_of_irrefl _
  exact Subrelation.wf (fun h => TransGen.single h) hwf

/-! ## The Wasm hierarchy -/

/-- The class directly above in the Wasm hierarchy, or `none` for `#Top`. -/
def parent (c : H.Cls) : Option H.Cls :=
  match (H.node c).superclass with
  | none => none
  | some superclass =>
    match (H.node c).placement with
    | .belowSuperclass => some superclass
    | .belowTop => none
    | .belowInterface => (H.node c).implementedTypes.head?

/-- `a` is `c` or an ancestor of `c` in the Wasm hierarchy. -/
def Above (a c : H.Cls) : Prop :=
  ReflTransGen (fun x y => H.parent x = some y) c a

/-- The class has `d` classes above it and itself on its way to `#Top`. -/
inductive HasDepth : H.Cls → Nat → Prop
  | one {c : H.Cls} (h : H.parent c = none) : HasDepth c 1
  | succ {c p : H.Cls} {d : Nat} (h : H.parent c = some p) (hp : HasDepth p d) :
      HasDepth c (d + 1)

variable {H} {c j : H.Cls}

theorem Above.trans {a b : H.Cls} (hab : H.Above a b) (hbc : H.Above b c) : H.Above a c :=
  ReflTransGen.trans hbc hab

theorem parent_directSuper {p : H.Cls} (h : H.parent c = some p) : DirectSuper H.node c p := by
  unfold parent at h
  split at h
  · cases h
  · rename_i superclass hsuper
    split at h
    · exact Or.inl (hsuper.trans h)
    · cases h
    · exact Or.inr (List.mem_of_mem_head? h)

theorem Above.subtype {a : H.Cls} (h : H.Above a c) : H.Subtype c a := by
  induction h with
  | refl => exact refl
  | tail _ hstep ih => exact tail ih (parent_directSuper hstep)

theorem exists_hasDepth (c : H.Cls) : ∃ d, H.HasDepth c d := by
  induction c using H.wellFounded_super.induction with
  | h c ih =>
    cases hp : H.parent c with
    | none => exact ⟨1, .one hp⟩
    | some p =>
      rcases ih p (parent_directSuper hp) with ⟨d, hd⟩
      exact ⟨d + 1, .succ hp hd⟩

theorem parent_of_isRoot (h : H.IsRoot c) : H.parent c = none := by
  have hsuper : (H.node c).superclass = none := h
  simp [parent, hsuper]

/-! ## Paths -/

/-- A way from `c` up to `j` with `n` `implements` edges, the other steps going up in the Wasm
hierarchy. -/
inductive Path : Nat → H.Cls → H.Cls → Prop
  | refl (c : H.Cls) : Path 0 c c
  | up {n : Nat} {c p j : H.Cls} (h : H.parent c = some p) (rest : Path n p j) : Path n c j
  | implements {n : Nat} {c i j : H.Cls} (h : H.Implements c i) (rest : Path n i j) :
      Path (n + 1) c j

theorem Path.eq_of_isRoot (h : Path n c j) (hc : H.IsRoot c) : c = j := by
  cases h with
  | refl => rfl
  | up hp rest =>
    have hnone : H.parent c = none := parent_of_isRoot hc
    rw [hnone] at hp
    cases hp
  | implements hi rest =>
    have hnil := H.root_implements c hc
    simp [Implements, hnil] at hi

theorem Path.append_above {p : H.Cls} (hp : H.Above p c) (h : Path n p j) : Path n c j := by
  induction hp using head_induction_on with
  | refl => exact h
  | head hstep _ ih => exact .up hstep ih

theorem Path.above (h : Path n c j) (hn : n = 0) : H.Above j c := by
  induction h with
  | refl c => exact ReflTransGen.refl
  | up hp rest ih => exact head hp (ih hn)
  | implements hi rest ih => exact absurd hn (Nat.succ_ne_zero _)

theorem Path.split (h : Path m c j) (hm : m = n + 1) :
    ∃ x i, H.Above x c ∧ H.Implements x i ∧ Path n i j := by
  induction h with
  | refl c => exact absurd hm (Nat.succ_ne_zero _).symm
  | up hp rest ih =>
    rcases ih hm with ⟨x, i, hx, hi, hrest⟩
    exact ⟨x, i, head hp hx, hi, hrest⟩
  | @implements m c i j hi rest ih =>
    have : m = n := Nat.succ.inj hm
    subst this
    exact ⟨c, i, ReflTransGen.refl, hi, rest⟩

theorem Path.last (h : Path m c j) (hm : m ≠ 0) : ∃ y k, H.Implements y k ∧ H.Above j k := by
  induction h with
  | refl c => exact absurd rfl hm
  | up hp rest ih => exact ih hm
  | @implements m c i j hi rest ih =>
    by_cases hzero : m = 0
    · exact ⟨c, i, hi, rest.above hzero⟩
    · exact ih hzero

/-- Every subtype of a class that is not a root has a path to it: only a superclass edge of a class
with a placement of its own is no step of the Wasm hierarchy, and it leads to a root. -/
theorem Subtype.path (h : H.Subtype c j) (hj : ¬ H.IsRoot j) : ∃ n, Path n c j := by
  induction h using head_induction_on with
  | refl => exact ⟨0, .refl j⟩
  | @head c d hstep _ ih =>
    rcases ih with ⟨n, hpath⟩
    rcases hstep with hsuper | himpl
    · by_cases hplace : (H.node c).placement = .belowSuperclass
      · exact ⟨n, .up (by simp [parent, hsuper, hplace]) hpath⟩
      · have hroot : H.IsRoot d := H.special_superclass c d hplace hsuper
        exact absurd (hpath.eq_of_isRoot hroot ▸ hroot) hj
    · exact ⟨n + 1, .implements himpl hpath⟩

/-! ## Common ancestors of recorded implementers -/

variable (H)

/-- The classes that the collector records as implementing `j`: `j` itself, and those that directly
implement `j` or a class below `j` in the Wasm hierarchy. -/
def Records (y j : H.Cls) : Prop :=
  y = j ∨ ∃ k, H.Implements y k ∧ H.Above j k

/-- `a` is above everything recorded for `j`, at a depth that `upperBound` can return. -/
def CommonAncestor (a j : H.Cls) : Prop :=
  (∃ d ≤ 999999999, H.HasDepth a d) ∧ ∀ y, H.Records y j → H.Above a y

/-- Implementing an interface `i` that implements `j`, itself or through a class above it, puts a
class below the common ancestors of what is recorded for `j`. -/
def InterfacesCovered : Prop :=
  ∀ c i x j, H.Implements c i → H.Above x i → H.Implements x j → ¬ H.IsRoot j →
    ∀ a, H.CommonAncestor a j → H.Above a c

variable {H}

/-- The two-edge condition is enough for paths with any number of `implements` edges. -/
theorem InterfacesCovered.above_of_path (hcov : H.InterfacesCovered) {a : H.Cls}
    (hpath : Path n c j) (hj : ¬ H.IsRoot j) (ha : H.CommonAncestor a j) : H.Above a c := by
  -- Two edges at a time: the common ancestors of `j` are common ancestors of the class `k`
  -- reached after the second edge, by the hypotheses for one and two edges less.
  induction n using Nat.strong_induction_on generalizing c j with
  | h n ih =>
    match n, ih, hpath with
    | 0, _, hpath =>
      have hself : H.Above a j := ha.2 j (Or.inl rfl)
      exact hself.trans (hpath.above rfl)
    | 1, _, hpath =>
      rcases hpath.split rfl with ⟨x, i, hx, hi, hrest⟩
      have hrec : H.Above a x := ha.2 x (Or.inr ⟨i, hi, hrest.above rfl⟩)
      exact hrec.trans hx
    | n + 2, ih, hpath =>
      rcases hpath.split rfl with ⟨x, i, hx, hi, hrest⟩
      rcases hrest.split rfl with ⟨y, k, hy, hk, hrest'⟩
      have hkroot : ¬ H.IsRoot k := by
        intro hroot
        exact hj (hrest'.eq_of_isRoot hroot ▸ hroot)
      have hcommon : H.CommonAncestor a k := by
        refine ⟨ha.1, ?_⟩
        rintro z (rfl | ⟨m, hm, hkm⟩)
        · exact ih n (by omega) hrest' hj ha
        · exact ih (n + 1) (by omega) (.implements hm (hrest'.append_above hkm)) hj ha
      have hax : H.Above a x := hcov x i y k hi hy hk hkroot a hcommon
      exact hax.trans hx

end Hierarchy
end Dart2Wasm
