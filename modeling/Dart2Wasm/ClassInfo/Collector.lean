import Dart2Wasm.ClassInfo.Hierarchy
import Dart2Wasm.ClassInfo.UpperBound

/-!
# ClassInfo.Collector — creation of the class infos

The `ClassInfoCollector` of `dart2wasm/lib/class_info.dart`. `initialize` creates the info of a
class after those of its supertypes and records the class as an implementer of every interface it
names and of everything above that interface; `computeRepresentation` then takes the upper bound of
what has been recorded.

Struct types, RTT globals and type parameters play no part in the representation types and are left
out.
-/

namespace Dart2Wasm

open Relation ClassInfo ReflTransGen List

variable {id fuel : Nat}

/-- The collector with the tables of the translator that it fills. `implementedBy` is that list of
each class info. -/
structure ClassInfoCollector (H : Hierarchy) where
  nextClassId : Nat
  classes : List (ClassInfo H.Cls)
  classInfo : H.Cls → Option (ClassInfo H.Cls)
  implementedBy : ClassInfo H.Cls → List (ClassInfo H.Cls)

namespace ClassInfoCollector

variable {H : Hierarchy} {k info : ClassInfo H.Cls} {c d : H.Cls} {st : ClassInfoCollector H}
  {S : H.Cls → Prop}

abbrev Implementers (H : Hierarchy) := ClassInfo H.Cls → List (ClassInfo H.Cls)

/-! ## The collector -/

def initializeTop (H : Hierarchy) : ClassInfoCollector H where
  nextClassId := 1
  classes := [.top]
  classInfo := fun _ => none
  implementedBy := Function.update (fun _ => []) .top [.top]

/-- The loop that adds `info` to the implementers of an interface and of everything above it. -/
def markImplemented (info : ClassInfo H.Cls) : ClassInfo H.Cls → Implementers H → Implementers H
  | .top, f => Function.update f .top (f .top ++ [info])
  | .sub cls classId superInfo, f =>
    markImplemented info superInfo
      (Function.update f (.sub cls classId superInfo) (f (.sub cls classId superInfo) ++ [info]))

/-- Mark all interfaces of a class as being implemented by it. -/
def markInterfaces (st : ClassInfoCollector H) (info : ClassInfo H.Cls) (interfaces : List H.Cls)
    (f : Implementers H) : Implementers H :=
  interfaces.foldl
    (fun f interface =>
      match st.classInfo interface with
      | some interfaceInfo => markImplemented info interfaceInfo f
      | none => f) f

/-- The info that the info of a class with a superclass sits below. -/
def superInfo (st : ClassInfoCollector H) (cls superclass : H.Cls) : Option (ClassInfo H.Cls) :=
  match (H.node cls).placement with
  | .belowTop => some .top
  | .belowInterface =>
    match (H.node cls).implementedTypes with
    | [interface] => st.classInfo interface
    | _ => none
  | .belowSuperclass => st.classInfo superclass

/-- Register a new info with its list of implementers. -/
def add (st : ClassInfoCollector H) (cls : H.Cls) (info : ClassInfo H.Cls) (f : Implementers H) :
    ClassInfoCollector H where
  nextClassId := st.nextClassId + 1
  classes := st.classes ++ [info]
  classInfo := Function.update st.classInfo cls (some info)
  implementedBy := f

/-- The branch of `initialize` for a class without superclass. -/
def addRoot (st : ClassInfoCollector H) (cls : H.Cls) : ClassInfoCollector H :=
  let info := .sub cls st.nextClassId .top
  -- Mark Top type as implementing Object to force the representation type of Object to be Top.
  st.add cls info (Function.update st.implementedBy info [info, .top])

/-- The end of the other branch of `initialize`. -/
def addBelow (st : ClassInfoCollector H) (cls : H.Cls) (superInfo : ClassInfo H.Cls) :
    ClassInfoCollector H :=
  let info := .sub cls st.nextClassId superInfo
  st.add cls info
    (st.markInterfaces info (H.node cls).implementedTypes
      (Function.update st.implementedBy info [info]))

/-- `initialize`, on fuel for the recursion to the supertypes. -/
def initializeClass : Nat → ClassInfoCollector H → H.Cls → Option (ClassInfoCollector H)
  | 0, _, _ => none
  | fuel + 1, st, cls =>
    match st.classInfo cls with
    | some _ => some st
    | none =>
      match (H.node cls).superclass with
      | none => some (st.addRoot cls)
      | some superclass => do
        -- Recursively initialize all supertypes before initializing this class.
        let st ← initializeClass fuel st superclass
        let st ← (H.node cls).implementedTypes.foldlM (initializeClass fuel) st
        let superInfo ← st.superInfo cls superclass
        some (st.addBelow cls superInfo)

/-- The first two steps of `collect`. -/
def collect (H : Hierarchy) (fuel : Nat) : Option (ClassInfoCollector H) :=
  (List.finRange H.size).foldlM (initializeClass fuel) (initializeTop H)

def computeRepresentation (st : ClassInfoCollector H) (fuel : Nat) (info : ClassInfo H.Cls) :
    Option (ClassInfo H.Cls) :=
  ClassInfo.upperBound fuel (st.implementedBy info)

/-! ## Marking -/

/-- `g` is `f` with `info` added, at least once, to the lists of the class infos in `P`. -/
def Marked (info : ClassInfo H.Cls) (P : ClassInfo H.Cls → Prop) (f g : Implementers H) : Prop :=
  ∀ k, ∃ extra, g k = f k ++ extra ∧ (∀ y ∈ extra, y = info) ∧ (extra ≠ [] ↔ P k)

theorem Marked.trans {P Q : ClassInfo H.Cls → Prop} {f g h : Implementers H}
    (hfg : Marked info P f g) (hgh : Marked info Q g h) : Marked info (fun k => P k ∨ Q k) f h := by
  intro k
  rcases hfg k with ⟨extra, hg, hall, hP⟩
  rcases hgh k with ⟨extra', hh, hall', hQ⟩
  refine ⟨extra ++ extra', by rw [hh, hg, append_assoc], ?_, ?_⟩
  · intro y hy
    rcases mem_append.1 hy with hy | hy
    · exact hall y hy
    · exact hall' y hy
  · show extra ++ extra' ≠ [] ↔ P k ∨ Q k
    rw [← hP, ← hQ, ne_eq, append_eq_nil_iff]
    tauto

theorem marked_update (info : ClassInfo H.Cls) (k : ClassInfo H.Cls) (f : Implementers H) :
    Marked info (fun k' => k' = k) f (Function.update f k (f k ++ [info])) := by
  intro k'
  by_cases hk : k' = k
  · subst hk
    exact ⟨[info], by simp, by simp, by simp⟩
  · exact ⟨[], by simp [hk], by simp, by simp [hk]⟩

theorem markImplemented_marked (info k : ClassInfo H.Cls) (f : Implementers H) :
    Marked info (fun k' => k'.AboveEq k) f (markImplemented info k f) := by
  induction k generalizing f with
  | top =>
    exact marked_update info .top f
  | sub cls classId superInfo ih =>
    exact (marked_update info _ f).trans (ih _)

theorem markInterfaces_marked (st : ClassInfoCollector H) (info : ClassInfo H.Cls)
    (interfaces : List H.Cls) (f : Implementers H) :
    Marked info (fun k => ∃ i ∈ interfaces, ∃ ki, st.classInfo i = some ki ∧ k.AboveEq ki) f
      (st.markInterfaces info interfaces f) := by
  induction interfaces generalizing f with
  | nil =>
    intro k
    exact ⟨[], by simp [markInterfaces], by simp, by simp⟩
  | cons i interfaces ih =>
    cases hi : st.classInfo i with
    | none =>
      have h := ih f
      simpa [markInterfaces, hi] using h
    | some ki =>
      have h := (markImplemented_marked info ki f).trans (ih (markImplemented info ki f))
      simpa [markInterfaces, hi] using h

/-! ## What a partly filled collector records -/

/-- The infos created so far reflect the Wasm hierarchy and include those of all supertypes, and the
lists of implementers are what `Hierarchy.Records` says for the classes initialized so far. -/
structure Consistent (st : ClassInfoCollector H) : Prop where
  info_eq : ∀ c k, st.classInfo c = some k → ∃ id s, k = .sub c id s ∧
    ((H.parent c = none ∧ s = .top) ∨ ∃ p, H.parent c = some p ∧ st.classInfo p = some s)
  closed : ∀ c k, st.classInfo c = some k → ∀ d, DirectSuper H.node c d →
    ∃ k', st.classInfo d = some k'
  mem_implementedBy : ∀ j k, st.classInfo j = some k → ∀ y, y ∈ st.implementedBy k ↔
    y = k ∨ (H.IsRoot j ∧ y = .top) ∨
      ∃ c i, st.classInfo c = some y ∧ H.Implements c i ∧ H.Above j i
  mem_classes : ∀ k, k ∈ st.classes ↔ k = .top ∨ ∃ c, st.classInfo c = some k
  head_implementedBy : ∀ k ∈ st.classes, ∃ rest, st.implementedBy k = k :: rest ∧
    ∀ y ∈ rest, y ≠ k ∧ y ∈ st.classes

namespace Consistent

variable {st : ClassInfoCollector H}

variable (h : Consistent st)
include h

section

variable (hc : st.classInfo c = some k)
include hc

theorem cls_injective (hd : st.classInfo d = some k) : c = d := by
  rcases h.info_eq c k hc with ⟨id, s, hk, -⟩
  rcases h.info_eq d k hd with ⟨id', s', hk', -⟩
  have heq : sub c id s = sub d id' s' := hk.symm.trans hk'
  exact (sub.inj heq).1

theorem ne_top : k ≠ .top := by
  rcases h.info_eq c k hc with ⟨id, s, rfl, -⟩
  intro htop
  cases htop

theorem subtype_closed (hsub : H.Subtype c d) : ∃ k', st.classInfo d = some k' := by
  induction hsub with
  | refl => exact ⟨k, hc⟩
  | tail _ hstep ih =>
    rcases ih with ⟨k', hk'⟩
    exact h.closed _ k' hk' _ hstep

/-- Ancestors of a class info are `#Top` and the infos of the ancestors of its class. -/
theorem aboveEq_iff {x : ClassInfo H.Cls} :
    x.AboveEq k ↔ x = .top ∨ ∃ a, st.classInfo a = some x ∧ H.Above a c := by
  induction k generalizing c with
  | top => exact absurd rfl (h.ne_top hc)
  | sub cls classId s ih =>
    rcases h.info_eq c _ hc with ⟨id, s', hk, hparent⟩
    rcases sub.inj hk with ⟨rfl, rfl, rfl⟩
    rcases hparent with ⟨hnone, rfl⟩ | ⟨p, hp, hpk⟩
    · -- Directly below `#Top`.
      constructor
      · rintro (rfl | hx)
        · exact .inr ⟨cls, hc, refl⟩
        · exact .inl hx
      · rintro (rfl | ⟨a, ha, habove⟩)
        · exact top_aboveEq _
        · rcases cases_head habove with rfl | ⟨b, hb, -⟩
          · exact .inl (Option.some.inj (ha.symm.trans hc))
          · rw [hnone] at hb
            cases hb
    · constructor
      · rintro (rfl | hx)
        · exact .inr ⟨cls, hc, refl⟩
        · rcases (ih hpk).1 hx with htop | ⟨a, ha, habove⟩
          · exact .inl htop
          · exact .inr ⟨a, ha, head hp habove⟩
      · rintro (rfl | ⟨a, ha, habove⟩)
        · exact top_aboveEq _
        · rcases cases_head habove with rfl | ⟨b, hb, hrest⟩
          · exact .inl (Option.some.inj (ha.symm.trans hc))
          · have hbp : p = b := Option.some.inj (hp.symm.trans hb)
            subst hbp
            exact .inr ((ih hpk).2 (.inr ⟨a, ha, hrest⟩))

end

theorem above_iff {a : H.Cls} {ka kc : ClassInfo H.Cls} (ha : st.classInfo a = some ka)
    (hc : st.classInfo c = some kc) : ka.AboveEq kc ↔ H.Above a c := by
  rw [h.aboveEq_iff hc]
  constructor
  · rintro (htop | ⟨b, hb, habove⟩)
    · exact absurd htop (h.ne_top ha)
    · exact h.cls_injective ha hb ▸ habove
  · intro habove
    exact .inr ⟨a, ha, habove⟩

end Consistent

theorem initializeTop_consistent (H : Hierarchy) : Consistent (initializeTop H) := by
  refine ⟨?_, ?_, ?_, ?_, ?_⟩
  · intro c k hk
    cases hk
  · intro c k hk
    cases hk
  · intro j k hk
    cases hk
  · intro k
    simp [initializeTop]
  · intro k hk
    have : k = .top := by simpa [initializeTop] using hk
    subst this
    exact ⟨[], by simp [initializeTop], by simp⟩

/-! ## Adding a class -/

section AddClass

variable {st : ClassInfoCollector H} {c : H.Cls} {s : ClassInfo H.Cls}

/-- No initialized class lies below a class that is not initialized. -/
theorem Consistent.not_above (h : Consistent st) (hc : st.classInfo c = none)
    (hd : st.classInfo d = some k) : ¬ H.Above c d := by
  intro habove
  rcases h.subtype_closed hd habove.subtype with ⟨k', hk'⟩
  rw [hc] at hk'
  cases hk'

theorem Consistent.fresh (h : Consistent st) (hc : st.classInfo c = none) (id : Nat)
    (s : ClassInfo H.Cls) (hd : st.classInfo d = some k) : k ≠ .sub c id s := by
  rintro rfl
  rcases h.info_eq d _ hd with ⟨id', s', hk, -⟩
  have hcd : c = d := (sub.inj hk).1
  rw [hcd, hd] at hc
  cases hc

theorem not_above_interface {i : H.Cls} (hi : H.Implements c i) : ¬ H.Above c i := by
  intro habove
  exact H.acyclic c (TransGen.head' (.inr hi) habove.subtype)

/-- The lists of implementers after marking: the new info is in the lists of the infos above its
interfaces, and its own list has itself and, for a root, `#Top`. -/
structure MarkedNew (st : ClassInfoCollector H) (c : H.Cls) (info : ClassInfo H.Cls)
    (f : Implementers H) : Prop where
  old : ∀ k, k ≠ info → ∃ extra, f k = st.implementedBy k ++ extra ∧ (∀ y ∈ extra, y = info) ∧
    (extra ≠ [] ↔ ∃ i ki, H.Implements c i ∧ st.classInfo i = some ki ∧ k.AboveEq ki)
  new : ∃ rest, f info = info :: rest ∧ ∀ y, y ∈ rest ↔ H.IsRoot c ∧ y = .top

theorem add_classInfo_self (info : ClassInfo H.Cls) (f : Implementers H) :
    (st.add c info f).classInfo c = some info := by
  simp [add]

theorem add_classInfo_of_ne (info : ClassInfo H.Cls) (f : Implementers H)
    (hd : d ≠ c) : (st.add c info f).classInfo d = st.classInfo d := by
  simp [add, hd]

theorem add_classInfo_keeps (hc : st.classInfo c = none) (info : ClassInfo H.Cls)
    (f : Implementers H) (hd : st.classInfo d = some k) :
    (st.add c info f).classInfo d = some k := by
  have hdc : d ≠ c := by
    rintro rfl
    rw [hc] at hd
    cases hd
  rw [add_classInfo_of_ne info f hdc, hd]

theorem add_classInfo_cases {f : Implementers H}
    (hd : (st.add c info f).classInfo d = some k) : d = c ∧ k = info ∨ st.classInfo d = some k := by
  by_cases hdc : d = c
  · rw [hdc, add_classInfo_self] at hd
    exact .inl ⟨hdc, (Option.some.inj hd).symm⟩
  · rw [add_classInfo_of_ne info f hdc] at hd
    exact .inr hd

/-- The implementers of the new info: no initialized class implements anything below it. -/
theorem MarkedNew.mem_new {f : Implementers H} (hf : MarkedNew st c (.sub c id s) f)
    (h : Consistent st) (hc : st.classInfo c = none) (y : ClassInfo H.Cls) :
    y ∈ f (.sub c id s) ↔ y = .sub c id s ∨ (H.IsRoot c ∧ y = .top) ∨
      ∃ d i, (st.add c (.sub c id s) f).classInfo d = some y ∧ H.Implements d i ∧
        H.Above c i := by
  have hnone : ¬ ∃ d i, (st.add c (.sub c id s) f).classInfo d = some y ∧ H.Implements d i ∧
      H.Above c i := by
    rintro ⟨d, i, hd, hi, habove⟩
    rcases add_classInfo_cases hd with ⟨hdc, -⟩ | hd
    · exact not_above_interface (hdc ▸ hi) habove
    · rcases h.closed d y hd i (.inr hi) with ⟨ki, hki⟩
      exact h.not_above hc hki habove
  rcases hf.new with ⟨rest, hnew, hrest⟩
  simp only [hnew, mem_cons, hrest, hnone, or_false]

/-- The implementers of an old info: the new one has been added if it implements something
below. -/
theorem MarkedNew.mem_old {f : Implementers H}
    (hf : MarkedNew st c (.sub c id s) f) (h : Consistent st) (hc : st.classInfo c = none)
    (hsuper : ∀ d, DirectSuper H.node c d → ∃ k, st.classInfo d = some k)
    {j : H.Cls} (hj : st.classInfo j = some k) (y : ClassInfo H.Cls) :
    y ∈ f k ↔ y = k ∨ (H.IsRoot j ∧ y = .top) ∨
      ∃ d i, (st.add c (.sub c id s) f).classInfo d = some y ∧ H.Implements d i ∧
        H.Above j i := by
  rcases hf.old k (h.fresh hc id s hj) with ⟨extra, hk, hall, hextra⟩
  rw [hk, mem_append, h.mem_implementedBy j k hj]
  constructor
  · rintro ((hy | hy | ⟨d, i, hd, hi, habove⟩) | hy)
    · exact .inl hy
    · exact .inr (.inl hy)
    · exact .inr (.inr ⟨d, i, add_classInfo_keeps hc _ f hd, hi, habove⟩)
    · rcases hextra.1 (ne_nil_of_mem hy) with ⟨i, ki, hi, hki, habove⟩
      refine .inr (.inr ⟨c, i, ?_, hi, (h.above_iff hj hki).1 habove⟩)
      rw [hall y hy, add_classInfo_self]
  · rintro (hy | hy | ⟨d, i, hd, hi, habove⟩)
    · exact .inl (.inl hy)
    · exact .inl (.inr (.inl hy))
    · rcases add_classInfo_cases hd with ⟨rfl, rfl⟩ | hd
      · rcases hsuper i (.inr hi) with ⟨ki, hki⟩
        have hne : extra ≠ [] := hextra.2 ⟨i, ki, hi, hki, (h.above_iff hj hki).2 habove⟩
        rcases exists_mem_of_ne_nil extra hne with ⟨z, hz⟩
        exact .inr (hall z hz ▸ hz)
      · exact .inl (.inr (.inr ⟨d, i, hd, hi, habove⟩))

/-- Registering the info of a new class keeps the collector consistent. -/
theorem Consistent.add (h : Consistent st) (hc : st.classInfo c = none)
    {f : Implementers H} (hf : MarkedNew st c (.sub c id s) f)
    (hsuper : ∀ d, DirectSuper H.node c d → ∃ k, st.classInfo d = some k)
    (hparent : (H.parent c = none ∧ s = .top) ∨
      ∃ p, H.parent c = some p ∧ st.classInfo p = some s) :
    Consistent (st.add c (.sub c id s) f) := by
  refine ⟨?_, ?_, ?_, ?_, ?_⟩
  · intro d k hd
    rcases add_classInfo_cases hd with ⟨rfl, rfl⟩ | hd
    · refine ⟨id, s, rfl, ?_⟩
      rcases hparent with hp | ⟨p, hp, hps⟩
      · exact .inl hp
      · exact .inr ⟨p, hp, add_classInfo_keeps hc _ f hps⟩
    · rcases h.info_eq d k hd with ⟨id', s', hk, hp | ⟨p, hp, hps⟩⟩
      · exact ⟨id', s', hk, .inl hp⟩
      · exact ⟨id', s', hk, .inr ⟨p, hp, add_classInfo_keeps hc _ f hps⟩⟩
  · intro d k hd e he
    have hinit : ∃ k', st.classInfo e = some k' := by
      rcases add_classInfo_cases hd with ⟨hdc, -⟩ | hd
      · exact hsuper e (hdc ▸ he)
      · exact h.closed d k hd e he
    rcases hinit with ⟨k', hk'⟩
    exact ⟨k', add_classInfo_keeps hc _ f hk'⟩
  · intro j k hj y
    rcases add_classInfo_cases hj with ⟨rfl, rfl⟩ | hj
    · exact hf.mem_new h hc y
    · exact hf.mem_old h hc hsuper hj y
  · intro k
    have hmem : k ∈ (st.add c (.sub c id s) f).classes ↔ k ∈ st.classes ∨ k = .sub c id s := by
      simp [ClassInfoCollector.add]
    rw [hmem, h.mem_classes]
    constructor
    · rintro ((htop | ⟨d, hd⟩) | rfl)
      · exact .inl htop
      · exact .inr ⟨d, add_classInfo_keeps hc _ f hd⟩
      · exact .inr ⟨c, add_classInfo_self _ f⟩
    · rintro (htop | ⟨d, hd⟩)
      · exact .inl (.inl htop)
      · rcases add_classInfo_cases hd with ⟨-, hk⟩ | hd
        · exact .inr hk
        · exact .inl (.inr ⟨d, hd⟩)
  · intro k hk
    have hk' : k ∈ st.classes ∨ k = .sub c id s := by
      simpa [ClassInfoCollector.add] using hk
    by_cases hknew : k = .sub c id s
    · subst hknew
      rcases hf.new with ⟨rest, hnew, hrest⟩
      refine ⟨rest, hnew, ?_⟩
      intro y hy
      have hy' : y = .top := ((hrest y).1 hy).2
      subst hy'
      have htop : top ≠ .sub c id s := by
        intro heq
        cases heq
      exact ⟨htop, mem_append_left _ ((h.mem_classes _).2 (.inl rfl))⟩
    · rcases h.head_implementedBy k (hk'.resolve_right hknew) with ⟨rest, hhead, hne⟩
      rcases hf.old k hknew with ⟨extra, hold, hall, -⟩
      refine ⟨rest ++ extra, ?_, ?_⟩
      · show f k = _
        rw [hold, hhead, cons_append]
      · intro y hy
        rcases mem_append.1 hy with hy | hy
        · exact ⟨(hne y hy).1, mem_append_left _ (hne y hy).2⟩
        · have hy' : y = .sub c id s := hall y hy
          subst hy'
          exact ⟨Ne.symm hknew, mem_append_right _ (by simp)⟩

theorem Consistent.addRoot (h : Consistent st) (hc : st.classInfo c = none)
    (hroot : (H.node c).superclass = none) : Consistent (st.addRoot c) := by
  have hnoInterface : ∀ i, ¬ H.Implements c i := by
    intro i hi
    simp [Hierarchy.Implements, H.root_implements c hroot] at hi
  refine h.add hc ⟨?_, ?_⟩ ?_ (.inl ⟨Hierarchy.parent_of_isRoot hroot, rfl⟩)
  · intro k hk
    exact ⟨[], by simp [hk], by simp, by simp [hnoInterface]⟩
  · exact ⟨[.top], by simp, by simp [Hierarchy.IsRoot, hroot]⟩
  · rintro d (hd | hd)
    · rw [hroot] at hd
      cases hd
    · exact absurd hd (hnoInterface d)

theorem superInfo_spec {superclass : H.Cls} (hsuperclass : (H.node c).superclass = some superclass)
    (hsuper : ∀ d, DirectSuper H.node c d → ∃ k, st.classInfo d = some k) :
    ∃ s, st.superInfo c superclass = some s ∧ ((H.parent c = none ∧ s = .top) ∨
      ∃ p, H.parent c = some p ∧ st.classInfo p = some s) := by
  cases hplace : (H.node c).placement with
  | belowTop =>
    exact ⟨.top, by simp [superInfo, hplace],
      .inl ⟨by simp [Hierarchy.parent, hsuperclass, hplace], rfl⟩⟩
  | belowSuperclass =>
    rcases hsuper superclass (.inl hsuperclass) with ⟨s, hs⟩
    exact ⟨s, by simp [superInfo, hplace, hs],
      .inr ⟨superclass, by simp [Hierarchy.parent, hsuperclass, hplace], hs⟩⟩
  | belowInterface =>
    rcases H.special_interface c hplace (by simp [hsuperclass]) with ⟨i, hi⟩
    rcases hsuper i (.inr (by simp [hi])) with ⟨s, hs⟩
    exact ⟨s, by simp [superInfo, hplace, hi, hs],
      .inr ⟨i, by simp [Hierarchy.parent, hsuperclass, hplace, hi], hs⟩⟩

theorem Consistent.addBelow (h : Consistent st) (hc : st.classInfo c = none)
    (hroot : (H.node c).superclass ≠ none)
    (hsuper : ∀ d, DirectSuper H.node c d → ∃ k, st.classInfo d = some k)
    (hparent : (H.parent c = none ∧ s = .top) ∨
      ∃ p, H.parent c = some p ∧ st.classInfo p = some s) :
    Consistent (st.addBelow c s) := by
  have hmarked := markInterfaces_marked st (.sub c st.nextClassId s) (H.node c).implementedTypes
    (Function.update st.implementedBy (.sub c st.nextClassId s) [.sub c st.nextClassId s])
  refine h.add hc ⟨?_, ?_⟩ hsuper hparent
  · intro k hk
    rcases hmarked k with ⟨extra, hf, hall, hextra⟩
    refine ⟨extra, by simpa [hk] using hf, hall, hextra.trans ?_⟩
    constructor
    · rintro ⟨i, hi, ki, hki, habove⟩
      exact ⟨i, ki, hi, hki, habove⟩
    · rintro ⟨i, ki, hi, hki, habove⟩
      exact ⟨i, hi, ki, hki, habove⟩
  · rcases hmarked (.sub c st.nextClassId s) with ⟨extra, hf, -, hextra⟩
    -- The new info is not above any of its interfaces, so it is not marked itself.
    have hnil : extra = [] := by
      by_contra hne
      rcases hextra.1 hne with ⟨i, -, ki, hki, habove⟩
      rcases (h.aboveEq_iff hki).1 habove with htop | ⟨a, ha, -⟩
      · cases htop
      · exact h.fresh hc _ _ ha rfl
    refine ⟨[], by simpa [hnil] using hf, ?_⟩
    simp [Hierarchy.IsRoot, hroot]

end AddClass

/-! ## The recursion -/

/-- From `st` to `st'` the classes in `S` have been initialized, and nothing but their
supertypes. -/
structure Initializes (st st' : ClassInfoCollector H) (S : H.Cls → Prop) : Prop where
  consistent : Consistent st'
  keeps : ∀ d k, st.classInfo d = some k → st'.classInfo d = some k
  done : ∀ c, S c → ∃ k, st'.classInfo c = some k
  only : ∀ d k, st'.classInfo d = some k →
    (∃ k', st.classInfo d = some k') ∨ ∃ c, S c ∧ H.Subtype c d

/-- This much fuel initializes the class, in every consistent state. -/
def Suffices (fuel : Nat) (c : H.Cls) : Prop :=
  ∀ st, Consistent st → ∃ st', initializeClass fuel st c = some st' ∧ Initializes st st' (· = c)

theorem Initializes.refl (h : Consistent st)
    (hS : ∀ c, S c → ∃ k, st.classInfo c = some k) : Initializes st st S :=
  ⟨h, fun _ _ hd => hd, hS, fun _ k hd => .inl ⟨k, hd⟩⟩

theorem Initializes.add {st' : ClassInfoCollector H} (h : Initializes st st' S)
    (hS : ∀ d, S d → DirectSuper H.node c d) (hc : st'.classInfo c = none) {f : Implementers H}
    (hadd : Consistent (st'.add c info f)) : Initializes st (st'.add c info f) (· = c) := by
  refine ⟨hadd, fun d k hd => add_classInfo_keeps hc _ _ (h.keeps d k hd), ?_, ?_⟩
  · rintro d rfl
    exact ⟨_, add_classInfo_self _ _⟩
  · intro d k hd
    rcases add_classInfo_cases hd with ⟨hdc, -⟩ | hd
    · exact .inr ⟨c, rfl, hdc ▸ ReflTransGen.refl⟩
    · rcases h.only d k hd with hold | ⟨e, he, hsub⟩
      · exact .inl hold
      · exact .inr ⟨c, rfl, head (hS e he) hsub⟩

theorem Initializes.trans {st₁ st₂ st₃ : ClassInfoCollector H} {T : H.Cls → Prop}
    (h₁ : Initializes st₁ st₂ S) (h₂ : Initializes st₂ st₃ T) :
    Initializes st₁ st₃ (fun c => S c ∨ T c) := by
  refine ⟨h₂.consistent, fun d k hd => h₂.keeps d k (h₁.keeps d k hd), ?_, ?_⟩
  · rintro c (hc | hc)
    · rcases h₁.done c hc with ⟨k, hk⟩
      exact ⟨k, h₂.keeps c k hk⟩
    · exact h₂.done c hc
  · intro d k hd
    rcases h₂.only d k hd with ⟨k', hk'⟩ | ⟨c, hc, hsub⟩
    · rcases h₁.only d k' hk' with hold | ⟨c, hc, hsub⟩
      · exact .inl hold
      · exact .inr ⟨c, .inl hc, hsub⟩
    · exact .inr ⟨c, .inr hc, hsub⟩

theorem foldlM_initializeClass {cs : List H.Cls} (hcs : ∀ c ∈ cs, Suffices fuel c)
    (h : Consistent st) :
    ∃ st', cs.foldlM (initializeClass fuel) st = some st' ∧ Initializes st st' (· ∈ cs) := by
  induction cs generalizing st with
  | nil =>
    exact ⟨st, rfl, .refl h (by simp)⟩
  | cons c cs ih =>
    rcases hcs c (by simp) st h with ⟨st₁, hrun, hinit⟩
    rcases ih (fun c' hc' => hcs c' (by simp [hc'])) hinit.consistent with ⟨st₂, hrun', hinit'⟩
    refine ⟨st₂, by simp [foldlM, hrun, hrun'], ?_⟩
    simpa using hinit.trans hinit'

theorem exists_fuel_forall (cs : List H.Cls)
    (h : ∀ c ∈ cs, ∃ fuel₀, ∀ fuel ≥ fuel₀, Suffices fuel c) :
    ∃ fuel₀, ∀ fuel ≥ fuel₀, ∀ c ∈ cs, Suffices fuel c := by
  induction cs with
  | nil =>
    exact ⟨0, by simp⟩
  | cons c cs ih =>
    rcases h c (by simp) with ⟨n, hn⟩
    rcases ih (fun c' hc' => h c' (by simp [hc'])) with ⟨m, hm⟩
    refine ⟨max n m, ?_⟩
    intro fuel hfuel c' hc'
    rcases mem_cons.1 hc' with rfl | hc'
    · exact hn fuel (Nat.le_trans (Nat.le_max_left _ _) hfuel)
    · exact hm fuel (Nat.le_trans (Nat.le_max_right _ _) hfuel) c' hc'

theorem suffices_succ
    (hsuper : ∀ d, DirectSuper H.node c d → Suffices fuel d) : Suffices (fuel + 1) c := by
  intro st h
  cases hc : st.classInfo c with
  | some k =>
    refine ⟨st, by simp [initializeClass, hc], .refl h ?_⟩
    rintro d rfl
    exact ⟨k, hc⟩
  | none =>
    cases hroot : (H.node c).superclass with
    | none =>
      have hinit : Initializes st st fun _ => False := .refl h nofun
      exact ⟨st.addRoot c, by simp [initializeClass, hc, hroot],
        hinit.add nofun hc (h.addRoot hc hroot)⟩
    | some superclass =>
      rcases hsuper superclass (.inl hroot) st h with ⟨st₁, hrun₁, hinit₁⟩
      rcases foldlM_initializeClass (fun i hi => hsuper i (.inr hi)) hinit₁.consistent with
        ⟨st₂, hrun₂, hinit₂⟩
      have hinit := hinit₁.trans hinit₂
      have hdirect : ∀ d, d = superclass ∨ d ∈ (H.node c).implementedTypes →
          DirectSuper H.node c d := by
        rintro d (rfl | hd)
        · exact .inl hroot
        · exact .inr hd
      have hsupers : ∀ d, DirectSuper H.node c d → ∃ k, st₂.classInfo d = some k := by
        rintro d (hd | hd)
        · exact hinit.done d (.inl (Option.some.inj (hd.symm.trans hroot)))
        · exact hinit.done d (.inr hd)
      -- The recursion reaches supertypes only, and the hierarchy is acyclic.
      have hc₂ : st₂.classInfo c = none := by
        cases hk : st₂.classInfo c with
        | none => rfl
        | some k =>
          rcases hinit.only c k hk with ⟨k', hk'⟩ | ⟨d, hd, hsub⟩
          · rw [hc] at hk'
            cases hk'
          · exact absurd (TransGen.head' (hdirect d hd) hsub) (H.acyclic c)
      rcases superInfo_spec hroot hsupers with ⟨s, hs, hparent⟩
      have hrun : initializeClass (fuel + 1) st c = some (st₂.addBelow c s) := by
        simp [initializeClass, hc, hroot, hrun₁, hrun₂, hs]
      exact ⟨_, hrun, hinit.add hdirect hc₂
        (hinit.consistent.addBelow hc₂ (by simp [hroot]) hsupers hparent)⟩

theorem exists_fuel (c : H.Cls) : ∃ fuel₀, ∀ fuel ≥ fuel₀, Suffices fuel c := by
  induction c using H.wellFounded_super.induction with
  | h c ih =>
    have hsupers : ∃ fuel₀, ∀ fuel ≥ fuel₀, ∀ d, DirectSuper H.node c d → Suffices fuel d := by
      rcases exists_fuel_forall ((H.node c).superclass.toList ++ (H.node c).implementedTypes)
        (fun d hd => ih d (by simpa [DirectSuper] using hd)) with ⟨fuel₀, hfuel⟩
      refine ⟨fuel₀, fun fuel hle d hd => hfuel fuel hle d ?_⟩
      simpa [DirectSuper] using hd
    rcases hsupers with ⟨fuel₀, hfuel⟩
    refine ⟨fuel₀ + 1, ?_⟩
    intro fuel hle
    cases fuel with
    | zero => exact absurd hle (Nat.not_succ_le_zero _)
    | succ fuel => exact suffices_succ (hfuel fuel (Nat.le_of_succ_le_succ hle))

/-- With enough fuel every class is initialized. -/
theorem collect_spec (H : Hierarchy) : ∃ fuel₀, ∀ fuel ≥ fuel₀, ∃ st, collect H fuel = some st ∧
    Consistent st ∧ ∀ c, ∃ k, st.classInfo c = some k := by
  rcases exists_fuel_forall (finRange H.size) (fun c _ => exists_fuel c) with ⟨fuel₀, hfuel⟩
  refine ⟨fuel₀, ?_⟩
  intro fuel hle
  rcases foldlM_initializeClass (hfuel fuel hle) (initializeTop_consistent H) with ⟨st, hrun, hinit⟩
  exact ⟨st, hrun, hinit.consistent, fun c => hinit.done c (mem_finRange c)⟩

end ClassInfoCollector
end Dart2Wasm
