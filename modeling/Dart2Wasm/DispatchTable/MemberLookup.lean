import Dart2Wasm.DispatchTable.CollectRun

/-!
# DispatchTable.MemberLookup — targets and member lookup

The target of a class for a selector is meant to be the member that lookup finds: the nearest
concrete declaration in the class and its ancestors. It is, as long as the declarations that
override each other are filed under one selector and declarations of different names are not.

Both can fail for getters. Whether a getter is called dynamically is known member by member, and
only those that are move to the selector of their name, so that a getter and its override can end up
in different selectors. Likewise a selector is forced into the table only if the first member that
is filed under it is called dynamically.
-/

namespace Dart2Wasm.DispatchTable

open Lib List Option

variable {N κ : Type} {r : MemberReference N κ}

namespace MemberReference

theorem Overrides.symm {r' : MemberReference N κ} (h : r.Overrides r') : r'.Overrides r :=
  ⟨h.1.symm, h.2.symm⟩

theorem Overrides.trans {r' r'' : MemberReference N κ} (h : r.Overrides r')
    (h' : r'.Overrides r'') : r.Overrides r'' :=
  ⟨h.1.trans h'.1, h.2.trans h'.2⟩

end MemberReference

namespace Program

variable (P : Program N κ)

/-- The targets are those of member lookup, and what is got dynamically is in the table. -/
structure TargetsCorrect (s : Selectors N κ) : Prop where
  /-- Only classes that declare or inherit a member of the selector have a target. -/
  understood : ∀ (id : Nat) (selector : SelectorInfo N κ) (c : ClassId) (t : MemberReference N κ),
    s.selectorInfo.get id = some selector → selector.targets.get c = some t →
    ∃ r ∈ P.declared c, P.selectorOf r = id
  /-- The target is the nearest concrete declaration, and abstract only if there is none. -/
  lookup : ∀ (c : ClassId), ∀ r ∈ P.declared c,
    ∃ (selector : SelectorInfo N κ) (t : MemberReference N κ),
      s.selectorInfo.get (P.selectorOf r) = some selector ∧ selector.targets.get c = some t ∧
      (lookupMember (P.declared c) r).elim (t.isAbstract = true) (t = ·)
  forced : ∀ (text : String) (id : Nat), s.dynamicGets.get text = some id →
    ∃ selector : SelectorInfo N κ, s.selectorInfo.get id = some selector ∧ selector.forced = true

/-- The selector ids fit the classes. -/
structure Consistent : Prop where
  /-- A declaration is filed where the declarations it overrides are. -/
  together : ∀ (c : ClassId), ∀ r ∈ P.declared c, ∀ t, lookupMember (P.declared c) r = some t →
    P.selectorOf t = P.selectorOf r
  /-- No concrete declaration of another name is filed there. -/
  separate : ∀ (c : ClassId), ∀ r ∈ P.declared c, ∀ t ∈ P.declared c, t.isAbstract = false →
    P.selectorOf t = P.selectorOf r → t.Overrides r
  /-- The first declaration filed under the selector of a dynamic get is called dynamically. -/
  dynamicFirst : ∀ (text : String) (id : Nat),
    dynamicGet P.references text = some id → ∀ r,
    (filed P.references id P.references).head? = some r → r.calledDynamically = true

end Program

/-! ## Targets and lookup -/

section Lookup

variable {all refs : References N κ} {r t : MemberReference N κ}

theorem concrete_of_lookupMember (h : lookupMember refs r = some t) :
    t ∈ refs ∧ t.isAbstract = false ∧ t.Overrides r := by
  have hprop := find?_some h
  have hmem := mem_of_find?_eq_some h
  simp only [Bool.and_eq_true, Bool.not_eq_true', decide_eq_true_eq] at hprop
  exact ⟨mem_reverse.1 hmem, hprop⟩

/-- The last element with a property is the last with a stronger one, if it has it. -/
theorem find?_of_imp {α : Type} {l : List α} {p q : α → Bool} {a : α} (h : l.find? q = some a)
    (hp : p a = true) (himp : ∀ x ∈ l, p x = true → q x = true) : l.find? p = some a := by
  rcases find?_eq_some_iff_append.1 h with ⟨-, before, after, rfl, hbefore⟩
  refine find?_eq_some_iff_append.2 ⟨hp, before, after, rfl, fun x hx => ?_⟩
  have hq := hbefore x hx
  rcases hpx : p x with _ | _
  · rfl
  · rw [himp x (mem_append_left _ hx) hpx] at hq
    cases hq

theorem find?_filed (id : Nat) :
    ((filed all id refs).reverse.find? fun x => !x.isAbstract) =
      refs.reverse.find? fun x => decide (selectorOf all x = id) && !x.isAbstract := by
  rw [filed, ← filter_reverse, find?_filter]
  simp only [decide_eq_true_eq, Bool.decide_and, Bool.decide_eq_true]

/-- The target, where the selector ids fit. -/
theorem targetOf_filed_of_consistent
    (htogether : ∀ t, lookupMember refs r = some t → selectorOf all t = selectorOf all r)
    (hseparate : ∀ t ∈ refs, t.isAbstract = false → selectorOf all t = selectorOf all r →
      t.Overrides r) (htarget : targetOf (filed all (selectorOf all r) refs) = some t) :
    (lookupMember refs r).elim (t.isAbstract = true) (t = ·) := by
  rcases hlookup : lookupMember refs r with _ | u
  · -- A concrete target would be found by the lookup.
    rcases hconcrete : t.isAbstract with _ | _
    · rcases mem_filed.1 (mem_of_targetOf htarget) with ⟨hmem, hid⟩
      have hno := find?_eq_none.1 hlookup t (mem_reverse.2 hmem)
      simp [hconcrete, hseparate t hmem hconcrete hid] at hno
    · rfl
  · rcases concrete_of_lookupMember hlookup with ⟨hmem, hconcrete, -⟩
    have hfind : ((filed all (selectorOf all r) refs).reverse.find? fun x => !x.isAbstract) =
        some u := by
      rw [find?_filed]
      refine find?_of_imp hlookup (by simp [hconcrete, htogether u hlookup]) fun x hx hpx => ?_
      simp only [Bool.and_eq_true, decide_eq_true_eq, Bool.not_eq_true'] at hpx
      simp [hpx.2, hseparate x (mem_reverse.1 hx) hpx.2 hpx.1]
    rw [targetOf_eq_some hfind] at htarget
    exact (some.inj htarget).symm

theorem targetOf_filed_concrete {u : MemberReference N κ} (hmem : t ∈ refs)
    (hconcrete : t.isAbstract = false) (hid : selectorOf all t = selectorOf all r)
    (htarget : targetOf (filed all (selectorOf all r) refs) = some u) : u.isAbstract = false := by
  rcases hfind : (filed all (selectorOf all r) refs).reverse.find? fun x => !x.isAbstract with _ | v
  · have hno := find?_eq_none.1 hfind t (mem_reverse.2 (mem_filed.2 ⟨hmem, hid⟩))
    simp [hconcrete] at hno
  · rw [targetOf_eq_some hfind] at htarget
    obtain rfl := some.inj htarget
    simpa using find?_some hfind

end Lookup

/-! ## The result -/

namespace Program

variable [DecidableEq N] {P : Program N κ} {s : Selectors N κ × List (List Nat)}

omit [DecidableEq N] in
theorem lt_of_mem_declared {c : ClassId} (h : r ∈ P.declared c) : c < P.classes.length := by
  rcases hinfo : P.classes[c]? with _ | info
  · rw [declared, declaredFrom, hinfo] at h
    cases h
  · exact (List.getElem?_eq_some_iff.1 hinfo).1

section

variable (h : P.Visited P.classes.length s)
include h

theorem Visited.targets (id : Nat) (c : ClassId) :
    ((s.1.selectorInfo.get id).bind fun x => x.targets.get c) =
      targetOf (filed P.references id (P.declared c)) := by
  rw [h.collected.targets, targetsBefore]
  split
  · rfl
  · rename_i hge
    refine (targetOf_filed_eq_none ?_).symm
    rintro ⟨r, hr, -⟩
    exact hge (lt_of_mem_declared hr)

theorem Visited.selectors (id : Nat) :
    (s.1.selectorInfo.get id).map SelectorInfo.toSelectorHeader =
      header P.selectorMetadata id (filed P.references id P.references) := by
  have hselectors := h.collected.selectors id
  rwa [referencesBefore, take_length] at hselectors

theorem Visited.dynamicGets (text : String) :
    s.1.dynamicGets.get text = dynamicGet P.references text := by
  have hgets := h.collected.dynamicGets text
  rwa [referencesBefore, take_length] at hgets

theorem Visited.forced
    {id : Nat} {selector : SelectorInfo N κ} (hget : s.1.selectorInfo.get id = some selector) :
    ∃ r, (filed P.references id P.references).head? = some r ∧
      selector.forced = r.calledDynamically := by
  have hheader := h.selectors id
  rw [hget] at hheader
  revert hheader
  rcases filed P.references id P.references with _ | ⟨r, rest⟩
  · intro hheader
    cases hheader
  · intro hheader
    exact ⟨r, rfl, congrArg SelectorHeader.forced (some.inj hheader)⟩

theorem Visited.exists_target {c : ClassId} (hr : r ∈ P.declared c) :
    ∃ (selector : SelectorInfo N κ) (t : MemberReference N κ),
      s.1.selectorInfo.get (P.selectorOf r) = some selector ∧ selector.targets.get c = some t ∧
      targetOf (filed P.references (P.selectorOf r) (P.declared c)) = some t := by
  have htargets := h.targets (P.selectorOf r) c
  rcases targetOf_isSome (ne_nil_of_mem (mem_filed.2 ⟨hr, rfl⟩)) with ⟨t, ht⟩
  rw [ht] at htargets
  rcases bind_eq_some_iff.1 htargets with ⟨selector, hget, hselector⟩
  exact ⟨selector, t, hget, hselector, ht⟩

theorem Visited.exists_dynamic {text : String} {id : Nat}
    (hget : dynamicGet P.references text = some id) :
    ∃ selector : SelectorInfo N κ, s.1.selectorInfo.get id = some selector := by
  have hheader := h.selectors id
  rcases map_eq_some_iff.1 hget with ⟨g, hfind, hid⟩
  have hg := find?_some hfind
  simp only [MemberReference.isDynamicGet, Bool.and_eq_true, beq_iff_eq] at hg
  have hselector : P.selectorOf g = id := by
    rw [selectorOf, DispatchTable.selectorOf, if_pos hg.1, hg.2, hget]
    rfl
  have hmem := mem_filed.2 ⟨mem_of_find?_eq_some hfind, hselector⟩
  revert hheader hmem
  rcases filed P.references id P.references with _ | ⟨r, rest⟩
  · intro _ hmem
    cases hmem
  · rcases s.1.selectorInfo.get id with _ | selector
    · intro hheader
      cases hheader
    · exact fun _ _ => ⟨selector, rfl⟩

theorem Visited.targetsCorrect (hconsistent : P.Consistent) :
    P.TargetsCorrect s.1 where
  understood := fun id selector c t hget hselector => by
    have htargets := h.targets id c
    rw [hget, Option.bind_some, hselector] at htargets
    exact ⟨t, mem_filed.1 (mem_of_targetOf htargets.symm)⟩
  lookup := fun c r hr => by
    rcases h.exists_target hr with ⟨selector, t, hget, hselector, htarget⟩
    exact ⟨selector, t, hget, hselector, targetOf_filed_of_consistent (hconsistent.together c r hr)
      (fun u hu => hconsistent.separate c r hr u hu) htarget⟩
  forced := fun text id hget => by
    rw [h.dynamicGets] at hget
    rcases h.exists_dynamic hget with ⟨selector, hselector⟩
    rcases h.forced hselector with ⟨r, hfirst, hforced⟩
    exact ⟨selector, hselector, hforced.trans (hconsistent.dynamicFirst text id hget r hfirst)⟩

theorem Visited.consistent (hcorrect : P.TargetsCorrect s.1) : P.Consistent := by
  have hlookup : ∀ (c : ClassId), ∀ r ∈ P.declared c, ∀ t,
      targetOf (filed P.references (P.selectorOf r) (P.declared c)) = some t →
      (lookupMember (P.declared c) r).elim (t.isAbstract = true) (t = ·) := by
    intro c r hr t ht
    rcases hcorrect.lookup c r hr with ⟨selector, t', hget, hselector, hfound⟩
    have htargets := h.targets (P.selectorOf r) c
    rw [hget, bind_some, hselector, ht] at htargets
    rwa [← some.inj htargets]
  refine ⟨fun c r hr t ht => ?_, fun c r hr t hmem hconcrete hid => ?_, fun text id hget r hr => ?_⟩
  · rcases h.exists_target hr with ⟨-, u, -, -, htarget⟩
    have hfound := hlookup c r hr u htarget
    rw [ht] at hfound
    obtain rfl : u = t := hfound
    exact (mem_filed.1 (mem_of_targetOf htarget)).2
  · -- Both declarations have the same target, which lookup finds for each of them.
    rcases h.exists_target hr with ⟨-, u, -, -, htarget⟩
    have hu := targetOf_filed_concrete hmem hconcrete hid htarget
    have hover : ∀ x ∈ P.declared c, P.selectorOf x = P.selectorOf r → u.Overrides x := by
      intro x hx hxid
      have hfound := hlookup c x hx u (by rw [hxid]; exact htarget)
      rcases hx' : lookupMember (P.declared c) x with _ | v
      · rw [hx', Option.elim, hu] at hfound
        cases hfound
      · rw [hx'] at hfound
        obtain rfl : u = v := hfound
        exact (concrete_of_lookupMember hx').2.2
    exact (hover t hmem hid).symm.trans (hover r hr rfl)
  · rcases hcorrect.forced text id (by rw [h.dynamicGets]; exact hget) with
      ⟨selector, hselector, hforced⟩
    rcases h.forced hselector with ⟨r', hfirst, heq⟩
    rw [hr] at hfirst
    obtain rfl := some.inj hfirst
    rw [← heq, hforced]

end

/-- The collection phase ends, and its targets are those of member lookup if and only if the
selector ids fit the classes. -/
theorem collect_targets_iff (hwf : P.WellFormed) :
    ∃ s, P.collect = some s ∧ (P.TargetsCorrect s.1 ↔ P.Consistent) := by
  rcases collect_visited hwf with ⟨s, hcollect, hvisited⟩
  exact ⟨s, hcollect, hvisited.consistent, hvisited.targetsCorrect⟩

end Program

/-! ## A getter and its override in different selectors -/

def sampleGetter (id selectorId : Nat) (dynamic : Bool) : Procedure String Nat where
  id := id
  name := ⟨"x", none⟩
  isAbstract := false
  attributes := ⟨0, selectorId, dynamic⟩
  kind := .getter
  function := ⟨0, [], 0, [], List.nodup_nil⟩
  returnType := some ⟨0, false⟩

/-- `class C { get x }`, `class D { get x }` and `class E extends D { get x }`; `C.x` and `D.x` are
called dynamically. -/
def sampleProgram (dynamic : Bool) : Program String Nat where
  selectorMetadata := fun _ => ⟨1, false⟩
  classes :=
    [⟨none, []⟩, ⟨some 0, [.procedure (sampleGetter 1 1 true)]⟩,
      ⟨some 0, [.procedure (sampleGetter 2 2 true)]⟩,
      ⟨some 2, [.procedure (sampleGetter 3 2 dynamic)]⟩]

theorem sampleProgram_wellFormed (dynamic : Bool) : (sampleProgram dynamic).WellFormed where
  superInfo_lt := fun c info superId hinfo hsuper => by
    have hall : ∀ c : Fin (sampleProgram dynamic).classes.length, ∀ superId,
        ((sampleProgram dynamic).classes.get c).superInfo = some superId → superId < c.1 := by
      cases dynamic <;> decide
    rcases List.getElem?_eq_some_iff.1 hinfo with ⟨hlt, rfl⟩
    exact hall ⟨c, hlt⟩ superId hsuper
  getter_not_tornOff := fun _ _ _ => rfl

/-- Where `E.x` is not called dynamically, a call of `x` with interface target `D.x` on an instance
of `E` runs `D.x`. -/
theorem sampleProgram_wrong_target :
    (sampleProgram false).WellFormed ∧
      (sampleProgram false).collect.map (fun s =>
        ((s.1.selectorInfo.get ((sampleProgram false).selectorOf
          (.procedure (sampleGetter 2 2 true)))).bind fun x => x.targets.get 3).map
            fun t => t.asMember.id) = some (some 2) ∧
      (lookupMember ((sampleProgram false).declared 3) (.procedure (sampleGetter 2 2 true))).map
        (fun t => t.asMember.id) = some 3 :=
  ⟨sampleProgram_wellFormed false, by decide +kernel, by decide +kernel⟩

theorem collect_targets_iff_sample :
    ∃ s, (sampleProgram true).collect = some s ∧
      ((sampleProgram true).TargetsCorrect s.1 ↔ (sampleProgram true).Consistent) :=
  Program.collect_targets_iff (sampleProgram_wellFormed true)

end Dart2Wasm.DispatchTable
