import Dart2Wasm.Lib.Run
import Dart2Wasm.DispatchTable.Collect

/-!
# DispatchTable.CollectRun — the state of the collection phase

What the selectors are after the references of some classes have been visited: the header of a
selector is that of its references in the order of the visits, and its target for a class is that of
its references in the class and its ancestors. The id under which a reference is filed is known
beforehand, since the first getter of a name that is called dynamically decides it for all of them.
-/

namespace Dart2Wasm.DispatchTable

open Lib MemberReference OrderedMap List Nat
open Option hiding mem_map

variable {N κ : Type} {all seen : References N κ} {r : MemberReference N κ}

/-! ## Selector ids -/

theorem dynamicGet_append (refs : References N κ) (r : MemberReference N κ) (text : String) :
    dynamicGet (refs ++ [r]) text =
      (dynamicGet refs text).or (if r.isDynamicGet text then some r.selectorId else none) := by
  unfold dynamicGet
  rw [find?_append]
  cases refs.find? (isDynamicGet text) with
  | none =>
    by_cases h : r.isDynamicGet text = true
    · simp [h]
    · simp [h]
  | some t => rfl

theorem dynamicGet_extend {text : String} {id : Nat} (hpre : seen <+: all)
    (h : dynamicGet seen text = some id) : dynamicGet all text = some id := by
  rcases hpre with ⟨rest, rfl⟩
  unfold dynamicGet at h ⊢
  rw [find?_append]
  cases hfind : seen.find? (isDynamicGet text) with
  | none =>
    rw [hfind] at h
    cases h
  | some t =>
    rw [hfind] at h
    exact h

/-- The merging of getters finds the id of the selector. -/
theorem mergeDynamic_eq {gets : OrderedMap String Nat}
    (hgets : ∀ text, gets.get text = dynamicGet seen text) (hpre : seen ++ [r] <+: all) :
    (mergeDynamic gets r).2 = selectorOf all r ∧
      ∀ text, (mergeDynamic gets r).1.get text = dynamicGet (seen ++ [r]) text := by
  have hnext := fun text => dynamicGet_append seen r text
  unfold mergeDynamic selectorOf
  rcases hdyn : r.calledDynamically with _ | _
  · refine ⟨rfl, fun text => ?_⟩
    simp [hnext, isDynamicGet, hdyn, hgets]
  have hself := hnext r.asMember.name.text
  rw [if_pos (by simp [isDynamicGet, hdyn])] at hself
  rw [hgets]
  rcases hget : dynamicGet seen r.asMember.name.text with _ | id
  · rw [hget, none_or] at hself
    refine ⟨by simp [dynamicGet_extend hpre hself], fun text => ?_⟩
    rw [if_pos rfl, get_set, hnext, isDynamicGet, hdyn]
    by_cases htext : text = r.asMember.name.text
    · simp [htext, hget]
    · have hne : ¬ r.asMember.name.text = text := fun h => htext h.symm
      simp [htext, hne, hgets]
  · rw [hget, some_or] at hself
    refine ⟨by simp [dynamicGet_extend hpre hself], fun text => ?_⟩
    rw [if_pos rfl, hnext, isDynamicGet, hdyn]
    by_cases htext : text = r.asMember.name.text
    · simp [htext, hget, hgets]
    · have hne : ¬ r.asMember.name.text = text := fun h => htext h.symm
      simp [hne, hgets]

theorem selectorOf_of_not_getter (h : r.isGetter = false) : selectorOf all r = r.selectorId := by
  simp [selectorOf, calledDynamically, h]

/-- The selector of a getter is one that the metadata gives to a getter. -/
theorem selectorOf_getter (hmem : r ∈ all) (h : r.isGetter = true) :
    ∃ g ∈ all, g.isGetter = true ∧ selectorOf all r = g.selectorId := by
  unfold selectorOf dynamicGet
  split
  · cases hfind : all.find? (isDynamicGet r.asMember.name.text) with
    | none => exact ⟨r, hmem, h, rfl⟩
    | some g =>
      have hg := find?_some hfind
      simp only [isDynamicGet, Bool.and_eq_true, calledDynamically] at hg
      exact ⟨g, mem_of_find?_eq_some hfind, hg.1.1, rfl⟩
  · exact ⟨r, hmem, h, rfl⟩

/-! ## One reference -/

/-- The state after the references `seen`, where `T` says which targets are set. -/
structure Collected [DecidableEq N] (selectorMetadata : Nat → TableSelectorInfo)
    (all seen : References N κ) (T : Targets N κ) (s : Selectors N κ) : Prop where
  dynamicGets : ∀ text, s.dynamicGets.get text = dynamicGet seen text
  selectors : ∀ id, (s.selectorInfo.get id).map SelectorInfo.toSelectorHeader =
    header selectorMetadata id (filed all id seen)
  targets : ∀ id c, ((s.selectorInfo.get id).bind fun x => x.targets.get c) = T id c

/-- The targets after the references `refs` of class `c`. -/
def withReferences (all : References N κ) (c : ClassId) (refs : References N κ) (T : Targets N κ) :
    Targets N κ := fun id c' =>
  if c' = c then
    (filed all id refs).foldl (fun old r => some (newTarget old r)) (T id c)
  else T id c'

theorem withReferences_append (c : ClassId) (refs refs' : References N κ) (T : Targets N κ) :
    withReferences all c refs' (withReferences all c refs T) =
      withReferences all c (refs ++ refs') T := by
  funext id c'
  by_cases h : c' = c <;> simp [withReferences, h, foldl_append]

variable [DecidableEq N] {selectorMetadata : Nat → TableSelectorInfo} {s : Selectors N κ}
  {T : Targets N κ}

theorem Collected.addMember (h : Collected selectorMetadata all seen T s)
    (hpre : seen ++ [r] <+: all) (c : ClassId) (ids : List Nat) :
    (addMember selectorMetadata c (s, ids) r).1.tornOff =
        (selectorMetadata (selectorOf all r)).tornOff ∧
      Collected selectorMetadata all (seen ++ [r]) (withReferences all c [r] T)
        (addMember selectorMetadata c (s, ids) r).2.1 ∧
      (addMember selectorMetadata c (s, ids) r).2.2 = ids ++ [selectorOf all r] := by
  rcases mergeDynamic_eq h.dynamicGets hpre with ⟨hid, hgets⟩
  have hheader := h.selectors (selectorOf all r)
  have htargets := h.targets (selectorOf all r)
  simp only [DispatchTable.addMember, selectorForTarget, hid]
  refine ⟨?_, ⟨fun text => hgets text, fun id => ?_, fun id c' => ?_⟩, trivial⟩
  · revert hheader
    rcases s.selectorInfo.get (selectorOf all r) with _ | x
    · exact fun _ => rfl
    intro hheader
    rcases hseen : filed all (selectorOf all r) seen with _ | ⟨first, refs⟩
    · rw [hseen] at hheader
      cases hheader
    · rw [hseen] at hheader
      exact congrArg SelectorHeader.tornOff (some.inj hheader)
  · simp only [get_set, filed_append, filed_singleton]
    by_cases heq : id = selectorOf all r
    · subst heq
      rw [if_pos rfl, if_pos rfl, header_append, ← hheader]
      rcases s.selectorInfo.get (selectorOf all r) with _ | x <;> rfl
    · rw [if_neg heq, if_neg heq, if_neg fun h => heq h.symm, append_nil]
      exact h.selectors id
  · simp only [get_set, withReferences, filed_singleton]
    by_cases heq : id = selectorOf all r
    · subst heq
      rw [if_pos rfl]
      simp only [bind_some, get_set]
      by_cases hc : c' = c
      · subst hc
        simp only [if_true, foldl_cons, foldl_nil, ← htargets c']
        rcases s.selectorInfo.get (selectorOf all r) with _ | x <;> rfl
      · rw [if_neg hc, if_neg hc, ← htargets c']
        rcases s.selectorInfo.get (selectorOf all r) with _ | x <;> rfl
    · have hne : ¬ selectorOf all r = id := fun h => heq h.symm
      rw [if_neg heq, if_neg heq, h.targets]
      by_cases hc : c' = c <;> simp [hc, hne]

/-! ## One class -/

omit [DecidableEq N] in
theorem withReferences_nil (c : ClassId) : withReferences all c [] T = T := by
  funext id c'
  by_cases h : c' = c <;> simp [withReferences, h]

section

variable (h : Collected selectorMetadata all seen T s)
include h

theorem Collected.addMember_pair {r' : MemberReference N κ} (hpre : seen ++ [r, r'] <+: all)
    (c : ClassId) (ids : List Nat) :
    let s' := (DispatchTable.addMember selectorMetadata c (s, ids) r).2
    Collected selectorMetadata all (seen ++ [r, r']) (withReferences all c [r, r'] T)
        (DispatchTable.addMember selectorMetadata c s' r').2.1 ∧
      (DispatchTable.addMember selectorMetadata c s' r').2.2 =
        ids ++ [selectorOf all r, selectorOf all r'] := by
  intro s'
  have hpre' : seen ++ [r] <+: all := by
    refine List.IsPrefix.trans ⟨[r'], ?_⟩ hpre
    simp
  have happend : seen ++ [r, r'] = (seen ++ [r]) ++ [r'] := by simp
  rcases h.addMember hpre' c ids with ⟨-, hfirst, hids⟩
  rcases hfirst.addMember (happend ▸ hpre) c s'.2 with ⟨-, hsecond, hids'⟩
  refine ⟨?_, ?_⟩
  · rw [happend, show [r, r'] = [r] ++ [r'] from rfl, ← withReferences_append]
    exact hsecond
  · refine hids'.trans ?_
    rw [show s'.2 = ids ++ [selectorOf all r] from hids]
    simp

/-- One member: the references of the member, in this order. -/
theorem Collected.addMembers (m : Member N κ) (hpre : seen ++ m.references selectorMetadata <+: all)
    (hgetter : ∀ g ∈ all, g.isGetter = true → (selectorMetadata g.selectorId).tornOff = false)
    (c : ClassId) (ids : List Nat) :
    Collected selectorMetadata all (seen ++ m.references selectorMetadata)
        (withReferences all c (m.references selectorMetadata) T)
        (DispatchTable.addMembers selectorMetadata c (s, ids) m).1 ∧
      (DispatchTable.addMembers selectorMetadata c (s, ids) m).2 =
        ids ++ (m.references selectorMetadata).map (selectorOf all) := by
  cases m with
  | field f =>
    simp only [Member.references, DispatchTable.addMembers] at hpre ⊢
    by_cases hsetter : f.hasSetter = true
    · rw [if_pos hsetter] at hpre ⊢
      rw [if_pos hsetter]
      exact h.addMember_pair hpre c ids
    · rw [if_neg hsetter] at hpre ⊢
      rw [if_neg hsetter]
      exact (h.addMember hpre c ids).2
  | procedure p =>
    have hmem : procedure p ∈ all :=
      hpre.subset (mem_append_right _ mem_cons_self)
    have hpre' : seen ++ [procedure p] <+: all := by
      refine List.IsPrefix.trans ?_ hpre
      exact (prefix_append_right_inj seen).2 (prefix_append [_] _)
    have hfirst := h.addMember hpre' c ids
    -- Whether there is a tear-off depends on the selector under which the procedure is filed.
    have htornOff : (DispatchTable.addMember selectorMetadata c (s, ids) (.procedure p)).1.tornOff =
        decide (p.kind ≠ .getter ∧
          (selectorMetadata p.attributes.methodOrSetterSelectorId).tornOff = true) := by
      rw [hfirst.1]
      by_cases hkind : p.kind = .getter
      · rcases selectorOf_getter hmem (by simp [isGetter, hkind]) with
          ⟨g, hg, hisGetter, hid⟩
        rw [hid, hgetter g hg hisGetter]
        simp [hkind]
      · have hisGetter : (procedure p).isGetter = false := by
          simp [isGetter, hkind]
        rw [selectorOf_of_not_getter hisGetter, selectorId, hisGetter]
        simp [hkind, asMember]
    simp only [Member.references, DispatchTable.addMembers, htornOff, decide_eq_true_eq] at hpre ⊢
    by_cases hboth : p.kind ≠ .getter ∧
        (selectorMetadata p.attributes.methodOrSetterSelectorId).tornOff = true
    · rw [if_pos hboth] at hpre ⊢
      rw [if_pos hboth]
      exact h.addMember_pair hpre c ids
    · rw [if_neg hboth] at hpre ⊢
      rw [if_neg hboth]
      exact hfirst.2

theorem Collected.members (ms : List (Member N κ))
    (hpre : seen ++ ms.flatMap (Member.references selectorMetadata) <+: all)
    (hgetter : ∀ g ∈ all, g.isGetter = true → (selectorMetadata g.selectorId).tornOff = false)
    (c : ClassId) (ids : List Nat) :
    Collected selectorMetadata all (seen ++ ms.flatMap (Member.references selectorMetadata))
        (withReferences all c (ms.flatMap (Member.references selectorMetadata)) T)
        (ms.foldl (DispatchTable.addMembers selectorMetadata c) (s, ids)).1 ∧
      (ms.foldl (DispatchTable.addMembers selectorMetadata c) (s, ids)).2 =
        ids ++ (ms.flatMap (Member.references selectorMetadata)).map (selectorOf all) := by
  induction ms generalizing seen T s ids with
  | nil => simpa [withReferences_nil] using h
  | cons m ms ih =>
    rw [flatMap_cons, ← append_assoc] at hpre
    have hfirst := h.addMembers m ((prefix_append _ _).trans hpre) hgetter c ids
    have hrest := ih hfirst.1 hpre (DispatchTable.addMembers selectorMetadata c (s, ids) m).2
    rw [flatMap_cons, ← append_assoc, ← withReferences_append, foldl_cons,
      map_append, ← append_assoc, ← hfirst.2]
    exact hrest

end

/-- The targets after the selectors `ids` have been inherited. -/
def withInherited (c superId : ClassId) (ids : List Nat)
    (T : Targets N κ) :
    Targets N κ := fun id c' =>
  if c' = c ∧ id ∈ ids then T id superId else T id c'

theorem Collected.inherit (h : Collected selectorMetadata all seen T s) {c superId : ClassId}
    {id : Nat} (hsome : (T id superId).isSome) :
    ∃ s', DispatchTable.inherit c superId s id = some s' ∧
      Collected selectorMetadata all seen (withInherited c superId [id] T) s' := by
  have htarget := h.targets id superId
  rcases hinfo : s.selectorInfo.get id with _ | x
  · rw [hinfo] at htarget
    rw [← htarget] at hsome
    cases hsome
  rw [hinfo, bind_some] at htarget
  rcases ht : x.targets.get superId with _ | t
  · rw [← htarget, ht] at hsome
    cases hsome
  refine ⟨⟨s.selectorInfo.set id { x with targets := x.targets.set c t }, s.dynamicGets⟩,
    by simp [DispatchTable.inherit, hinfo, ht], h.dynamicGets, fun id' => ?_, fun id' c' => ?_⟩
  · rw [← h.selectors id']
    simp only [get_set]
    by_cases heq : id' = id
    · rw [if_pos heq, heq, hinfo]
      rfl
    · rw [if_neg heq]
  · simp only [get_set, withInherited, mem_singleton]
    by_cases heq : id' = id
    · subst heq
      rw [if_pos rfl, bind_some, get_set]
      by_cases hc : c' = c
      · rw [if_pos hc, if_pos ⟨hc, rfl⟩, ← htarget, ht]
      · rw [if_neg hc, if_neg fun h => hc h.1, ← h.targets, hinfo, bind_some]
    · rw [if_neg heq, if_neg fun h => heq h.2]
      exact h.targets id' c'

theorem Collected.inheritFold (h : Collected selectorMetadata all seen T s) {c superId : ClassId}
    (hne : superId ≠ c) (ids : List Nat) (hsome : ∀ id ∈ ids, (T id superId).isSome) :
    ∃ s', ids.foldlM (DispatchTable.inherit c superId) s = some s' ∧
      Collected selectorMetadata all seen (withInherited c superId ids T) s' := by
  induction ids generalizing T s with
  | nil =>
    refine ⟨s, rfl, ?_⟩
    have heq : withInherited c superId [] T = T := by
      funext id c'
      simp [withInherited]
    rw [heq]
    exact h
  | cons id ids ih =>
    rcases h.inherit (c := c) (hsome id mem_cons_self) with ⟨s₁, hrun, h₁⟩
    have hsuper : ∀ id', withInherited c superId [id] T id' superId = T id' superId := fun id' => by
      simp [withInherited, hne]
    rcases ih h₁ (fun id' hid => (hsuper id').symm ▸ hsome id' (mem_cons_of_mem _ hid)) with
      ⟨s₂, hrest, h₂⟩
    refine ⟨s₂, ?_, ?_⟩
    · rw [foldlM_cons, hrun]
      exact hrest
    · have heq : withInherited c superId ids (withInherited c superId [id] T) =
          withInherited c superId (id :: ids) T := by
        funext id' c'
        unfold withInherited
        by_cases hc : c' = c
        · subst hc
          by_cases hid : id' = id <;> by_cases hids : id' ∈ ids <;> simp [hid, hids, hne]
        · simp [hc]
      exact heq ▸ h₂

/-! ## All classes -/

namespace Program

variable (P : Program N κ)

def referencesBefore (k : Nat) : References N κ :=
  DispatchTable.references P.selectorMetadata (P.classes.take k)

def targetsBefore (k : Nat) : Targets N κ := fun id c =>
  if c < k then targetOf (filed P.references id (P.declared c)) else none

def inherited (info : ClassDecl N κ) : References N κ :=
  info.superInfo.elim [] P.declared

/-- The state after the first `k` classes. -/
structure Visited (k : Nat) (s : Selectors N κ × List (List Nat)) : Prop where
  collected : Collected P.selectorMetadata P.references (P.referencesBefore k)
    (P.targetsBefore k) s.1
  length : s.2.length = k
  selectorsInClass : ∀ (c : ClassId) (ids : List Nat), s.2[c]? = some ids → ∀ id, id ∈ ids ↔
    ∃ r ∈ P.declared c, P.selectorOf r = id

variable {P} {k : Nat} {info : ClassDecl N κ}

omit [DecidableEq N] in
theorem referencesBefore_succ (hinfo : P.classes[k]? = some info) :
    P.referencesBefore (k + 1) =
      P.referencesBefore k ++ info.references P.selectorMetadata := by
  simp [referencesBefore, DispatchTable.references, take_add_one, hinfo]

omit [DecidableEq N] in
theorem referencesBefore_isInitial (P : Program N κ) (k : Nat) :
    P.referencesBefore k <+: P.references := by
  refine ⟨DispatchTable.references P.selectorMetadata (P.classes.drop k), ?_⟩
  rw [referencesBefore, DispatchTable.references, DispatchTable.references, ← flatMap_append,
    take_append_drop]
  rfl

omit [DecidableEq N] in
theorem targetOf_filed_eq_none {all refs : References N κ} {id : Nat}
    (h : ¬ ∃ r ∈ refs, DispatchTable.selectorOf all r = id) :
    targetOf (filed all id refs) = none := by
  have hnil : filed all id refs = [] := by
    rw [eq_nil_iff_forall_not_mem]
    intro r hr
    exact h ⟨r, (mem_filed.1 hr).1, (mem_filed.1 hr).2⟩
  rw [hnil]
  rfl

theorem Visited.inheritAll {s : Selectors N κ × List (List Nat)}
    (hwf : P.WellFormed) (h : P.Visited k s) (hinfo : P.classes[k]? = some info) :
    ∃ s' ids, DispatchTable.inheritAll k info.superInfo s.1 s.2 = some (s', ids) ∧
      Collected P.selectorMetadata P.references (P.referencesBefore k)
        (fun id c => if c = k then targetOf (filed P.references id (P.inherited info))
          else P.targetsBefore k id c) s' ∧
      ∀ id, id ∈ ids ↔ ∃ r ∈ P.inherited info, P.selectorOf r = id := by
  have hnone : ∀ id, P.targetsBefore k id k = none := fun id => if_neg (lt_irrefl k)
  unfold inherited
  rcases hsuper : info.superInfo with _ | superId
  · refine ⟨s.1, [], rfl, ?_, by simp⟩
    convert h.collected using 1
    funext id c
    by_cases hc : c = k
    · rw [if_pos hc, hc, hnone]
      rfl
    · rw [if_neg hc]
  · have hlt := hwf.superInfo_lt k info superId hinfo hsuper
    rcases hids : s.2[superId]? with _ | ids
    · rw [getElem?_eq_none_iff, h.length] at hids
      exact absurd hlt (not_lt.2 hids)
    have hmem := h.selectorsInClass superId ids hids
    have hsuper : ∀ id, P.targetsBefore k id superId =
        targetOf (filed P.references id (P.declared superId)) := fun id => if_pos hlt
    have hsome : ∀ id ∈ ids, (P.targetsBefore k id superId).isSome := by
      intro id hid
      rcases (hmem id).1 hid with ⟨r, hr, hid⟩
      rcases targetOf_isSome (ne_nil_of_mem (mem_filed.2 ⟨hr, hid⟩)) with ⟨t, ht⟩
      rw [hsuper, ht]
      rfl
    rcases h.collected.inheritFold (Nat.ne_of_lt hlt) ids hsome with ⟨s', hrun, hcollected⟩
    refine ⟨s', ids, ?_, ?_, hmem⟩
    · simp only [DispatchTable.inheritAll, hids, Lib.some_bind, hrun]
      rfl
    · convert hcollected using 1
      funext id c
      unfold withInherited
      by_cases hc : c = k
      · by_cases hid : id ∈ ids
        · rw [if_pos hc, if_pos ⟨hc, hid⟩, hsuper]
          rfl
        · rw [if_pos hc, if_neg fun h => hid h.2, hc, hnone]
          exact targetOf_filed_eq_none fun hex => hid ((hmem id).2 hex)
      · rw [if_neg hc, if_neg fun h => hc h.1]

omit [DecidableEq N] in
/-- The targets of a class are those it inherits, changed by its own references. -/
theorem targetsBefore_succ (hwf : P.WellFormed) (hinfo : P.classes[k]? = some info) :
    P.targetsBefore (k + 1) =
      withReferences P.references k (info.references P.selectorMetadata) fun id c =>
        if c = k then targetOf (filed P.references id (P.inherited info))
        else P.targetsBefore k id c := by
  funext id c
  by_cases hc : c = k
  · have happend : filed P.references id (P.declared k) =
        filed P.references id (P.inherited info) ++
          filed P.references id (info.references P.selectorMetadata) := by
      rw [declared_eq hwf hinfo, filed_append]
      rfl
    simp only [withReferences, targetsBefore, hc, if_true, lt_succ_self, happend]
    simp only [targetOf, foldl_append]
  · have hlt : c < k + 1 ↔ c < k :=
      ⟨fun hlt => lt_of_le_of_ne (le_of_lt_succ hlt) hc, lt_succ_of_lt⟩
    simp only [withReferences, targetsBefore, hc, if_false, hlt]

theorem Visited.visitClass {s : Selectors N κ × List (List Nat)}
    (hwf : P.WellFormed) (h : P.Visited k s) (hinfo : P.classes[k]? = some info) :
    ∃ s', DispatchTable.visitClass P.selectorMetadata s info = some s' ∧
      P.Visited (k + 1) s' := by
  rcases h.inheritAll hwf hinfo with ⟨s₁, ids, hinherit, hcollected, hids⟩
  have hseen := referencesBefore_succ hinfo
  have hpre := hseen ▸ referencesBefore_isInitial P (k + 1)
  have hdeclared := declared_eq hwf hinfo
  rcases hcollected.members info.members hpre hwf.getter_not_tornOff k ids with ⟨hmembers, hnew⟩
  have htargets := targetsBefore_succ hwf hinfo
  refine ⟨_, by
    simp only [DispatchTable.visitClass, h.length, hinherit, Lib.some_bind]
    rfl, ⟨?_, by simp [h.length], fun c ids' hc id => ?_⟩⟩
  · rw [hseen, htargets]
    exact hmembers
  · rw [getElem?_append] at hc
    split at hc
    · exact h.selectorsInClass c ids' hc id
    rename_i hge
    have heq : c = k := by
      rw [h.length] at hge hc
      rcases eq_or_lt_of_le (not_lt.1 hge) with heq | hlt
      · exact heq.symm
      · rw [getElem?_eq_none (Nat.succ_le_of_lt (Nat.sub_pos_of_lt hlt))] at hc
        cases hc
    subst heq
    rw [h.length, Nat.sub_self] at hc
    obtain rfl := some.inj hc
    rw [hnew, hdeclared, mem_append, hids]
    simp only [mem_append, mem_map, or_and_right, exists_or]
    rfl

/-- The collection phase ends, and its state is that of all classes. -/
theorem collect_visited (hwf : P.WellFormed) :
    ∃ s, P.collect = some s ∧ P.Visited P.classes.length s := by
  have hrun : ∀ k ≤ P.classes.length, ∃ s,
      DispatchTable.collect P.selectorMetadata (P.classes.take k) = some s ∧ P.Visited k s := by
    intro k hk
    induction k with
    | zero =>
      refine ⟨(⟨.empty, .empty⟩, []), by simp [DispatchTable.collect],
        ⟨⟨fun text => ?_, fun id => ?_,
        fun id c => ?_⟩, rfl, by simp⟩⟩
      · simp [referencesBefore, DispatchTable.references, dynamicGet, get_empty]
      · simp [referencesBefore, DispatchTable.references, header, get_empty]
      · simp [targetsBefore, get_empty]
    | succ k ih =>
      rcases ih (le_of_succ_le hk) with ⟨s, hcollect, hvisited⟩
      have hinfo : P.classes[k]? = some (P.classes.get ⟨k, hk⟩) := by simp
      rcases hvisited.visitClass hwf hinfo with ⟨s', hstep, hvisited'⟩
      refine ⟨s', ?_, hvisited'⟩
      rw [DispatchTable.collect] at hcollect
      rw [DispatchTable.collect, take_add_one, hinfo, foldlM_append, hcollect]
      simp only [toList_some, foldlM_cons, foldlM_nil, Lib.some_bind, hstep]
      rfl
  have hall := hrun P.classes.length le_rfl
  rwa [take_length] at hall

end Program

end Dart2Wasm.DispatchTable
