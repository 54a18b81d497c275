import Dart2Wasm.Lib.Pointwise
import Dart2Wasm.Lib.Simulation
import Dart2Wasm.CoreLibrary.SplayTreeOrder

/-!
# SplayTreeRefinement — splay trees and sorted association lists

The abstract map is a sorted association list with a count of the changes of its keys, which is what
`ConcurrentModificationError` is about. The methods that call back compare two counters when the
callback returns. `_splayCount` is meant to tell them that the root is another one, but `_first` and
`_last` move the root without counting. So the maps refine the lists if no callback asks for the
first or the last key, or makes so many calls that a counter of 64 bits can come round;
`firstKey_in_callback` shows what happens otherwise.
-/

namespace Dart2Wasm.SplayTree

open Lib

variable {K V : Type} {calls : List (Call K V)}

/-! ## Sorted association lists -/

structure SpecMap (K V : Type) where
  entries : List (K × V) := []
  modifications : Nat := 0

def specRemove (keys : Keys K) (m : SpecMap K V) (key : K) : SpecMap K V :=
  { entries := Lib.erase keys.compare key m.entries
    modifications :=
      m.modifications + (if (Lib.lookup keys.compare key m.entries).isSome then 1 else 0) }

def specSet (keys : Keys K) (m : SpecMap K V) (key : K) (value : V) : SpecMap K V :=
  { entries := Lib.put keys.compare key value m.entries
    modifications :=
      m.modifications + (if (Lib.lookup keys.compare key m.entries).isSome then 0 else 1) }

/-- What a method does that set a callback off in `m` and finds `m'`. -/
def specAfterCallback (keys : Keys K) (m : SpecMap K V) (key : K) (m' : SpecMap K V) (value : V) :
    SpecMap K V × Answer K V :=
  if m.modifications ≠ m'.modifications then (m', .concurrentModification)
  else (specSet keys m' key value, .value (some value))

section SpecExec

variable (keys : Keys K)

mutual

def specExec : Call K V → SpecMap K V → SpecMap K V × List (Answer K V)
  | .get key, m =>
    (m, [.value (if keys.validKey key then (Lib.lookup keys.compare key m.entries).map Prod.snd
      else none)])
  | .set key value, m => (specSet keys m key value, [.done])
  | .remove key, m =>
    if keys.validKey key then
      (specRemove keys m key, [.value ((Lib.lookup keys.compare key m.entries).map Prod.snd)])
    else (m, [.value none])
  | .putIfAbsent key ifAbsent result, m =>
    match Lib.lookup keys.compare key m.entries with
    | some (_, v) => (m, [.value (some v)])
    | none => finish (specExecAll ifAbsent m) result (specAfterCallback keys m key)
  | .update key update result, m =>
    match Lib.lookup keys.compare key m.entries with
    | some (_, v) => finish (specExecAll (update v) m) (result v) (specAfterCallback keys m key)
    | none => (m, [.argumentError])
  | .updateOrAdd key update result ifAbsent added, m =>
    match Lib.lookup keys.compare key m.entries with
    | some (_, v) => finish (specExecAll (update v) m) (result v) (specAfterCallback keys m key)
    | none => finish (specExecAll ifAbsent m) added (specAfterCallback keys m key)
  | .containsKey key, m =>
    (m, [.flag (keys.validKey key && (Lib.lookup keys.compare key m.entries).isSome)])
  | .firstKey, m => (m, [.key (m.entries.head?.map Prod.fst)])
  | .lastKey, m => (m, [.key (m.entries.getLast?.map Prod.fst)])
  | .lastKeyBefore key, m =>
    if keys.isNull key then (m, [.argumentError])
    else (m, [.key ((Lib.lastBefore keys.compare key m.entries).map Prod.fst)])
  | .firstKeyAfter key, m =>
    if keys.isNull key then (m, [.argumentError])
    else (m, [.key ((Lib.firstAfter keys.compare key m.entries).map Prod.fst)])
  | .clear, m => ({ entries := [], modifications := m.modifications + 1 }, [.done])
  | .length, m => (m, [.number m.entries.length])
  | .entries, m => (m, [.entries m.entries])

def specExecAll : List (Call K V) → SpecMap K V → SpecMap K V × List (Answer K V)
  | [], m => (m, [])
  | call :: calls, m =>
    let (m, log) := specExec call m
    let (m, log') := specExecAll calls m
    (m, log ++ log')

end

end SpecExec

/-! ## Callbacks that do not move the root unnoticed -/

mutual

/-- The call and the callbacks in it are at most `n` calls, none of which asks for the first or the
last key. -/
def Call.quiet : Call K V → Nat → Prop
  | .putIfAbsent _ ifAbsent _, n => ∃ m < n, quietAll ifAbsent m
  | .update _ callback _, n => ∃ m < n, ∀ v, quietAll (callback v) m
  | .updateOrAdd _ callback _ ifAbsent _, n =>
    ∃ m < n, (∀ v, quietAll (callback v) m) ∧ quietAll ifAbsent m
  | .firstKey, _ => False
  | .lastKey, _ => False
  | _, n => 0 < n

def quietAll : List (Call K V) → Nat → Prop
  | [], _ => True
  | call :: calls, n => ∃ a b, a + b ≤ n ∧ call.quiet a ∧ quietAll calls b

end

/-- A call adds at most three to a counter, so that fewer calls than a third of `2 ^ 64` cannot
bring it round. -/
def quietCallback (calls : List (Call K V)) : Prop := ∃ n, 3 * n < 2 ^ 64 ∧ quietAll calls n

/-- The callbacks of the call are quiet. -/
def Call.settled : Call K V → Prop
  | .putIfAbsent _ ifAbsent _ => quietCallback ifAbsent
  | .update _ callback _ => ∀ v, quietCallback (callback v)
  | .updateOrAdd _ callback _ ifAbsent _ =>
    (∀ v, quietCallback (callback v)) ∧ quietCallback ifAbsent
  | _ => True

theorem Call.settled_of_quiet {call : Call K V} {n : Nat} (hn : 3 * n < 2 ^ 64)
    (h : call.quiet n) : call.settled := by
  cases call with
  | putIfAbsent key ifAbsent result =>
    obtain ⟨m, hm, hquiet⟩ := h
    exact ⟨m, by omega, hquiet⟩
  | update key update result =>
    obtain ⟨m, hm, hquiet⟩ := h
    exact fun v => ⟨m, by omega, hquiet v⟩
  | updateOrAdd key update result ifAbsent added =>
    obtain ⟨m, hm, hquiet, hquiet'⟩ := h
    exact ⟨fun v => ⟨m, by omega, hquiet v⟩, m, by omega, hquiet'⟩
  | _ => trivial

theorem quietAll_settled {n : Nat} (hn : 3 * n < 2 ^ 64)
    (h : quietAll calls n) : ∀ call ∈ calls, call.settled := by
  induction calls generalizing n with
  | nil => simp
  | cons call calls ih =>
    obtain ⟨a, b, hab, hcall, hcalls⟩ := h
    exact List.forall_mem_cons.2
      ⟨Call.settled_of_quiet (by omega) hcall, ih (by omega) hcalls⟩

theorem quietCallback_settled (h : quietCallback calls) : ∀ call ∈ calls, call.settled := by
  obtain ⟨n, hn, hquiet⟩ := h
  exact quietAll_settled hn hquiet

/-- What the counters tell of the tree: without a modification the keys are the same, and if no step
was loud, another root takes a splay. They advance by at most `n`. -/
structure Steady (loud : Bool) (n : Nat) (s s' : Fields K V) : Prop where
  modification_le : s.modificationCount ≤ s'.modificationCount
  modification_bound : s'.modificationCount ≤ s.modificationCount + n
  keys_eq : s'.modificationCount = s.modificationCount →
    s'.root.entries.map Prod.fst = s.root.entries.map Prod.fst
  splay_le : s.splayCount ≤ s'.splayCount
  splay_bound : s'.splayCount ≤ s.splayCount + n
  root_eq : loud = false → s'.splayCount = s.splayCount →
    s'.modificationCount = s.modificationCount → s'.root = s.root

section SteadyLemmas

variable {keys : Keys K} {s s' s'' : Fields K V} {loud loud' : Bool} {n n' : Nat}

theorem Steady.refl (s : Fields K V) : Steady false 0 s s :=
  ⟨Nat.le_refl _, Nat.le_refl _, fun _ => rfl, Nat.le_refl _, Nat.le_refl _, fun _ _ _ => rfl⟩

theorem Steady.trans (h : Steady loud n s s') (h' : Steady loud' n' s' s'') :
    Steady (loud || loud') (n + n') s s'' := by
  obtain ⟨hmod, hmodn, hkeys, hsplay, hsplayn, hroot⟩ := h
  obtain ⟨hmod', hmodn', hkeys', hsplay', hsplayn', hroot'⟩ := h'
  refine ⟨by omega, by omega, fun heq => ?_, by omega, by omega, fun hloud hs hm => ?_⟩
  · rw [hkeys' (by omega), hkeys (by omega)]
  · rw [Bool.or_eq_false_iff] at hloud
    rw [hroot' hloud.2 (by omega) (by omega), hroot hloud.1 (by omega) (by omega)]

theorem Steady.mono (h : Steady loud n s s') (hn : n ≤ n') : Steady loud n' s s' :=
  ⟨h.modification_le, by have := h.modification_bound; omega, h.keys_eq, h.splay_le,
    by have := h.splay_bound; omega, h.root_eq⟩

theorem splay_steady (s : Fields K V) (key : K) : Steady false 1 s (splay keys s key).1 := by
  have hmod : (splay keys s key).1.modificationCount = s.modificationCount :=
    splay_modificationCount key
  have hsplay : (splay keys s key).1.splayCount = s.splayCount ∧
      (splay keys s key).1.root = s.root ∨
      (splay keys s key).1.splayCount = s.splayCount + 1 := by
    by_cases hne : s.root = .nil
    · rw [splay_of_nil hne]
      exact .inl ⟨rfl, rfl⟩
    rw [splay_of_ne hne]
    cases hmoved : (splayLoop keys.compare key s.root [] [] false).moved with
    | true => exact .inr rfl
    | false => exact .inl ⟨rfl, splayLoop_still s.root hmoved⟩
  refine ⟨by omega, by omega, fun _ => by rw [splay_entries], by omega, by omega, fun _ hs _ => ?_⟩
  rcases hsplay with ⟨-, hroot⟩ | hmoved
  · exact hroot
  · omega

/-- A change that is counted as a modification. -/
theorem modified_steady {root : Tree K V} {count : Int} :
    Steady false 1 s { s with root := root, count := count,
                              modificationCount := s.modificationCount + 1 } where
  modification_le := Nat.le_succ _
  modification_bound := Nat.le_refl _
  keys_eq heq := absurd heq (Nat.succ_ne_self _)
  splay_le := Nat.le_refl _
  splay_bound := Nat.le_succ _
  root_eq _ _ heq := absurd heq (Nat.succ_ne_self _)

/-- `_first` and `_last` move the root and count nothing. -/
theorem moved_steady {root : Tree K V} (h : root.entries = s.root.entries) :
    Steady true 0 s { s with root := root } where
  modification_le := Nat.le_refl _
  modification_bound := Nat.le_refl _
  keys_eq _ := congrArg _ h
  splay_le := Nat.le_refl _
  splay_bound := Nat.le_refl _
  root_eq h := by cases h

section

variable (s : Fields K V)

theorem addNewRoot_steady (key : K) (value : V) (comp : Int) :
    Steady false 1 s (addNewRoot s key value comp) :=
  modified_steady

theorem setRootValue_steady (value : V) : Steady false 1 s (setRootValue s value) where
  modification_le := Nat.le_refl _
  modification_bound := Nat.le_succ _
  keys_eq _ := by
    rw [setRootValue]
    cases s.root <;> simp [Tree.replaceValue, Tree.entries]
  splay_le := Nat.le_succ _
  splay_bound := Nat.le_refl _
  root_eq _ heq := absurd heq (Nat.succ_ne_self _)

theorem indexSet_steady (key : K) (value : V) : Steady false 2 s (indexSet keys s key value) := by
  rw [indexSet]
  dsimp only
  split
  · exact (splay_steady s key).trans (setRootValue_steady _ _)
  · exact (splay_steady s key).trans (addNewRoot_steady _ _ _ _)

theorem removeNode_steady (key : K) : Steady false 2 s (removeNode keys s key).1 := by
  have hsplay : Steady false 2 s (splay keys s key).1 := (splay_steady s key).mono (by decide)
  rw [removeNode]
  split
  · exact (Steady.refl s).mono (by decide)
  dsimp only
  split
  · exact hsplay
  · split
    · exact hsplay
    · exact (splay_steady s key).trans modified_steady
    · exact (splay_steady s key).trans modified_steady

theorem get_steady (key : K) : Steady false 1 s (get keys s key).1 := by
  rw [get]
  split
  · split
    · exact (Steady.refl s).mono (by decide)
    · dsimp only
      split <;> exact splay_steady s key
  · exact (Steady.refl s).mono (by decide)

theorem remove_steady (key : K) : Steady false 2 s (remove keys s key).1 := by
  rw [remove]
  split
  · exact removeNode_steady s key
  · exact (Steady.refl s).mono (by decide)

theorem containsKey_steady (key : K) : Steady false 1 s (containsKey keys s key).1 := by
  rw [containsKey]
  split
  · exact splay_steady s key
  · exact (Steady.refl s).mono (by decide)

theorem lastKeyBefore_steady (key : K) : Steady false 1 s (lastKeyBefore keys s key).1 := by
  rw [lastKeyBefore]
  split
  · exact (Steady.refl s).mono (by decide)
  · dsimp only
    split <;> exact splay_steady s key

theorem firstKeyAfter_steady (key : K) : Steady false 1 s (firstKeyAfter keys s key).1 := by
  rw [firstKeyAfter]
  split
  · exact (Steady.refl s).mono (by decide)
  · dsimp only
    split <;> exact splay_steady s key

theorem first_steady : Steady true 0 s (first s).1 := by
  obtain ⟨-, root, heq, hentries⟩ := first_spec s
  rw [heq]
  exact moved_steady hentries

theorem last_steady : Steady true 0 s (last s).1 := by
  obtain ⟨-, root, heq, hentries⟩ := last_spec s
  rw [heq]
  exact moved_steady hentries

end

theorem addAfterCallback_steady (s s' : Fields K V) (key : K) (value : V) (comp : Int) :
    Steady false 2 s' (addAfterCallback keys s key comp s' value).1 := by
  rw [addAfterCallback]
  split
  · exact (Steady.refl s').mono (by decide)
  · split
    · exact (splay_steady s' key).trans (addNewRoot_steady _ _ _ _)
    · exact (addNewRoot_steady _ _ _ _).mono (by decide)

theorem updateAfterCallback_steady (s s' : Fields K V) (key : K) (value : V) :
    Steady false 2 s' (updateAfterCallback keys s key s' value).1 := by
  rw [updateAfterCallback]
  split
  · exact (Steady.refl s').mono (by decide)
  · split
    · exact (splay_steady s' key).trans (setRootValue_steady _ _)
    · exact (setRootValue_steady _ _).mono (by decide)

/-- A run is steady; as quiet calls it advances the counters by three a call. -/
def Runs (quiet : Nat → Prop) (s s' : Fields K V) : Prop :=
  ∃ loud n, Steady loud n s s' ∧ ∀ k, quiet k → loud = false ∧ n ≤ 3 * k

theorem Steady.runs (h : Steady false n s s') (hn : n ≤ 3) {quiet : Nat → Prop}
    (hquiet : ∀ k, quiet k → 0 < k) : Runs quiet s s' :=
  ⟨false, n, h, fun k hk => ⟨rfl, by have := hquiet k hk; omega⟩⟩

/-- A method with a callback: one splay before it, and two steps after it. -/
theorem Runs.callback {quiet quiet' : Nat → Prop} {key : K} {x : Fields K V × List (Answer K V)}
    (h : Runs quiet (splay keys s key).1 x.1) {result : Option V}
    {after : Fields K V → V → Fields K V × Answer K V}
    (hafter : ∀ s' v, Steady false 2 s' (after s' v).1)
    (hquiet : ∀ k, quiet' k → ∃ m < k, quiet m) :
    Runs quiet' s (finish x result after).1 := by
  obtain ⟨loud, n, hsteady, hn⟩ := h
  have hend : Steady false 2 x.1 (finish x result after).1 := by
    cases result with
    | none => exact (Steady.refl _).mono (by decide)
    | some v => exact hafter x.1 v
  refine ⟨_, _, (splay_steady s key).trans (hsteady.trans hend), fun k hk => ?_⟩
  obtain ⟨m, hm, hquiet⟩ := hquiet k hk
  obtain ⟨rfl, hle⟩ := hn m hquiet
  exact ⟨rfl, by omega⟩

mutual

theorem exec_steady : ∀ (call : Call K V) (s : Fields K V), Runs call.quiet s (exec keys call s).1
  | .get key, s => (get_steady s key).runs (by decide) fun _ h => h
  | .set key value, s => (indexSet_steady s key value).runs (by decide) fun _ h => h
  | .remove key, s => (remove_steady s key).runs (by decide) fun _ h => h
  | .putIfAbsent key ifAbsent result, s => by
    rw [exec]
    dsimp only
    split
    · exact (splay_steady s key).runs (by decide) fun _ ⟨_, h, _⟩ => by omega
    · exact (execAll_steady ifAbsent _).callback (fun _ _ => addAfterCallback_steady _ _ _ _ _)
        fun _ h => h
  | .update key callback result, s => by
    have hsplay : Runs (Call.update key callback result).quiet s (splay keys s key).1 :=
      (splay_steady s key).runs (by decide) fun _ ⟨_, h, _⟩ => by omega
    rw [exec]
    dsimp only
    split
    · split
      · exact hsplay
      · exact (execAll_steady (callback _) _).callback
          (fun _ _ => updateAfterCallback_steady _ _ _ _)
          fun _ ⟨m, h, hquiet⟩ => ⟨m, h, hquiet _⟩
    · exact hsplay
  | .updateOrAdd key callback result ifAbsent added, s => by
    rw [exec]
    dsimp only
    split
    · split
      · exact (splay_steady s key).runs (by decide) fun _ ⟨_, h, _⟩ => by omega
      · exact (execAll_steady (callback _) _).callback
          (fun _ _ => updateAfterCallback_steady _ _ _ _)
          fun _ ⟨m, h, hquiet, _⟩ => ⟨m, h, hquiet _⟩
    · exact (execAll_steady ifAbsent _).callback (fun _ _ => addAfterCallback_steady _ _ _ _ _)
        fun _ ⟨m, h, _, hquiet⟩ => ⟨m, h, hquiet⟩
  | .containsKey key, s => (containsKey_steady s key).runs (by decide) fun _ h => h
  | .firstKey, s => ⟨true, 0, first_steady s, fun _ h => h.elim⟩
  | .lastKey, s => ⟨true, 0, last_steady s, fun _ h => h.elim⟩
  | .lastKeyBefore key, s => by
    rw [exec]
    split
    · exact (Steady.refl s).runs (by decide) fun _ h => h
    · exact (lastKeyBefore_steady s key).runs (by decide) fun _ h => h
  | .firstKeyAfter key, s => by
    rw [exec]
    split
    · exact (Steady.refl s).runs (by decide) fun _ h => h
    · exact (firstKeyAfter_steady s key).runs (by decide) fun _ h => h
  | .clear, s => modified_steady.runs (by decide) fun _ h => h
  | .length, s => (Steady.refl s).runs (by decide) fun _ h => h
  | .entries, s => (Steady.refl s).runs (by decide) fun _ h => h

theorem execAll_steady : ∀ (calls : List (Call K V)) (s : Fields K V),
    Runs (quietAll calls) s (execAll keys calls s).1
  | [], s => ⟨false, 0, .refl s, fun _ _ => ⟨rfl, Nat.zero_le _⟩⟩
  | call :: calls, s => by
    obtain ⟨loud, n, h, hn⟩ := exec_steady call s
    obtain ⟨loud', n', h', hn'⟩ := execAll_steady calls (exec keys call s).1
    refine ⟨_, _, h.trans h', fun k hk => ?_⟩
    obtain ⟨a, b, hab, hcall, hcalls⟩ := hk
    obtain ⟨rfl, hle⟩ := hn a hcall
    obtain ⟨rfl, hle'⟩ := hn' b hcalls
    exact ⟨rfl, by omega⟩

end

end SteadyLemmas

/-! ## Refinement of maps -/

def Related (keys : Keys K) (s : Fields K V) (m : SpecMap K V) : Prop :=
  Holds keys s m.entries ∧ s.modificationCount = m.modifications

/-- A method left `x` where the abstract one leaves `y`. -/
def Refines {α : Type} (keys : Keys K) (x : Fields K V × α) (y : SpecMap K V × α) : Prop :=
  Related keys x.1 y.1 ∧ x.2 = y.2

section Refinement

variable {keys : Keys K} {s s' : Fields K V} {m m' : SpecMap K V} {key : K} {value : V}

section

variable (h : Related keys s m)
include h

theorem Related.observes {α : Type} {x : Fields K V × α} {answer : α}
    (hx : Observes keys s m.entries x answer) (f : α → Answer K V) :
    Refines keys (x.1, [f x.2]) (m, [f answer]) :=
  ⟨⟨hx.holds, hx.modification_eq.trans h.2⟩, congrArg ([f ·]) hx.answer_eq⟩

theorem Related.after_splay (key : K) : Related keys (splay keys s key).1 m :=
  ⟨h.1.after_splay key, (splay_modificationCount key).trans h.2⟩

end

theorem lookup_isSome_eq (compare : K → K → Int) (key : K) (l : List (K × V)) :
    (lookup compare key l).isSome = (l.map Prod.fst).any fun k => compare k key == 0 := by
  rw [lookup, List.any_map, Bool.eq_iff_iff, List.find?_isSome, List.any_eq_true]
  rfl

/-- Counters that advance by less than `2 ^ 64` are the same in 64 bits only if they are the
same. -/
theorem sameCount_iff {a b n : Nat} (hle : a ≤ b) (hb : b ≤ a + n) (hn : n < 2 ^ 64) :
    SameCount a b ↔ a = b := by
  unfold SameCount
  omega

section

variable (hlaw : LawfulCompare keys.compare) (h : Related keys s m) (h' : Related keys s' m')
  {n : Nat} (hsteady : Steady false n s s') (hn : n < 2 ^ 64)

section

include h h' hsteady

/-- Without a modification the same keys are there. -/
theorem Related.lookup_isSome (hmod : m'.modifications = m.modifications) (key : K) :
    (lookup keys.compare key m'.entries).isSome = (lookup keys.compare key m.entries).isSome := by
  have hkeys := hsteady.keys_eq (by rw [h.2, h'.2, hmod])
  rw [h.1.entries_eq, h'.1.entries_eq] at hkeys
  rw [lookup_isSome_eq, lookup_isSome_eq, hkeys]

/-- The root is the one that the comparison was made with. -/
theorem Related.unmoved (hsplay : s'.splayCount = s.splayCount)
    (hmod : m'.modifications = m.modifications) : s'.root = s.root ∧ m'.entries = m.entries := by
  have hroot := hsteady.root_eq rfl hsplay (by rw [h.2, h'.2, hmod])
  exact ⟨hroot, by rw [← h'.1.entries_eq, hroot, h.1.entries_eq]⟩

end

include hlaw h h' hsteady hn

theorem addAfterCallback_refines {comp : Int}
    (habsent : Absent keys.compare key m.entries s.root comp) :
    Refines keys (addAfterCallback keys s key comp s' value)
      (specAfterCallback keys m key m' value) := by
  have hmodified := sameCount_iff hsteady.modification_le hsteady.modification_bound hn
  have hsplayed := sameCount_iff hsteady.splay_le hsteady.splay_bound hn
  rw [h.2, h'.2] at hmodified
  rw [addAfterCallback, specAfterCallback, h.2, h'.2]
  simp only [hmodified, hsplayed]
  split
  · exact ⟨h', rfl⟩
  rename_i hmod
  replace hmod := (not_not.1 hmod).symm
  have hnone : (lookup keys.compare key m'.entries).isSome = false := by
    rw [h.lookup_isSome h' hsteady hmod, habsent.lookup]
    rfl
  have hcount : (specSet keys m' key value).modifications = m'.modifications + 1 := by
    rw [specSet]
    simp only [hnone, if_neg (Bool.false_ne_true)]
  split
  · -- the root has moved: the key is splayed again, and is still not there
    have hcomp : (splay keys s' key).2 ≠ 0 := by
      intro hzero
      rw [(h'.1.comp_eq_zero_iff hlaw key).1 hzero] at hnone
      cases hnone
    refine ⟨⟨(h'.1.splay_absent hlaw hcomp).addNewRoot (h'.1.after_splay key) hlaw, ?_⟩, rfl⟩
    rw [hcount]
    exact congrArg (· + 1) (h'.after_splay key).2
  · rename_i hsplay
    obtain ⟨hroot, hentries⟩ := h.unmoved h' hsteady (not_not.1 hsplay).symm hmod
    rw [← hentries, ← hroot] at habsent
    refine ⟨⟨habsent.addNewRoot h'.1 hlaw, ?_⟩, rfl⟩
    rw [hcount]
    exact congrArg (· + 1) h'.2

theorem updateAfterCallback_refines (hpresent : Present keys.compare key m.entries s.root) :
    Refines keys (updateAfterCallback keys s key s' value)
      (specAfterCallback keys m key m' value) := by
  have hmodified := sameCount_iff hsteady.modification_le hsteady.modification_bound hn
  have hsplayed := sameCount_iff hsteady.splay_le hsteady.splay_bound hn
  rw [h.2, h'.2] at hmodified
  rw [updateAfterCallback, specAfterCallback, h.2, h'.2]
  simp only [hmodified, hsplayed]
  split
  · exact ⟨h', rfl⟩
  rename_i hmod
  replace hmod := (not_not.1 hmod).symm
  have hsome : (lookup keys.compare key m'.entries).isSome = true := by
    obtain ⟨k, v, hlookup, -⟩ := hpresent.lookup
    rw [h.lookup_isSome h' hsteady hmod, hlookup]
    rfl
  have hcount : (specSet keys m' key value).modifications = m'.modifications := by
    rw [specSet]
    simp only [hsome, if_true, Nat.add_zero]
  split
  · have hcomp := (h'.1.comp_eq_zero_iff hlaw key).2 hsome
    refine ⟨⟨(h'.1.splay_present hlaw hcomp).setRootValue (h'.1.after_splay key) hlaw, ?_⟩, rfl⟩
    rw [hcount]
    exact (h'.after_splay key).2
  · rename_i hsplay
    obtain ⟨hroot, hentries⟩ := h.unmoved h' hsteady (not_not.1 hsplay).symm hmod
    rw [← hentries, ← hroot] at hpresent
    refine ⟨⟨hpresent.setRootValue h'.1 hlaw, ?_⟩, rfl⟩
    rw [hcount]
    exact h'.2

end

/-- What is left of a method after its callback, from what a quiet callback leaves. -/
theorem Refines.callback {y : SpecMap K V × List (Answer K V)}
    (h : Refines keys (execAll keys calls s) y) (hquiet : quietCallback calls) {result : Option V}
    {f : Fields K V → V → Fields K V × Answer K V} {g : SpecMap K V → V → SpecMap K V × Answer K V}
    (hafter : ∀ n s' m' v, Related keys s' m' → Steady false n s s' → n < 2 ^ 64 →
      Refines keys (f s' v) (g m' v)) :
    Refines keys (finish (execAll keys calls s) result f) (finish y result g) := by
  obtain ⟨k, hk, hquiet⟩ := hquiet
  obtain ⟨loud, n, hsteady, hn⟩ := execAll_steady calls s
  obtain ⟨rfl, hle⟩ := hn k hquiet
  cases result with
  | none => exact ⟨h.1, congrArg (· ++ _) h.2⟩
  | some v =>
    obtain ⟨hrel, hanswer⟩ := hafter n _ _ v h.1 hsteady (by omega)
    refine ⟨hrel, ?_⟩
    simp only [finish, h.2, hanswer]

mutual

theorem exec_refines (hlaw : LawfulCompare keys.compare) :
    ∀ (call : Call K V) {s : Fields K V} {m : SpecMap K V}, call.settled → Related keys s m →
      Refines keys (exec keys call s) (specExec keys call m)
  | .get key, s, m, _, h => by
    rw [specExec]
    exact h.observes (h.1.get hlaw key) .value
  | .set key value, s, m, _, h => by
    obtain ⟨hs, hmod⟩ := h.1.indexSet hlaw key value
    exact ⟨⟨hs, hmod.trans (congrArg (· + _) h.2)⟩, rfl⟩
  | .remove key, s, m, _, h => by
    obtain ⟨hnode, hs, hmod⟩ := h.1.removeNode hlaw key
    rw [exec, remove, specExec]
    by_cases hvalid : keys.validKey key
    · rw [if_pos hvalid, if_pos hvalid, ← hnode]
      exact ⟨⟨hs, hmod.trans (congrArg (· + _) h.2)⟩, rfl⟩
    · rw [if_neg hvalid, if_neg hvalid]
      exact ⟨h, rfl⟩
  | .putIfAbsent key ifAbsent result, s, m, hsettled, h => by
    have hsplay := h.after_splay key
    rw [exec, specExec]
    dsimp only
    split
    · rename_i hcomp
      obtain ⟨k, v, hlookup, -, hvalue⟩ := (h.1.splay_present hlaw hcomp).lookup
      rw [hlookup, hvalue]
      exact ⟨hsplay, rfl⟩
    · rename_i hcomp
      have habsent := h.1.splay_absent hlaw hcomp
      rw [habsent.lookup]
      exact (execAll_refines hlaw ifAbsent (quietCallback_settled hsettled) hsplay).callback
        hsettled
        fun n s' m' v h' hsteady hn => addAfterCallback_refines hlaw hsplay h' hsteady hn habsent
  | .update key callback result, s, m, hsettled, h => by
    have hsplay := h.after_splay key
    rw [exec, specExec]
    dsimp only
    split
    · rename_i hcomp
      have hpresent := h.1.splay_present hlaw hcomp
      obtain ⟨k, v, hlookup, -, hvalue⟩ := hpresent.lookup
      rw [hlookup, hvalue]
      exact (execAll_refines hlaw (callback v) (quietCallback_settled (hsettled v)) hsplay).callback
        (hsettled v)
        fun n s' m' v h' hsteady hn =>
          updateAfterCallback_refines hlaw hsplay h' hsteady hn hpresent
    · rename_i hcomp
      rw [(h.1.splay_absent hlaw hcomp).lookup]
      exact ⟨hsplay, rfl⟩
  | .updateOrAdd key callback result ifAbsent added, s, m, hsettled, h => by
    obtain ⟨hcallback, hifAbsent⟩ := hsettled
    have hsplay := h.after_splay key
    rw [exec, specExec]
    dsimp only
    split
    · rename_i hcomp
      have hpresent := h.1.splay_present hlaw hcomp
      obtain ⟨k, v, hlookup, -, hvalue⟩ := hpresent.lookup
      rw [hlookup, hvalue]
      exact (execAll_refines hlaw (callback v)
        (quietCallback_settled (hcallback v)) hsplay).callback (hcallback v)
        fun n s' m' v h' hsteady hn =>
          updateAfterCallback_refines hlaw hsplay h' hsteady hn hpresent
    · rename_i hcomp
      have habsent := h.1.splay_absent hlaw hcomp
      rw [habsent.lookup]
      exact (execAll_refines hlaw ifAbsent (quietCallback_settled hifAbsent) hsplay).callback
        hifAbsent
        fun n s' m' v h' hsteady hn => addAfterCallback_refines hlaw hsplay h' hsteady hn habsent
  | .containsKey key, s, m, _, h => h.observes (h.1.containsKey hlaw key) .flag
  | .firstKey, s, m, _, h => h.observes h.1.first .key
  | .lastKey, s, m, _, h => h.observes h.1.last .key
  | .lastKeyBefore key, s, m, _, h => by
    rw [exec, specExec]
    split
    · exact ⟨h, rfl⟩
    · exact h.observes (h.1.lastKeyBefore hlaw key) .key
  | .firstKeyAfter key, s, m, _, h => by
    rw [exec, specExec]
    split
    · exact ⟨h, rfl⟩
    · exact h.observes (h.1.firstKeyAfter hlaw key) .key
  | .clear, s, m, _, h => ⟨⟨holds_clear s, congrArg (· + 1) h.2⟩, rfl⟩
  | .length, s, m, _, h => by
    rw [specExec, ← h.1.count_eq]
    exact ⟨h, rfl⟩
  | .entries, s, m, _, h => by
    rw [specExec, ← h.1.entries_eq]
    exact ⟨h, rfl⟩

theorem execAll_refines (hlaw : LawfulCompare keys.compare) :
    ∀ (calls : List (Call K V)) {s : Fields K V} {m : SpecMap K V},
      (∀ call ∈ calls, call.settled) → Related keys s m →
        Refines keys (execAll keys calls s) (specExecAll keys calls m)
  | [], s, m, _, h => ⟨h, rfl⟩
  | call :: calls, s, m, hsettled, h => by
    obtain ⟨hcall, hcalls⟩ := List.forall_mem_cons.1 hsettled
    obtain ⟨hrel, hlog⟩ := exec_refines hlaw call hcall h
    obtain ⟨hrel', hlog'⟩ := execAll_refines hlaw calls hcalls hrel
    refine ⟨hrel', ?_⟩
    rw [execAll, specExecAll]
    exact congrArg₂ (· ++ ·) hlog hlog'

end

end Refinement

/-! ## Refinement of sets -/

/-- A set as a sorted list; the elements are keys without values. -/
abbrev SpecSet (K : Type) := List (K × Unit)

/-- Some element that is a valid key compares equal. -/
def retains (keys : Keys K) (elements : List K) (e : K × Unit) : Bool :=
  elements.any fun object => keys.validKey object && keys.compare e.1 object == 0

def specSetExecOn (keys : Keys K) : SetCall K → SpecSet K → SpecSet K × SetAnswer K
  | .create, l => (l, .done)
  | .add _ element, l =>
    if (Lib.lookup keys.compare element l).isSome then (l, .flag false)
    else (Lib.put keys.compare element () l, .flag true)
  | .contains _ element, l =>
    (l, .flag (keys.validKey element && (Lib.lookup keys.compare element l).isSome))
  | .lookup _ object, l =>
    (l, .element (if keys.validKey object then (Lib.lookup keys.compare object l).map Prod.fst
      else none))
  | .remove _ object, l =>
    if keys.validKey object then
      (Lib.erase keys.compare object l, .flag (Lib.lookup keys.compare object l).isSome)
    else (l, .flag false)
  | .retainAll _ elements, l => (l.filter (retains keys elements), .done)
  | .first _, l => (l, if l = [] then .noElement else .element (l.head?.map Prod.fst))
  | .last _, l => (l, if l = [] then .noElement else .element (l.getLast?.map Prod.fst))
  | .clear _, _ => ([], .done)
  | .clone _, l => (l, .done)
  | .length _, l => (l, .number l.length)
  | .elements _, l => (l, .elements (l.map Prod.fst))

def specSetExec (keys : Keys K) (heap : List (SpecSet K)) (call : SetCall K) :
    List (SpecSet K) × SetAnswer K :=
  match call.target with
  | none => (heap ++ [[]], .done)
  | some set =>
    match heap[set]? with
    | none => (heap, .noSet)
    | some l =>
      if call.isClone then (heap ++ [l], .done)
      else
        let (l, answer) := specSetExecOn keys call l
        (heap.set set l, answer)

section Sets

variable {keys : Keys K} {s : SetFields K} {l : SpecSet K}

section

variable (h : Holds keys s l) (hlaw : LawfulCompare keys.compare)
include h hlaw

theorem Holds.setAdd (element : K) :
    (setAdd keys s element).2 = !(lookup keys.compare element l).isSome ∧
      Holds keys (SplayTree.setAdd keys s element).1
        (if (lookup keys.compare element l).isSome then l
          else put keys.compare element () l) := by
  have hsplay := h.after_splay element
  rw [SplayTree.setAdd]
  dsimp only
  split
  · rename_i hcomp
    rw [(h.comp_eq_zero_iff hlaw element).1 hcomp]
    exact ⟨rfl, hsplay⟩
  · rename_i hcomp
    have habsent := h.splay_absent hlaw hcomp
    rw [habsent.lookup]
    exact ⟨rfl, habsent.addNewRoot hsplay hlaw⟩

theorem Holds.setLookup (object : K) :
    (setLookup keys s object).2 =
        (if keys.validKey object then (lookup keys.compare object l).map Prod.fst else none) ∧
      Holds keys (SplayTree.setLookup keys s object).1 l := by
  rw [SplayTree.setLookup]
  split
  · dsimp only
    split
    · rename_i hcomp
      rw [(h.splay_absent hlaw hcomp).lookup]
      exact ⟨rfl, h.after_splay object⟩
    · rename_i hcomp
      obtain ⟨k, v, hlookup, hkey, -⟩ := (h.splay_present hlaw (not_not.1 hcomp)).lookup
      rw [hlookup]
      exact ⟨hkey, h.after_splay object⟩
  · exact ⟨rfl, h⟩

theorem Holds.setRemove (object : K) :
    (setRemove keys s object).2 =
        (keys.validKey object && (lookup keys.compare object l).isSome) ∧
      Holds keys (SplayTree.setRemove keys s object).1
        (if keys.validKey object then erase keys.compare object l else l) := by
  obtain ⟨hnode, hs, -⟩ := h.removeNode hlaw object
  rw [SplayTree.setRemove]
  split
  · rename_i hvalid
    rw [← hnode, hvalid]
    exact ⟨rfl, hs⟩
  · rename_i hvalid
    rw [Bool.not_eq_true] at hvalid
    rw [hvalid]
    exact ⟨rfl, h⟩

end

theorem filter_or_of_ne {l : SpecSet K} {object : K} {p : K × Unit → Bool}
    (h : ∀ e ∈ l, keys.compare e.1 object ≠ 0) :
    l.filter (fun e => p e || keys.compare e.1 object == 0) = l.filter p := by
  refine List.filter_congr fun e he => ?_
  rw [beq_eq_false_iff_ne.2 (h e he), Bool.or_false]

/-- Adding the key that was found to the elements that are retained so far. -/
theorem Present.retain {retained : SetFields K} {object : K} {p : K × Unit → Bool}
    {root : Tree K Unit} (h : Present keys.compare object l root)
    (hlaw : LawfulCompare keys.compare) (hs : Sorted keys.compare l)
    (hretained : Holds keys retained (l.filter p)) :
    ∃ k, root.rootKey = some k ∧
      Holds keys (setAdd keys retained k).1
        (l.filter fun e => p e || keys.compare e.1 object == 0) := by
  obtain ⟨tl, k, v, tr, rfl, hk, rfl, hbefore, hafter⟩ := h
  refine ⟨k, rfl, ?_⟩
  obtain ⟨-, -, hbeforeK, hafterK⟩ := (sorted_cut_iff hlaw).1 hs
  obtain ⟨-, hadd⟩ := hretained.setAdd hlaw k
  have hbefore' : Lib.AllBefore keys.compare k (tl.entries.filter p) :=
    fun e he => hbeforeK e (List.mem_of_mem_filter he)
  have hafter' : Lib.AllAfter keys.compare k (tr.entries.filter p) :=
    fun e he => hafterK e (List.mem_of_mem_filter he)
  have hself : keys.compare k k = 0 := by
    have := hlaw.swap k k
    omega
  have hroot : (p (k, v) || keys.compare (k, v).1 object == 0) = true := by
    rw [beq_iff_eq.2 hk, Bool.or_true]
  have hgoal : (tl.entries ++ (k, v) :: tr.entries).filter
      (fun e => p e || keys.compare e.1 object == 0) =
        tl.entries.filter p ++ (k, v) :: tr.entries.filter p := by
    rw [List.filter_append, filter_or_of_ne fun e he => Int.ne_of_lt (hbefore e he),
      List.filter_cons_of_pos (p := fun e => p e || keys.compare e.1 object == 0) hroot,
      filter_or_of_ne fun e he => Int.ne_of_gt (hafter e he)]
  rw [hgoal]
  rw [List.filter_append] at hadd
  cases hp : p (k, v) with
  | true =>
    rw [List.filter_cons_of_pos hp, lookup_present hbefore' hself] at hadd
    exact hadd
  | false =>
    rw [List.filter_cons_of_neg (by rw [hp]; exact Bool.false_ne_true),
      lookup_absent hbefore' hafter', put_absent hbefore' hafter'] at hadd
    exact hadd

theorem retainLoop_holds (hlaw : LawfulCompare keys.compare) (objects : List K) :
    ∀ (s retained : SetFields K) (p : K × Unit → Bool), Holds keys s l →
      Holds keys retained (l.filter p) →
      Holds keys (retainLoop keys objects s retained).1 l ∧
        Holds keys (retainLoop keys objects s retained).2
          (l.filter fun e => p e || retains keys objects e) := by
  induction objects with
  | nil =>
    intro s retained p h hretained
    refine ⟨h, ?_⟩
    rw [retainLoop]
    simpa [retains] using hretained
  | cons object objects ih =>
    intro s retained p h hretained
    have hstep : ∀ e : K × Unit, (p e || retains keys (object :: objects) e) =
        ((p e || (keys.validKey object && keys.compare e.1 object == 0)) ||
          retains keys objects e) := by
      intro e
      rw [retains, List.any_cons, Bool.or_assoc]
      rfl
    simp only [hstep]
    rw [retainLoop]
    split
    · rename_i hvalid
      simp only [hvalid, Bool.true_and]
      have hsplay := h.after_splay object
      by_cases hcomp : (splay keys s object).2 = 0
      · obtain ⟨k, hkey, hadd⟩ := (h.splay_present hlaw hcomp).retain hlaw h.sorted hretained
        rw [hkey]
        dsimp only
        rw [if_pos hcomp]
        exact ih _ _ _ hsplay hadd
      · have hnone := (h.splay_absent hlaw hcomp).lookup
        have hsame : l.filter (fun e => p e || keys.compare e.1 object == 0) = l.filter p :=
          filter_or_of_ne fun e he hzero => List.find?_eq_none.1 hnone e he (beq_iff_eq.2 hzero)
        have hrest := ih _ _ _ hsplay (hsame ▸ hretained)
        split
        · rw [if_neg hcomp]
          exact hrest
        · exact hrest
    · rename_i hvalid
      simp only [hvalid, Bool.false_and, Bool.or_false]
      exact ih _ _ _ h hretained

theorem Holds.retainAll (h : Holds keys s l) (hlaw : LawfulCompare keys.compare)
    (elements : List K) :
    Holds keys (retainAll keys s elements) (l.filter (retains keys elements)) := by
  have hstart : Holds keys ({} : SetFields K) (l.filter fun _ => false) := by
    rw [List.filter_false]
    exact .new
  obtain ⟨hs, hretained⟩ := retainLoop_holds hlaw elements s {} _ h hstart
  rw [SplayTree.retainAll]
  dsimp only
  split
  · exact ⟨hretained.entries_eq, hretained.sorted, hretained.count_eq⟩
  rename_i hcount
  -- as many elements are retained as there are: they are the same
  have hlen : (l.filter (retains keys elements)).length = l.length := by
    have := not_not.1 hcount
    rw [hretained.count_eq, hs.count_eq] at this
    exact Int.ofNat.inj this
  have hsame := List.filter_sublist.eq_of_length hlen
  rw [hsame]
  exact hs

theorem copyNode_entries (t : Tree K Unit) : (copyNode t).entries = t.entries := by
  induction t with
  | nil => rfl
  | node tl k v tr ihl ihr => rw [copyNode, Tree.entries, Tree.entries, ihl, ihr]

theorem Holds.clone (h : Holds keys s l) : Holds keys (clone s) l where
  entries_eq := (copyNode_entries s.root).trans h.entries_eq
  sorted := h.sorted
  count_eq := h.count_eq

theorem Holds.count_eq_zero (h : Holds keys s l) : s.count = 0 ↔ l = [] := by
  rw [h.count_eq, ← List.length_eq_zero_iff]
  omega

theorem setExecOn_holds (hlaw : LawfulCompare keys.compare) (call : SetCall K)
    (h : Holds keys s l) :
    (setExecOn keys call s).2 = (specSetExecOn keys call l).2 ∧
      Holds keys (setExecOn keys call s).1 (specSetExecOn keys call l).1 := by
  cases call with
  | create => exact ⟨rfl, h⟩
  | add set element =>
    obtain ⟨hflag, hs⟩ := h.setAdd hlaw element
    rw [specSetExecOn]
    refine ⟨?_, ?_⟩
    · show SetAnswer.flag (setAdd keys s element).2 = _
      rw [hflag]
      split <;> rename_i hsome <;> simp [hsome]
    · show Holds keys (setAdd keys s element).1 _
      split <;> rename_i hsome <;> simpa [hsome] using hs
  | contains set element =>
    obtain ⟨hflag, hs, -⟩ := h.containsKey hlaw element
    exact ⟨congrArg SetAnswer.flag hflag, hs⟩
  | lookup set object =>
    obtain ⟨helement, hs⟩ := h.setLookup hlaw object
    exact ⟨congrArg SetAnswer.element helement, hs⟩
  | remove set object =>
    obtain ⟨hflag, hs⟩ := h.setRemove hlaw object
    rw [specSetExecOn]
    refine ⟨?_, ?_⟩
    · show SetAnswer.flag (setRemove keys s object).2 = _
      rw [hflag]
      split <;> rename_i hvalid <;> simp [hvalid]
    · show Holds keys (setRemove keys s object).1 _
      split <;> rename_i hvalid <;> simpa [hvalid] using hs
  | retainAll set elements => exact ⟨rfl, h.retainAll hlaw elements⟩
  | first set =>
    obtain ⟨hkey, hs, -⟩ := h.first
    simp only [setExecOn, specSetExecOn, h.count_eq_zero]
    split
    · exact ⟨rfl, h⟩
    · exact ⟨congrArg SetAnswer.element hkey, hs⟩
  | last set =>
    obtain ⟨hkey, hs, -⟩ := h.last
    simp only [setExecOn, specSetExecOn, h.count_eq_zero]
    split
    · exact ⟨rfl, h⟩
    · exact ⟨congrArg SetAnswer.element hkey, hs⟩
  | clear set => exact ⟨rfl, holds_clear s⟩
  | clone set => exact ⟨rfl, h⟩
  | length set => exact ⟨congrArg SetAnswer.number h.count_eq, h⟩
  | elements set =>
    rw [setExecOn, specSetExecOn, h.entries_eq]
    exact ⟨rfl, h⟩

theorem setExec_simulates (hlaw : LawfulCompare keys.compare) :
    Lib.Simulates (List.Forall₂ (Holds keys)) (setExec keys) (specSetExec keys) := by
  intro heap heap' call h
  rw [setExec, specSetExec]
  cases call.target with
  | none => exact ⟨rfl, List.rel_append h (.cons .new .nil)⟩
  | some set =>
    dsimp only
    rcases forall₂_getElem?_cases h set with ⟨hnone, hnone'⟩ | ⟨s, l, hs, hl, hsl⟩
    · rw [hnone, hnone']
      exact ⟨rfl, h⟩
    · rw [hs, hl]
      dsimp only
      split
      · exact ⟨rfl, List.rel_append h (.cons hsl.clone .nil)⟩
      · obtain ⟨hanswer, hholds⟩ := setExecOn_holds hlaw call hsl
        exact ⟨hanswer, forall₂_set_set h set hholds⟩

end Sets

/-! ## The theorem -/

/-- Every sequence of calls on a map whose callbacks do not ask for the first or the last key, nor
make `2 ^ 64 / 3` calls, and every sequence of calls on sets, gives the answers of sorted
association lists, and leaves search trees with their entries, counted right. -/
theorem splayTree_refines (keys : Keys K) (hlaw : LawfulCompare keys.compare) :
    (∀ calls : List (Call K V), (∀ call ∈ calls, call.settled) →
      (execAll keys calls {}).2 = (specExecAll keys calls {}).2 ∧
        (execAll keys calls {}).1.root.entries = (specExecAll keys calls {}).1.entries ∧
        Sorted keys.compare (execAll keys calls {}).1.root.entries ∧
        (execAll keys calls {}).1.count = (execAll keys calls {}).1.root.entries.length) ∧
    ∀ calls : List (SetCall K),
      Lib.answers (setExec keys) [] calls = Lib.answers (specSetExec keys) [] calls ∧
        (Lib.stateAfter (setExec keys) [] calls).map (fun s => s.root.entries) =
          Lib.stateAfter (specSetExec keys) [] calls ∧
        ∀ s ∈ Lib.stateAfter (setExec keys) [] calls,
          Sorted keys.compare s.root.entries ∧ s.count = s.root.entries.length := by
  constructor
  · intro calls hsettled
    have hstart : Related keys ({} : Fields K V) {} := ⟨.new, rfl⟩
    obtain ⟨⟨h, -⟩, hlog⟩ := execAll_refines hlaw calls hsettled hstart
    rw [h.entries_eq]
    exact ⟨hlog, rfl, h.sorted, h.count_eq⟩
  · intro calls
    have hstart : List.Forall₂ (Holds keys) ([] : SetHeap K) [] := .nil
    have hsim := setExec_simulates hlaw
    have hend := hsim.stateAfter_related hstart calls
    refine ⟨hsim.answers_eq hstart calls, ?_, ?_⟩
    · rw [← List.map_id (stateAfter (specSetExec keys) [] calls)]
      exact forall₂_map_eq hend fun s l h => h.entries_eq
    · intro s hs
      obtain ⟨i, hi⟩ := List.mem_iff_getElem?.1 hs
      rcases forall₂_getElem?_cases hend i with ⟨hnone, -⟩ | ⟨s', l, hs', -, h⟩
      · rw [hnone] at hi
        cases hi
      · cases hi.symm.trans hs'
        rw [h.entries_eq]
        exact ⟨h.sorted, h.count_eq⟩

/-! ## Numbers as keys -/

def numberKeys : Keys Nat where
  compare a b := (a : Int) - b
  validKey _ := true
  isNull _ := false

theorem numberKeys_lawful : LawfulCompare numberKeys.compare where
  swap a b := by
    simp only [numberKeys]
    omega
  trans a b c hab hbc := by
    simp only [numberKeys] at *
    omega

/-- Callbacks that look keys up, and whose result is made of the value they are given. -/
def sampleCalls : List (Call Nat Nat) :=
  [.set 30 0, .set 10 1, .set 20 2, .putIfAbsent 25 [.get 10, .lastKeyBefore 30] (some 3),
    .updateOrAdd 10 (fun v => [.containsKey (29 + v)]) (fun v => some (v + 4)) [] none,
    .update 20 (fun v => [.set 25 v]) (fun v => some (v * 2)), .firstKey, .entries]

theorem splayTree_refines_sampleCalls :
    (execAll numberKeys sampleCalls {}).2 = (specExecAll numberKeys sampleCalls {}).2 := by
  refine ((splayTree_refines (V := Nat) numberKeys numberKeys_lawful).1 sampleCalls ?_).1
  have hone : ∀ call : Call Nat Nat, call.quiet 1 → quietCallback [call] := fun call h =>
    ⟨1, by decide, 1, 0, Nat.le_refl _, h, trivial⟩
  have htwo : quietCallback [Call.get 10, .lastKeyBefore (V := Nat) 30] :=
    ⟨2, by decide, 1, 1, Nat.le_refl _, Nat.one_pos, 1, 0, Nat.le_refl _, Nat.one_pos, trivial⟩
  simp only [sampleCalls, List.forall_mem_cons]
  exact ⟨trivial, trivial, trivial, htwo, ⟨fun v => hone _ Nat.one_pos, 0, by decide, trivial⟩,
    fun v => hone _ Nat.one_pos, trivial, trivial, by simp⟩

/-- The iterators compare `_modificationCount`: while it is the same, and has not gone all the way
round, no key comes, goes or moves. -/
theorem keys_eq_of_modificationCount (keys : Keys K) (s : Fields K V) (calls : List (Call K V))
    (hcount : SameCount (execAll keys calls s).1.modificationCount s.modificationCount)
    (hround : (execAll keys calls s).1.modificationCount < s.modificationCount + 2 ^ 64) :
    (execAll keys calls s).1.root.entries.map Prod.fst = s.root.entries.map Prod.fst := by
  obtain ⟨_, _, hsteady, -⟩ : Runs _ s (execAll keys calls s).1 := execAll_steady calls s
  have hle := hsteady.modification_le
  refine hsteady.keys_eq ?_
  unfold SameCount at hcount
  omega

/-- Three keys, with a callback that splays and another that asks for the first key. -/
def splayingCalls : List (Call Nat Nat) :=
  [.update 30 (fun v => [.get 10, .get (20 + v)]) (fun v => some (v + 1)),
    .update 20 (fun _ => [.firstKey]) some]

def threeKeys : Fields Nat Nat := (execAll numberKeys [.set 30 0, .set 10 1, .set 20 2] {}).1

theorem keys_eq_of_modificationCount_splayingCalls :
    (execAll numberKeys splayingCalls threeKeys).1.root ≠ threeKeys.root ∧
      (execAll numberKeys splayingCalls threeKeys).1.root.entries.map Prod.fst = [10, 20, 30] := by
  refine ⟨by decide, ?_⟩
  exact keys_eq_of_modificationCount numberKeys threeKeys splayingCalls (by decide) (by decide)

/-- A callback that asks for the first key. `putIfAbsent` of 25 puts the new root after the first
key as if it were the last before 25, and the keys are out of order; `update` of 30 changes the
value of 10. -/
theorem firstKey_in_callback :
    let added := execAll numberKeys
      [.set 10 0, .set 20 0, .set 30 0, .putIfAbsent 25 [.firstKey] (some 1), .entries] {}
    let updated := execAll numberKeys
      [.set 10 0, .set 20 0, .set 30 0, .update 30 (fun _ => [.firstKey]) (fun _ => some 1),
        .entries] {}
    added.2 = [.done, .done, .done, .key (some 10), .value (some 1),
        .entries [(10, 0), (25, 1), (20, 0), (30, 0)]] ∧
      added.2 ≠ (specExecAll numberKeys
        [.set 10 0, .set 20 0, .set 30 0, .putIfAbsent 25 [.firstKey] (some 1), .entries] {}).2 ∧
      ¬ Sorted numberKeys.compare added.1.root.entries ∧
    updated.2 = [.done, .done, .done, .key (some 10), .value (some 1),
        .entries [(10, 1), (20, 0), (30, 0)]] ∧
      updated.2 ≠ (specExecAll numberKeys
        [.set 10 0, .set 20 0, .set 30 0, .update 30 (fun _ => [.firstKey]) (fun _ => some 1),
          .entries] {}).2 := by
  unfold Sorted
  decide

end Dart2Wasm.SplayTree
