import Dart2Wasm.Lib.Run
import Dart2Wasm.DispatchTable.Selector

/-!
# Functions — which members get a Wasm function

The `FunctionCollector` of `dart2wasm/lib/functions.dart` decides which members are compiled. A
member reached by a virtual call is compiled when a selector that targets it has been activated by
some call and the class it is the target for has been allocated somewhere, in whichever order the
two events occur: a target whose class has not been allocated yet is kept pending.

The abstract view is the relation `Reached`, which mentions only the set of events; the collector
implements it for every order of the events.
-/

namespace Dart2Wasm

open Lib List

variable {imports exports : List Reference}

/-- The state of the collector. `functions` are the keys of `_functions`; the worklist is kept
with everything that has ever been put on it. -/
structure FunctionCollector where
  functions : List Reference
  worklist : List Reference
  allocatedClasses : List ClassId
  pendingAllocation : ClassId → List Reference

namespace FunctionCollector

/-! ## The collector -/

/-- `collectImportsAndExports` and the start of `initialize`: imports and exports have a function,
and exports are on the worklist. -/
def initializeCollector (imports exports : List Reference) : FunctionCollector where
  functions := imports ++ exports
  worklist := exports
  allocatedClasses := []
  pendingAllocation := fun _ => []

def getFunction (fc : FunctionCollector) (target : Reference) : FunctionCollector :=
  if target ∈ fc.functions then fc
  else
    { fc with
      worklist := fc.worklist ++ [target]
      functions := fc.functions ++ [target] }

/-- The body of the loop of `activateSelector`. -/
def activateTarget (fc : FunctionCollector) (entry : ClassId × Reference) : FunctionCollector :=
  if entry.2.isAbstract then fc
  else if entry.1 ∈ fc.allocatedClasses then
    -- Class declaring or inheriting member is allocated somewhere.
    fc.getFunction entry.2
  else
    -- Remember the member in case an allocation is encountered later.
    { fc with
      pendingAllocation := fun c =>
        if c = entry.1 then fc.pendingAllocation c ++ [entry.2] else fc.pendingAllocation c }

def activateSelector (fc : FunctionCollector) (targets : TargetMap) : FunctionCollector :=
  targets.entries.foldl activateTarget fc

def allocateClass (fc : FunctionCollector) (classId : ClassId) : FunctionCollector :=
  if classId ∈ fc.allocatedClasses then fc
  else
    -- Schedule all members that were pending allocation of this class.
    (fc.pendingAllocation classId).foldl getFunction
      { fc with allocatedClasses := fc.allocatedClasses ++ [classId] }

/-- A use of the collector by the code generator; a selector is given by its targets. -/
inductive Event
  | getFunction (target : Reference)
  | activateSelector (targets : TargetMap)
  | allocateClass (classId : ClassId)

def step (fc : FunctionCollector) : Event → FunctionCollector
  | .getFunction target => fc.getFunction target
  | .activateSelector targets => fc.activateSelector targets
  | .allocateClass classId => fc.allocateClass classId

def collect (imports exports : List Reference) (events : List Event) : FunctionCollector :=
  events.foldl step (initializeCollector imports exports)

/-! ## What the methods do -/

/-- Every function has been put on the worklist exactly once, except for those that are only
imported. -/
structure Scheduled (imported : List Reference) (fc : FunctionCollector) : Prop where
  nodup : fc.worklist.Nodup
  mem_worklist : ∀ t, t ∈ fc.worklist ↔ t ∈ fc.functions ∧ t ∉ imported
  imported : ∀ t ∈ imported, t ∈ fc.functions

variable {imported : List Reference}

theorem getFunction_spec (fc : FunctionCollector) (target : Reference) :
    (∀ t, t ∈ (fc.getFunction target).functions ↔ t ∈ fc.functions ∨ t = target) ∧
      (fc.getFunction target).allocatedClasses = fc.allocatedClasses ∧
      (fc.getFunction target).pendingAllocation = fc.pendingAllocation ∧
      (fc.Scheduled imported → (fc.getFunction target).Scheduled imported) := by
  unfold getFunction
  split
  · rename_i hmem
    refine ⟨?_, rfl, rfl, id⟩
    intro t
    constructor
    · exact .inl
    · rintro (ht | rfl)
      · exact ht
      · exact hmem
  · rename_i hmem
    refine ⟨by simp, rfl, rfl, ?_⟩
    intro h
    refine ⟨?_, ?_, fun t ht => mem_append_left _ (h.imported t ht)⟩
    · refine nodup_append.2 ⟨h.nodup, by simp, ?_⟩
      rintro t ht u hu rfl
      obtain rfl : t = target := mem_singleton.1 hu
      exact hmem ((h.mem_worklist t).1 ht).1
    · intro t
      have := h.mem_worklist t
      have := h.imported t
      grind

theorem foldl_getFunction_spec (targets : List Reference) (fc : FunctionCollector) :
    (∀ t, t ∈ (targets.foldl getFunction fc).functions ↔ t ∈ fc.functions ∨ t ∈ targets) ∧
      (targets.foldl getFunction fc).allocatedClasses = fc.allocatedClasses ∧
      (targets.foldl getFunction fc).pendingAllocation = fc.pendingAllocation ∧
      (fc.Scheduled imported → (targets.foldl getFunction fc).Scheduled imported) := by
  induction targets generalizing fc with
  | nil =>
    simp
  | cons target targets ih =>
    rcases getFunction_spec fc target with ⟨hf, ha, hp, hs⟩
    rcases ih (fc.getFunction target) with ⟨hf', ha', hp', hs'⟩
    refine ⟨?_, ha'.trans ha, hp'.trans hp, fun h => hs' (hs h)⟩
    intro t
    simp only [foldl_cons, hf', hf, mem_cons, or_assoc]

theorem activateTarget_spec (fc : FunctionCollector) (d : ClassId) (u : Reference) :
    (∀ t, t ∈ (fc.activateTarget (d, u)).functions ↔ t ∈ fc.functions ∨
        d ∈ fc.allocatedClasses ∧ t = u ∧ t.isAbstract = false) ∧
      (fc.activateTarget (d, u)).allocatedClasses = fc.allocatedClasses ∧
      (∀ c t, t ∈ (fc.activateTarget (d, u)).pendingAllocation c ↔ t ∈ fc.pendingAllocation c ∨
        c ∉ fc.allocatedClasses ∧ c = d ∧ t = u ∧ t.isAbstract = false) ∧
      (fc.Scheduled imported → (fc.activateTarget (d, u)).Scheduled imported) := by
  unfold activateTarget
  split
  · rename_i habs
    refine ⟨?_, rfl, ?_, id⟩
    · grind
    · grind
  · rename_i habs
    split
    · rename_i halloc
      rcases getFunction_spec fc u with ⟨hf, ha, hp, hs⟩
      refine ⟨?_, ha, ?_, hs⟩
      · grind
      · grind
    · rename_i halloc
      refine ⟨?_, rfl, ?_, fun h => ⟨h.nodup, h.mem_worklist, h.imported⟩⟩
      · grind
      · grind

/-- Activating a list of entries: the targets of allocated classes get functions, the others become
pending. -/
theorem foldl_activateTarget_spec (entries : List (ClassId × Reference)) (fc : FunctionCollector) :
    (∀ t, t ∈ (entries.foldl activateTarget fc).functions ↔ t ∈ fc.functions ∨
        ∃ c ∈ fc.allocatedClasses, (c, t) ∈ entries ∧ t.isAbstract = false) ∧
      (entries.foldl activateTarget fc).allocatedClasses = fc.allocatedClasses ∧
      (∀ c t, t ∈ (entries.foldl activateTarget fc).pendingAllocation c ↔
        t ∈ fc.pendingAllocation c ∨
          c ∉ fc.allocatedClasses ∧ (c, t) ∈ entries ∧ t.isAbstract = false) ∧
      (fc.Scheduled imported → (entries.foldl activateTarget fc).Scheduled imported) := by
  induction entries generalizing fc with
  | nil =>
    simp
  | cons entry entries ih =>
    rcases entry with ⟨d, u⟩
    rcases activateTarget_spec fc d u with ⟨hf, ha, hp, hs⟩
    rcases ih (fc.activateTarget (d, u)) with ⟨hf', ha', hp', hs'⟩
    refine ⟨?_, ha'.trans ha, ?_, fun h => hs' (hs h)⟩
    · intro t
      rw [foldl_cons, hf', hf, ha]
      grind
    · intro c t
      rw [foldl_cons, hp', hp, ha]
      grind

theorem allocateClass_spec (fc : FunctionCollector) (classId : ClassId) :
    (∀ t, t ∈ (fc.allocateClass classId).functions ↔ t ∈ fc.functions ∨
        classId ∉ fc.allocatedClasses ∧ t ∈ fc.pendingAllocation classId) ∧
      (∀ c, c ∈ (fc.allocateClass classId).allocatedClasses ↔
        c ∈ fc.allocatedClasses ∨ c = classId) ∧
      (fc.allocateClass classId).pendingAllocation = fc.pendingAllocation ∧
      (fc.Scheduled imported → (fc.allocateClass classId).Scheduled imported) := by
  unfold allocateClass
  split
  · rename_i halloc
    refine ⟨?_, ?_, rfl, id⟩
    · grind
    · grind
  · rename_i halloc
    rcases foldl_getFunction_spec (fc.pendingAllocation classId)
      { fc with allocatedClasses := fc.allocatedClasses ++ [classId] } with ⟨hf, ha, hp, hs⟩
    refine ⟨?_, ?_, hp, fun h => hs ⟨h.nodup, h.mem_worklist, h.imported⟩⟩
    · grind
    · grind

/-! ## The invariant over a history of events -/

/-- The abstract view: the member is imported or exported, it has been asked for, or it is the
concrete target of an activated selector for an allocated class. -/
def Reached (imports exports : List Reference) (events : List Event) (t : Reference) : Prop :=
  t ∈ imports ∨ t ∈ exports ∨ .getFunction t ∈ events ∨
    ∃ targets c, .activateSelector targets ∈ events ∧ .allocateClass c ∈ events ∧
      targets.get c = some t ∧ t.isAbstract = false

/-- What the state of the collector records of the events so far. A target is pending for a class
not yet allocated; what was pending for an allocated class is kept. -/
structure Records (imports exports : List Reference) (events : List Event)
    (fc : FunctionCollector) : Prop where
  scheduled : fc.Scheduled (imports.filter (· ∉ exports))
  functions : ∀ t, t ∈ fc.functions ↔ Reached imports exports events t
  allocated : ∀ c, c ∈ fc.allocatedClasses ↔ .allocateClass c ∈ events
  pending_of_mem : ∀ c t, t ∈ fc.pendingAllocation c →
    ∃ targets, .activateSelector targets ∈ events ∧ targets.get c = some t ∧ t.isAbstract = false
  mem_pending : ∀ targets c t, .activateSelector targets ∈ events → targets.get c = some t →
    t.isAbstract = false → .allocateClass c ∉ events → t ∈ fc.pendingAllocation c

section

variable (imports exports : List Reference) (events : List Event)

theorem reached_snoc_getFunction (target t : Reference) :
    Reached imports exports (events ++ [.getFunction target]) t ↔
      Reached imports exports events t ∨ t = target := by
  simp only [Reached, mem_append, mem_singleton, Event.getFunction.injEq, reduceCtorEq, or_false]
  grind

theorem reached_snoc_activateSelector (targets : TargetMap) (t : Reference) :
    Reached imports exports (events ++ [.activateSelector targets]) t ↔
      Reached imports exports events t ∨
      ∃ c, .allocateClass c ∈ events ∧ targets.get c = some t ∧ t.isAbstract = false := by
  simp only [Reached, mem_append, mem_singleton, Event.activateSelector.injEq,
    reduceCtorEq, or_false]
  grind

theorem reached_snoc_allocateClass (classId : ClassId) (t : Reference) :
    Reached imports exports (events ++ [.allocateClass classId]) t ↔
      Reached imports exports events t ∨
      ∃ targets, .activateSelector targets ∈ events ∧ targets.get classId = some t ∧
        t.isAbstract = false := by
  simp only [Reached, mem_append, mem_singleton, Event.allocateClass.injEq, reduceCtorEq, or_false]
  grind

theorem step_records (e : Event) (fc : FunctionCollector) (h : Records imports exports events fc) :
    Records imports exports (events ++ [e]) (fc.step e) := by
  cases e with
  | getFunction target =>
    rcases getFunction_spec fc target with ⟨hf, ha, hp, hs⟩
    refine ⟨hs h.scheduled, ?_, ?_, ?_, ?_⟩
    · intro t
      rw [reached_snoc_getFunction, ← h.functions]
      exact hf t
    · intro c
      simp [step, ha, h.allocated]
    · intro c t ht
      simpa using h.pending_of_mem c t (by simpa [step, hp] using ht)
    · intro targets c t hact hget habs hnot
      have hpend := h.mem_pending targets c t (by simpa using hact) hget habs (by simpa using hnot)
      simpa [step, hp] using hpend
  | activateSelector targets =>
    rcases foldl_activateTarget_spec targets.entries fc with ⟨hf, ha, hp, hs⟩
    refine ⟨hs h.scheduled, ?_, ?_, ?_, ?_⟩
    · intro t
      rw [reached_snoc_activateSelector, ← h.functions]
      simp only [step, activateSelector, hf, h.allocated, OrderedMap.get_eq_some_iff]
    · intro c
      simp [step, activateSelector, ha, h.allocated]
    · intro c t ht
      rcases (hp c t).1 ht with hold | ⟨-, hmem, habs⟩
      · rcases h.pending_of_mem c t hold with ⟨targets', hact, hget, habs⟩
        exact ⟨targets', by simp [hact], hget, habs⟩
      · exact ⟨targets, by simp, OrderedMap.get_eq_some_iff.2 hmem, habs⟩
    · intro targets' c t hact hget habs hnot
      have hc : .allocateClass c ∉ events := by simpa using hnot
      refine (hp c t).2 ?_
      rcases mem_append.1 hact with hact | hact
      · exact .inl (h.mem_pending targets' c t hact hget habs hc)
      · have heq : targets' = targets := by simpa using hact
        refine .inr ⟨?_, OrderedMap.get_eq_some_iff.1 (heq ▸ hget), habs⟩
        intro hmem
        exact hc ((h.allocated c).1 hmem)
  | allocateClass classId =>
    rcases allocateClass_spec fc classId with ⟨hf, ha, hp, hs⟩
    refine ⟨hs h.scheduled, ?_, ?_, ?_, ?_⟩
    · intro t
      rw [reached_snoc_allocateClass, ← h.functions]
      refine (hf t).trans ?_
      constructor
      · rintro (hold | ⟨-, hpend⟩)
        · exact .inl hold
        · exact .inr (h.pending_of_mem classId t hpend)
      · rintro (hold | ⟨targets, hact, hget, habs⟩)
        · exact .inl hold
        · -- The target is pending, or the class had been allocated when it was activated.
          by_cases halloc : classId ∈ fc.allocatedClasses
          · refine .inl ((h.functions t).2 (.inr (.inr (.inr ?_))))
            exact ⟨targets, classId, hact, (h.allocated classId).1 halloc, hget, habs⟩
          · have hnot : .allocateClass classId ∉ events := fun hm =>
              halloc ((h.allocated classId).2 hm)
            exact .inr ⟨halloc, h.mem_pending targets classId t hact hget habs hnot⟩
    · intro c
      simp [step, ha, h.allocated]
    · intro c t ht
      rcases h.pending_of_mem c t (by simpa [step, hp] using ht) with ⟨targets, hact, hget, habs⟩
      exact ⟨targets, by simp [hact], hget, habs⟩
    · intro targets c t hact hget habs hnot
      have hc : .allocateClass c ∉ events := by
        intro hm
        exact hnot (by simp [hm])
      have hpend := h.mem_pending targets c t (by simpa using hact) hget habs hc
      simpa [step, hp] using hpend

end

theorem initializeCollector_records (hnodup : exports.Nodup) :
    Records imports exports [] (initializeCollector imports exports) := by
  refine ⟨⟨hnodup, fun t => ?_, fun t ht => ?_⟩, ?_, ?_, ?_, ?_⟩
  · simp only [initializeCollector, mem_append, mem_filter, decide_eq_true_eq]
    grind
  · exact mem_append_left _ (mem_of_mem_filter ht)
  · intro t
    simp [initializeCollector, Reached]
  · intro c
    simp [initializeCollector]
  · intro c t ht
    simp [initializeCollector] at ht
  · intro targets c t hact
    simp at hact

theorem collect_records (hnodup : exports.Nodup)
    (events : List Event) : Records imports exports events (collect imports exports events) :=
  foldl_history (step_records imports exports) (initializeCollector_records hnodup) events

/-! ## Tree shaking -/

/-- After any sequence of events exactly the reached members have a function, each that is not only
imported has been put on the worklist once, and the order of the events does not matter. -/
theorem collect_complete_and_order_independent {imports exports : List Reference}
    (hnodup : exports.Nodup) (events : List Event) :
    (∀ t, t ∈ (collect imports exports events).functions ↔
        t ∈ imports ∨ t ∈ exports ∨ .getFunction t ∈ events ∨
          ∃ targets c, .activateSelector targets ∈ events ∧ .allocateClass c ∈ events ∧
            targets.get c = some t ∧ t.isAbstract = false) ∧
      (∀ t, t ∈ (collect imports exports events).functions → (t ∈ imports → t ∈ exports) →
        (collect imports exports events).worklist.count t = 1) ∧
      (∀ t, t ∈ (collect imports exports events).worklist →
        t ∈ (collect imports exports events).functions ∧ (t ∈ imports → t ∈ exports)) ∧
      ∀ events', events'.Perm events → ∀ t,
        t ∈ (collect imports exports events').functions ↔
          t ∈ (collect imports exports events).functions := by
  have h : Records imports exports events _ := collect_records hnodup events
  have hworklist := h.scheduled.mem_worklist
  simp only [mem_filter, decide_eq_true_eq, not_and, not_not] at hworklist
  refine ⟨h.functions, ?_, ?_, ?_⟩
  · intro t ht himport
    exact count_eq_one_of_mem h.scheduled.nodup ((hworklist t).2 ⟨ht, himport⟩)
  · intro t ht
    exact (hworklist t).1 ht
  · intro events' hperm t
    rw [(collect_records hnodup events').functions, h.functions]
    simp only [Reached, hperm.mem_iff]

/-- A selector activated before its class is allocated: the pending target gets its function. -/
theorem collect_pending_target :
    (⟨1, false⟩ : Reference) ∈ (collect [⟨7, false⟩] [⟨0, false⟩]
      [.activateSelector ⟨[(4, ⟨1, false⟩), (5, ⟨2, false⟩)], by decide⟩,
        .allocateClass 4]).functions :=
  ((collect_complete_and_order_independent (nodup_singleton _) _).1 _).2
    (.inr (.inr (.inr ⟨⟨[(4, ⟨1, false⟩), (5, ⟨2, false⟩)], by decide⟩, 4, by simp, by simp, rfl,
    rfl⟩)))

end FunctionCollector
end Dart2Wasm
