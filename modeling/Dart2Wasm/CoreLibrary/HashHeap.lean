import Dart2Wasm.CoreLibrary.HashTable

/-!
# HashHeap — collections that are put into each other

A program uses several maps or sets, each of one of the classes that mix in the methods. `addAll` of
two collections puts the entries of one into the other in a loop, or copies the lists as a whole.
How an entry is put and how the loop goes differs between maps and sets: `PutsInto` and `Traverses`
say what is needed of them.
-/

namespace Dart2Wasm.CompactHash

open List Nat Option Lib

variable {K E C Cls : Type}

structure Object (Cls C : Type) where
  cls : Cls
  fields : Fields C

/-- Puts an entry into a collection of the heap, in a loop that drops what `put` returns. -/
def putAt (put : Cls → Fields C → E → Option (Fields C)) (id : Nat) (heap : List (Object Cls C))
    (e : E) : Option (List (Object Cls C)) := do
  let object ← heap[id]?
  let fields ← put object.cls object.fields e
  some (heap.set id { object with fields := fields })

/-- The classes that override `addAll` try a block copy into an empty collection. -/
def Kind.addAll (T : Kind K E C) (blockCopies : Cls → Cls → Bool)
    (mixinAddAll : List (Object Cls C) → Option (List (Object Cls C) × Bool)) (id other : Nat)
    (heap : List (Object Cls C)) : Option (List (Object Cls C) × Bool) := do
  let object ← heap[id]?
  let source ← heap[other]?
  if blockCopies object.cls source.cls && T.isEmpty object.fields then
    match quickCopy object.fields source.fields with
    | some fields => some (heap.set id { object with fields := fields }, false)
    | none => mixinAddAll heap
  else mixinAddAll heap

/-- A loop over the collection that `table` finds, with an action that leaves its entries as they
are, comes by every entry that is left and throws nothing. `I done s` is the invariant after the
entries `done`. -/
def Kind.Traverses (T : Kind K E C) {σ : Type}
    (loop : (σ → Option (Fields C)) → (σ → E → Option σ) → σ → Option (σ × Bool)) : Prop :=
  ∀ (table : σ → Option (Fields C)) (action : σ → E → Option σ) (entries : List (Option E))
    (dataId sum : Nat) (I : List E → σ → Prop) (s : σ),
    (∀ done s, I done s → ∃ m spare, table s = some m ∧ Layout T m entries spare ∧
      m.dataId = dataId ∧ checkSum m = sum) →
    (∀ done e rest s, entries.reduceOption = done ++ e :: rest → I done s →
      ∃ s', action s e = some s' ∧ I (done ++ [e]) s') →
    I [] s → ∃ s', loop table action s = some (s', false) ∧ I entries.reduceOption s'

/-- What putting an entry does to the list of the entries that are left. -/
structure Kind.PutsInto (T : Kind K E C) (hashing : Hashing K)
    (put : Fields C → E → Option (Fields C)) (putInto : List E → E → List E) : Prop where
  absent : ∀ l e, (∀ p ∈ l, hashing.equals (T.keyOf e) (T.keyOf p) = false) →
    putInto l e = l ++ [e]
  self : ∀ l e, Distinct hashing (l.map T.keyOf) → e ∈ l → putInto l e = l
  length_le : ∀ l e, l.length ≤ (putInto l e).length
  valid : ∀ m entries e, Valid T hashing m entries →
    (putInto entries.reduceOption e).length ≤ maxKeys →
      ∃ m' entries', put m e = some m' ∧ Valid T hashing m' entries' ∧
        entries'.reduceOption = putInto entries.reduceOption e
  valid_self : ∀ m entries e, Valid T hashing m entries → e ∈ entries.reduceOption →
    ∃ m', put m e = some m' ∧ Valid T hashing m' entries ∧ m'.dataId = m.dataId ∧
      checkSum m' = checkSum m

variable {T : Kind K E C}

/-- The cells tell which entries they hold. -/
theorem Valid.entries_unique {hashing : Hashing K} {m : Fields C}
    {entries entries' : List (Option E)}
    (h : Valid T hashing m entries) (h' : Valid T hashing m entries') : entries = entries' := by
  obtain ⟨spare, hlayout⟩ := h.layout
  obtain ⟨spare', hlayout'⟩ := h'.layout
  have hlen := Nat.eq_of_mul_eq_mul_left T.width_pos (hlayout.used_eq.symm.trans hlayout'.used_eq)
  refine ext_getElem hlen fun j hj hj' => ?_
  have hread := (hlayout.read_eq (getElem?_eq_getElem hj)).symm.trans
    (hlayout'.read_eq (getElem?_eq_getElem hj'))
  exact some.inj hread

namespace Kind.PutsInto

variable {hashing : Hashing K} {put : Fields C → E → Option (Fields C)}
  {putInto : List E → E → List E} (P : T.PutsInto hashing put putInto) {l source : List E}
include P

theorem length_le_foldl (l source : List E) : l.length ≤ (source.foldl putInto l).length := by
  induction source generalizing l with
  | nil => exact le_refl _
  | cons e source ih => exact (P.length_le l e).trans (ih _)

/-- Entries whose keys are all new go to the end in their order. -/
theorem foldl_distinct (hlaw : hashing.Lawful)
    (h : Distinct hashing ((l ++ source).map T.keyOf)) : source.foldl putInto l = l ++ source := by
  induction source generalizing l with
  | nil => exact (append_nil l).symm
  | cons e source ih =>
    rw [append_cons] at h ⊢
    have hnew : ∀ p ∈ l, hashing.equals (T.keyOf e) (T.keyOf p) = false := by
      intro p hp
      rw [map_append, map_append] at h
      exact h.ne_last hlaw _ (mem_map_of_mem hp)
    rw [foldl_cons, P.absent l e hnew, ih h]

theorem foldl_self (h : Distinct hashing (l.map T.keyOf)) (hsub : ∀ e ∈ source, e ∈ l) :
    source.foldl putInto l = l := by
  induction source with
  | nil => rfl
  | cons e source ih =>
    rw [foldl_cons, P.self l e h (hsub e mem_cons_self)]
    exact ih fun e he => hsub e (mem_cons_of_mem _ he)

end Kind.PutsInto

section Heap

variable {hashing : Cls → Hashing K} {put : Cls → Fields C → E → Option (Fields C)}
  {putInto : Cls → List E → E → List E} {heap heap' : List (Object Cls C)} {id other : Nat}
  {object source : Object Cls C} {l : List E} {entries entries' : List (Option E)}

/-- The heap with one of its collections changed, which stands for `l` now. -/
def Changed (T : Kind K E C) (hashing : Cls → Hashing K) (heap : List (Object Cls C)) (id : Nat)
    (object : Object Cls C) (l : List E) (heap' : List (Object Cls C)) : Prop :=
  ∃ fields entries, heap' = heap.set id { object with fields := fields } ∧
    Valid T (hashing object.cls) fields entries ∧ entries.reduceOption = l

theorem set_self {α : Type} {as : List α} {i : Nat} {a : α} (h : as[i]? = some a) :
    as.set i a = as := by
  obtain ⟨hlt, rfl⟩ := List.getElem?_eq_some_iff.1 h
  exact set_getElem_self hlt

theorem putAt_eq {e : E} {fields : Fields C} (hid : heap[id]? = some object)
    (hput : put object.cls object.fields e = some fields) :
    putAt put id heap e = some (heap.set id { object with fields := fields }) := by
  rw [putAt, hid]
  simp only [some_bind, hput]

variable (P : ∀ c, T.PutsInto (hashing c) (put c) (putInto c)) (hid : heap[id]? = some object)
include hid

theorem Changed.start (hvalid : Valid T (hashing object.cls) object.fields entries) :
    Changed T hashing heap id object entries.reduceOption heap :=
  ⟨object.fields, entries, (set_self hid).symm, hvalid, rfl⟩

include P

theorem Changed.putAt (h : Changed T hashing heap id object l heap') (e : E)
    (hcap : (putInto object.cls l e).length ≤ maxKeys) :
    ∃ heap'', putAt put id heap' e = some heap'' ∧
      Changed T hashing heap id object (putInto object.cls l e) heap'' := by
  obtain ⟨fields, entries, rfl, hvalid, rfl⟩ := h
  have hlt := (List.getElem?_eq_some_iff.1 hid).1
  obtain ⟨fields', entries', hput, hvalid', hl'⟩ := (P object.cls).valid _ _ e hvalid hcap
  refine ⟨_, putAt_eq (List.getElem?_set_self hlt) hput, fields', entries', ?_, hvalid', hl'⟩
  rw [List.set_set]

theorem Changed.foldlM_putAt (h : Changed T hashing heap id object l heap') (source : List E)
    (hcap : (source.foldl (putInto object.cls) l).length ≤ maxKeys) :
    ∃ heap'', source.foldlM (CompactHash.putAt put id) heap' = some heap'' ∧
      Changed T hashing heap id object (source.foldl (putInto object.cls) l) heap'' := by
  induction source generalizing heap' l with
  | nil => exact ⟨heap', rfl, h⟩
  | cons e source ih =>
    obtain ⟨heap₁, hput, h₁⟩ :=
      h.putAt P hid e (((P _).length_le_foldl _ source).trans hcap)
    obtain ⟨heap₂, hloop, h₂⟩ := ih h₁ hcap
    refine ⟨heap₂, ?_, h₂⟩
    rw [foldlM_cons, hput]
    exact hloop

section

variable {loop : (List (Object Cls C) → Option (Fields C)) →
    (List (Object Cls C) → E → Option (List (Object Cls C))) → List (Object Cls C) →
    Option (List (Object Cls C) × Bool)}
  (hloop : T.Traverses loop) (hvalid : Valid T (hashing object.cls) object.fields entries)
include hloop hvalid

theorem mixinAddAll_other (hother : heap[other]? = some source) (hne : id ≠ other)
    (hsource : Valid T (hashing source.cls) source.fields entries')
    (hcap : (entries'.reduceOption.foldl (putInto object.cls) entries.reduceOption).length ≤
      maxKeys) :
    ∃ heap', loop (fun heap => heap[other]?.map Object.fields) (putAt put id) heap =
        some (heap', false) ∧
      Changed T hashing heap id object
        (entries'.reduceOption.foldl (putInto object.cls) entries.reduceOption) heap' := by
  obtain ⟨spare, hlayout⟩ := hsource.layout
  refine hloop _ _ entries' source.fields.dataId (checkSum source.fields)
    (fun done => Changed T hashing heap id object
      (done.foldl (putInto object.cls) entries.reduceOption)) heap ?_ ?_ (.start hid hvalid)
  · rintro done _ ⟨fields, entries'', rfl, -, -⟩
    refine ⟨source.fields, spare, ?_, hlayout, rfl, rfl⟩
    rw [getElem?_set_ne hne, hother, map_some]
  · intro done e rest _ hsplit hchanged
    rw [foldl_append]
    refine hchanged.putAt P hid e (le_trans ?_ hcap)
    rw [hsplit, foldl_append]
    exact (P _).length_le_foldl _ rest

/-- Putting the entries of a collection into itself leaves it as it is. -/
theorem mixinAddAll_self :
    ∃ heap', loop (fun heap => heap[id]?.map Object.fields) (putAt put id) heap =
        some (heap', false) ∧
      Changed T hashing heap id object entries.reduceOption heap' := by
  have hlt := (List.getElem?_eq_some_iff.1 hid).1
  obtain ⟨heap', hrun, fields, rfl, hvalid', -⟩ :=
    hloop (fun heap => heap[id]?.map Object.fields) (putAt put id) entries object.fields.dataId
      (checkSum object.fields)
      (fun _ heap' => ∃ fields, heap' = heap.set id { object with fields := fields } ∧
        Valid T (hashing object.cls) fields entries ∧ fields.dataId = object.fields.dataId ∧
        checkSum fields = checkSum object.fields) heap
      (by
        rintro done _ ⟨fields, rfl, hvalid', hdata, hsum⟩
        obtain ⟨spare', hlayout'⟩ := hvalid'.layout
        refine ⟨fields, spare', ?_, hlayout', hdata, hsum⟩
        rw [List.getElem?_set_self hlt, map_some])
      (by
        rintro done e rest _ hsplit ⟨fields, rfl, hvalid', hdata, hsum⟩
        have hmem : e ∈ entries.reduceOption := by
          rw [hsplit]
          exact mem_append_right _ mem_cons_self
        obtain ⟨fields', hput, hvalid'', hdata', hsum'⟩ :=
          (P object.cls).valid_self _ _ e hvalid' hmem
        refine ⟨_, putAt_eq (List.getElem?_set_self hlt) hput, fields', ?_, hvalid'',
          hdata'.trans hdata, hsum'.trans hsum⟩
        rw [List.set_set])
      ⟨object.fields, (set_self hid).symm, hvalid, rfl, rfl⟩
  exact ⟨_, hrun, fields, entries, rfl, hvalid', rfl⟩

/-- Whichever way `addAll` goes, the collection holds what putting entry by entry gives. -/
theorem addAll_changed (hlaw : ∀ c, (hashing c).Lawful) {blockCopies : Cls → Cls → Bool}
    (hblock : ∀ {c c'}, blockCopies c c' = true → c = c') (hother : heap[other]? = some source)
    (hsource : Valid T (hashing source.cls) source.fields entries')
    (hcap : (entries'.reduceOption.foldl (putInto object.cls) entries.reduceOption).length ≤
      maxKeys) :
    ∃ heap', T.addAll blockCopies
        (loop (fun heap => heap[other]?.map Object.fields) (putAt put id)) id other heap =
          some (heap', false) ∧
      Changed T hashing heap id object
        (entries'.reduceOption.foldl (putInto object.cls) entries.reduceOption) heap' := by
  have hmixin : ∃ heap', loop (fun heap => heap[other]?.map Object.fields) (putAt put id) heap =
        some (heap', false) ∧
      Changed T hashing heap id object
        (entries'.reduceOption.foldl (putInto object.cls) entries.reduceOption) heap' := by
    by_cases hne : id = other
    · subst hne
      cases hid.symm.trans hother
      obtain rfl := hvalid.entries_unique hsource
      rw [(P _).foldl_self hvalid.distinct fun e he => he]
      exact mixinAddAll_self P hid hloop hvalid
    · exact mixinAddAll_other P hid hloop hvalid hother hne hsource hcap
  rw [Kind.addAll, hid, hother]
  simp only [some_bind]
  split
  · rename_i hcopies
    obtain ⟨hcls, hempty⟩ := Bool.and_eq_true_iff.1 hcopies
    obtain ⟨spare, hlayout⟩ := hvalid.layout
    have hnil : entries.reduceOption = [] := hlayout.isEmpty_iff.1 hempty
    rw [← hblock hcls] at hsource
    split
    · rename_i fields hcopy
      obtain ⟨entries'', hvalid'', hl''⟩ := hvalid.quickCopy hnil hsource hcopy
      refine ⟨_, rfl, fields, entries'', rfl, hvalid'', ?_⟩
      -- into an empty collection the entries of the other go as they are
      rw [hl'', hnil, (P _).foldl_distinct (hlaw _) hsource.distinct]
      rfl
    · exact hmixin
  · exact hmixin

end

end Heap

end Dart2Wasm.CompactHash
