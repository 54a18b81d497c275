import Mathlib
import Dart2Wasm.Lib.StructuredCode
import Dart2Wasm.DispatchTable.Build

/-!
# CodeGenerator.VirtualCall — two ways to call a virtual method

A virtual call has the receiver and the arguments on the stack and either indexes the dispatch table
with the selector's offset plus the class id of the receiver, or tests the class id against the
implementations of the selector (`_polymorphicSpecialization` in
`dart2wasm/lib/code_generator.dart`). The tests come from a loop: a target that a single class id
implements is peeled off with an equality test, and if there is none the remaining ids are split in
two at a pivot. The split is only tried once every remaining target has at least two ids, and
compilation fails if one split does not separate the remaining targets.

The callees are arbitrary functions of their arguments and the heap, so that two pieces of code call
the same target exactly if they agree for all callees.
-/

namespace Dart2Wasm

open Lib Code List Nat
open OrderedMap (get_eq_some_iff eq_of_mem)

variable {m : TargetMap} {p : ClassId × Reference → Bool} {e : ClassId × Reference} {t : Reference}
  {id : ClassId} {a b fuel : Nat} {code : Code CallInstr}

namespace TargetMap

variable {target : Reference}

def removeWhere (m : TargetMap) (p : ClassId × Reference → Bool) : TargetMap where
  entries := m.entries.filter fun e => !p e
  nodup := m.nodup.sublist (List.filter_sublist.map Prod.fst)

theorem mem_removeWhere : e ∈ (m.removeWhere p).entries ↔ e ∈ m.entries ∧ p e = false := by
  simp [removeWhere]

end TargetMap

open TargetMap

namespace CodeGenerator

/-! ## Emitted code -/

inductive CallInstr
  -- Load the class id of the receiver.
  | getClassId
  | localSetId
  | localGetId
  | i32Const (value : Int)
  | i32Add
  | i32Eq
  | i32LtU
  | call (target : Reference)
  | callIndirect
  deriving DecidableEq

inductive GenError
  | assertion
  -- `first` or `firstWhere` without such an element.
  | noElement
  -- The loop over the implementations has not ended.
  | unfinished
  deriving DecidableEq

/-- `i32_const`, with its assertion. -/
def i32Const (value : Int) : Except GenError (Code CallInstr) :=
  if -2 ^ 31 ≤ value ∧ value < 2 ^ 31 then .ok (.act (.i32Const value)) else .error .assertion

/-- The call through the table in `_virtualCall`. -/
def dispatchCall (offset : Int) : Except GenError (Code CallInstr) :=
  if offset = 0 then .ok (.seqs [.act .getClassId, .act .callIndirect])
  else do
    let const ← i32Const offset
    pure (.seqs [.act .getClassId, const, .act .i32Add, .act .callIndirect])

/-- Compare the class id with a constant and call the target on success. The arguments pass through
the conditional; the branch leaves it and the block. -/
def testAndCall (inputs : Nat) (id : ClassId) (compare : CallInstr) (target : Reference) :
    Except GenError (Code CallInstr) := do
  let const ← i32Const id
  pure (.seqs [.act .localGetId, const, .act compare,
    .if_ inputs inputs (.seqs [.act (.call target), .br 1]) .skip])

/-- The first class id, in the order of the map, whose target no other class id has. -/
def singleClassId (implementations : TargetMap) : Option (ClassId × Reference) :=
  implementations.entries.find? fun e =>
    (implementations.entries.filter fun e' => e'.2 == e.2).length == 1

/-- A class id that separates the remaining ids in two, the target of the ids before it, and these
ids. -/
structure Separation where
  pivotId : ClassId
  target : Reference
  before : List ClassId

def separate (implementations : TargetMap) : Except GenError Separation :=
  let sorted := (implementations.entries.map Prod.fst).insertionSort (· ≤ ·)
  match sorted with
  | [] => .error .noElement
  | first :: _ =>
    match sorted.find? fun id => implementations.get id != implementations.get first with
    | none => .error .noElement
    | some pivotId =>
      match sorted.reverse.find? fun id =>
          implementations.get id != implementations.get pivotId with
      | none => .error .noElement
      | some last =>
        if (last : Int) = pivotId - 1 then
          match implementations.get first with
          | none => .error .noElement
          | some target => .ok ⟨pivotId, target, sorted.takeWhile (· != pivotId)⟩
        else .error .assertion

/-- The `while` loop and the call after it. -/
def specializeCalls (inputs : Nat) : Nat → TargetMap → Except GenError (Code CallInstr)
  | 0, _ => .error .unfinished
  | fuel + 1, implementations =>
    if 1 < (implementations.entries.map Prod.snd).dedup.length then
      match singleClassId implementations with
      | some (id, target) => do
        let test ← testAndCall inputs id .i32Eq target
        let rest ← specializeCalls inputs fuel (implementations.removeWhere (·.1 == id))
        pure (.seq test rest)
      | none => do
        let split ← separate implementations
        let test ← testAndCall inputs split.pivotId .i32LtU split.target
        let rest ← specializeCalls inputs fuel
          (implementations.removeWhere (split.before.contains ·.1))
        pure (.seq test rest)
    else
      match implementations.entries with
      | [] => .error .noElement
      | (_, target) :: _ => .ok (.act (.call target))

/-- The targets that a call can reach. -/
def concrete (targets : TargetMap) : TargetMap :=
  targets.removeWhere (·.2.isAbstract)

/-- `_polymorphicSpecialization`. -/
def polymorphicSpecialization (inputs outputs : Nat) (targets : TargetMap) :
    Except GenError (Code CallInstr) := do
  let implementations := concrete targets
  let calls ← specializeCalls inputs (implementations.entries.length + 1) implementations
  pure (.seqs [.act .getClassId, .act .localSetId, .block inputs outputs calls])

/-! ## Execution -/

inductive Operand (V : Type)
  | i32 (n : BitVec 32)
  | value (v : V)

/-- The local for the class id and the heap. -/
structure CallState (S : Type) where
  idVar : BitVec 32
  heap : S

/-- The receiver's class id, the dispatch table and the callees, of a signature with the given
numbers of inputs and outputs. -/
structure CallEnv (V S : Type) (inputs outputs : Nat) where
  receiver : ClassId
  table : DispatchTable.Slots
  invoke : Reference → List (Operand V) → S → Option (List (Operand V) × S)
  invoke_length : ∀ t args heap r, invoke t args heap = some r → r.1.length = outputs

namespace CallEnv

variable {V S : Type} {inputs outputs : Nat} (env : CallEnv V S inputs outputs)

def call (target : Reference) (stack : List (Operand V)) (s : CallState S) :
    Option (List (Operand V) × CallState S) :=
  if inputs ≤ stack.length then
    (env.invoke target (stack.take inputs) s.heap).map fun r =>
      (r.1 ++ stack.drop inputs, { s with heap := r.2 })
  else none

def act : CallInstr → List (Operand V) → CallState S → Option (List (Operand V) × CallState S)
  | .getClassId, stack, s => some (.i32 (BitVec.ofNat 32 env.receiver) :: stack, s)
  | .localSetId, .i32 n :: stack, s => some (stack, { s with idVar := n })
  | .localGetId, stack, s => some (.i32 s.idVar :: stack, s)
  | .i32Const value, stack, s => some (.i32 (BitVec.ofInt 32 value) :: stack, s)
  | .i32Add, .i32 b :: .i32 a :: stack, s => some (.i32 (a + b) :: stack, s)
  | .i32Eq, .i32 b :: .i32 a :: stack, s => some (.i32 (if a = b then 1 else 0) :: stack, s)
  | .i32LtU, .i32 b :: .i32 a :: stack, s =>
    some (.i32 (if a.toNat < b.toNat then 1 else 0) :: stack, s)
  | .call target, stack, s => env.call target stack s
  | .callIndirect, .i32 n :: stack, s =>
    match slot env.table n.toNat with
    | some target => env.call target stack s
    | none => none
  | _, _, _ => none

def machine : Machine CallInstr (Operand V) (CallState S) where
  act := env.act
  test
    | .i32 n => some (n != 0)
    | .value _ => none

/-- The observable result of code: how it ends and the heap it leaves. -/
def runCode (fuel : Nat) (code : Code CallInstr) (stack : List (Operand V)) (s : CallState S) :
    Option (Outcome (Operand V) × S) :=
  (code.exec env.machine fuel stack s).map fun r => (r.1, r.2.heap)

def runCall (target : Reference) (stack : List (Operand V)) (s : CallState S) :
    Option (Outcome (Operand V) × S) :=
  (env.call target stack s).map fun r => (.normal r.1, r.2.heap)

section

variable {stack : List (Operand V)} {s : CallState S}

/-- In a block, a call sees its arguments and nothing below; its results are those of the call
outside. -/
theorem call_take (target : Reference) :
    ((env.call target (stack.take inputs) s).map fun r =>
        (r.1.take outputs ++ stack.drop inputs, r.2)) = env.call target stack s := by
  have htake : (stack.take inputs).take inputs = stack.take inputs := by simp
  by_cases hlen : inputs ≤ stack.length
  · cases hinvoke : env.invoke target (stack.take inputs) s.heap with
    | none => simp only [call, hlen, htake, hinvoke]; simp
    | some r =>
      have hr : r.1.length = outputs := env.invoke_length _ _ _ _ hinvoke
      simp only [call, hlen, htake, hinvoke]
      simp [hlen, ← hr]
  · simp [call, hlen]

theorem runCall_congr (target : Reference) {s' : CallState S}
    (h : s.heap = s'.heap) : env.runCall target stack s = env.runCall target stack s' := by
  simp only [runCall, call, h]
  split
  · simp [Option.map_map, Function.comp_def]
  · rfl

theorem machine_test_one : env.machine.test (.i32 1#32) = some true := rfl

theorem machine_test_zero : env.machine.test (.i32 0#32) = some false := rfl

theorem act_getClassId :
    env.machine.act .getClassId stack s =
      some (.i32 (BitVec.ofNat 32 env.receiver) :: stack, s) := rfl

theorem act_localSetId (n : BitVec 32) :
    env.machine.act .localSetId (.i32 n :: stack) s = some (stack, { s with idVar := n }) := rfl

theorem act_i32Add (a b : BitVec 32) :
    env.machine.act .i32Add (.i32 b :: .i32 a :: stack) s = some (.i32 (a + b) :: stack, s) := rfl

theorem act_callIndirect {n : BitVec 32} (h : slot env.table n.toNat = some t) :
    env.machine.act .callIndirect (.i32 n :: stack) s = env.call t stack s := by
  simp [machine, act, h]

theorem act_localGetId :
    env.machine.act .localGetId stack s = some (.i32 s.idVar :: stack, s) := rfl

theorem act_i32Const (value : Int) :
    env.machine.act (.i32Const value) stack s =
      some (.i32 (BitVec.ofInt 32 value) :: stack, s) := rfl

/-! ## What the emitted code does -/

theorem i32Const_ok {value : Int} (h : i32Const value = .ok code) :
    code = .act (.i32Const value) ∧ -2 ^ 31 ≤ value ∧ value < 2 ^ 31 := by
  unfold i32Const at h
  split at h
  · next hfits => exact ⟨(Except.ok.inj h).symm, hfits⟩
  · cases h

theorem testAndCall_ok {compare : CallInstr} (h : testAndCall inputs id compare target = .ok code) :
    code = .seqs [.act .localGetId, .act (.i32Const id), .act compare,
      .if_ inputs inputs (.seqs [.act (.call target), .br 1]) .skip] := by
  unfold testAndCall at h
  cases hconst : i32Const id with
  | error e =>
    rw [hconst] at h
    cases h
  | ok const =>
    rw [hconst] at h
    rw [← (i32Const_ok hconst).1]
    exact (Except.ok.inj h).symm

/-- The arguments are left alone unless the test succeeds; then the target is called and control
leaves the block. -/
theorem testAndCall_exec {compare : CallInstr} (h : testAndCall inputs id compare target = .ok code)
    {P : Prop} [Decidable P] {args : List (Operand V)} (hargs : args.length ≤ inputs)
    (hcompare : env.machine.act compare (.i32 (BitVec.ofInt 32 id) :: .i32 s.idVar :: args) s =
      some (.i32 (if P then 1#32 else 0#32) :: args, s)) (fuel : Nat) :
    code.exec env.machine fuel args s =
      if P then (env.call target args s).map fun r => (.branch 0 r.1, r.2)
      else some (.normal args, s) := by
  have htake : args.take inputs = args := take_of_length_le hargs
  have hdrop : args.drop inputs = [] := drop_of_length_le hargs
  rw [testAndCall_ok h]
  simp only [seqs]
  rw [exec_act_seq env.act_localGetId, exec_act_seq (env.act_i32Const id), exec_act_seq hcompare]
  by_cases hP : P
  · rw [if_pos hP, if_pos hP]
    simp only [exec, machine_test_one, htake]
    cases hcall : env.call target args s <;> simp [machine, act, hcall, Outcome.leave]
  · rw [if_neg hP, if_neg hP]
    simp only [exec, machine_test_zero, htake, hdrop]
    simp [Outcome.leave, htake]

theorem i32Eq_exec (ha : a < 2 ^ 31) (hb : b < 2 ^ 31) :
    env.machine.act .i32Eq (.i32 (BitVec.ofInt 32 b) :: .i32 (BitVec.ofNat 32 a) :: stack) s =
      some (.i32 (if a = b then 1#32 else 0#32) :: stack, s) := by
  have hiff : BitVec.ofNat 32 a = BitVec.ofInt 32 b ↔ a = b := by
    rw [BitVec.ofInt_natCast, ← BitVec.toNat_inj, BitVec.toNat_ofNat, BitVec.toNat_ofNat]
    omega
  simp only [machine, act, hiff]
  rfl

theorem i32LtU_exec (ha : a < 2 ^ 31) (hb : b < 2 ^ 31) :
    env.machine.act .i32LtU (.i32 (BitVec.ofInt 32 b) :: .i32 (BitVec.ofNat 32 a) :: stack) s =
      some (.i32 (if a < b then 1#32 else 0#32) :: stack, s) := by
  have hiff : (BitVec.ofNat 32 a).toNat < (BitVec.ofInt 32 b).toNat ↔ a < b := by
    rw [BitVec.ofInt_natCast, BitVec.toNat_ofNat, BitVec.toNat_ofNat]
    omega
  simp only [machine, act, hiff]
  rfl

end

end CallEnv

/-! ## The split at a pivot -/

theorem mem_sorted :
    id ∈ (m.entries.map Prod.fst).insertionSort (· ≤ ·) ↔ ∃ t, (id, t) ∈ m.entries := by
  simp

theorem find?_first {r : Nat → Nat → Prop} (hr : ∀ a b, r a b → ¬ r b a) {l : List Nat}
    (hl : l.Pairwise r) {p : Nat → Bool} {x : Nat} (h : l.find? p = some x) {y : Nat}
    (hy : y ∈ l) (hyx : r y x) : p y = false := by
  rcases find?_eq_some_iff_append.1 h with ⟨-, before, after, rfl, hbefore⟩
  rcases pairwise_append.1 hl with ⟨-, hafter, -⟩
  rcases mem_append.1 hy with hy | hy
  · simpa using hbefore y hy
  · rcases mem_cons.1 hy with rfl | hy
    · exact absurd hyx (hr _ _ hyx)
    · exact absurd hyx (hr _ _ ((pairwise_cons.1 hafter).1 y hy))

/-- In an increasing list, what stands before an element is what is smaller. -/
theorem mem_takeWhile_ne {l : List Nat} (hl : l.Pairwise (· < ·)) {pivot : Nat} (hp : pivot ∈ l)
    (id : Nat) : id ∈ l.takeWhile (· != pivot) ↔ id ∈ l ∧ id < pivot := by
  rcases append_of_mem hp with ⟨before, after, rfl⟩
  rcases pairwise_append.1 hl with ⟨-, hafter, hlt⟩
  have htake : (before ++ pivot :: after).takeWhile (· != pivot) = before := by
    rw [takeWhile_append_of_pos]
    · simp
    · intro a ha
      have := hlt a ha pivot (by simp)
      simpa using Nat.ne_of_lt this
  rw [htake]
  constructor
  · intro h
    exact ⟨by simp [h], hlt id h pivot (by simp)⟩
  · rintro ⟨h, hid⟩
    rcases mem_append.1 h with h | h
    · exact h
    · rcases mem_cons.1 h with rfl | h
      · exact absurd hid (lt_irrefl _)
      · exact absurd hid (lt_asymm ((pairwise_cons.1 hafter).1 id h))

/-- The ids before `pivot` have target `a` and the others `b`. -/
def Split (entries : List (ClassId × Reference)) (pivot : ClassId) (a b : Reference) : Prop :=
  ∀ e ∈ entries, e.2 = if e.1 < pivot then a else b

def SameTarget (entries : List (ClassId × Reference)) : Prop :=
  ∀ e ∈ entries, ∀ e' ∈ entries, e.2 = e'.2

/-- In the order of the ids, one target is followed by another. -/
def TwoRuns (entries : List (ClassId × Reference)) : Prop :=
  ∃ pivot a b, Split entries pivot a b

/-- Two runs without a gap between them. -/
def AdjacentRuns (entries : List (ClassId × Reference)) : Prop :=
  ∃ last a b, Split entries (last + 1) a b ∧ (last, a) ∈ entries ∧ (last + 1, b) ∈ entries

/-- What the search for a pivot finds in a map with two different targets. -/
theorem separate_eq (hm : ¬ SameTarget m.entries) :
    ∃ a b, ∃ pivot last : Nat, a ≠ b ∧ (pivot, b) ∈ m.entries ∧
      (∃ first < pivot, (first, a) ∈ m.entries) ∧ (∀ e ∈ m.entries, e.1 < pivot → e.2 = a) ∧
      (∃ t, (last, t) ∈ m.entries ∧ t ≠ b) ∧
      (∀ e ∈ m.entries, last < e.1 → e.2 = b) ∧
      ∃ before : List ClassId, (∀ e ∈ m.entries, e.1 ∈ before ↔ e.1 < pivot) ∧
        separate m = if last + 1 = pivot then .ok ⟨pivot, a, before⟩ else .error .assertion := by
  have hlt := insertionSort_lt m.nodup
  have hmem := @mem_sorted m
  have hget : ∀ e ∈ m.entries, m.get e.1 = some e.2 := fun e he => get_eq_some_iff.2 he
  cases hsorted : (m.entries.map Prod.fst).insertionSort (· ≤ ·) with
  | nil =>
    have hnil : m.entries = [] := by
      have := (perm_insertionSort (· ≤ ·) (m.entries.map Prod.fst)).symm
      simpa [hsorted] using this
    exact absurd (by simp [SameTarget, hnil]) hm
  | cons first rest =>
    rw [hsorted] at hlt hmem
    rcases (@hmem first).1 (by simp) with ⟨a, ha⟩
    -- The first id with another target than the first id of all.
    have hother : ∃ e ∈ m.entries, e.2 ≠ a := by
      by_contra hall
      push Not at hall
      exact hm fun e he e' he' => (hall e he).trans (hall e' he').symm
    rcases hother with ⟨e, he, hea⟩
    cases hpivot : (first :: rest).find? fun id => m.get id != m.get first with
    | none =>
      have := find?_eq_none.1 hpivot e.1 (hmem.2 ⟨e.2, he⟩)
      simp [hget e he, hget _ ha, hea] at this
    | some pivot =>
      rcases hmem.1 (mem_of_find?_eq_some hpivot) with ⟨b, hb⟩
      have hab : a ≠ b := by
        have hba : b ≠ a := by simpa [hget _ hb, hget _ ha] using find?_some hpivot
        exact hba.symm
      -- The last id with another target than the pivot.
      cases hlast : (first :: rest).reverse.find? fun id => m.get id != m.get pivot with
      | none =>
        have := find?_eq_none.1 hlast first (by simp)
        simp [hget _ hb, hget _ ha, hab] at this
      | some last =>
        have hlastmem : last ∈ first :: rest := mem_reverse.1 (mem_of_find?_eq_some hlast)
        rcases hmem.1 hlastmem with ⟨t, ht⟩
        have htb : t ≠ b := by simpa [hget _ hb, hget _ ht] using find?_some hlast
        refine ⟨a, b, pivot, last, hab, hb, ⟨first, ?_, ha⟩, ?_, ⟨t, ht, htb⟩, ?_,
          (first :: rest).takeWhile (· != pivot), ?_, ?_⟩
        · rcases mem_cons.1 (mem_of_find?_eq_some hpivot) with rfl | hrest
          · exact absurd (eq_of_mem ha hb) hab
          · exact (pairwise_cons.1 hlt).1 pivot hrest
        · intro e he hep
          have := find?_first (fun _ _ => lt_asymm) hlt hpivot (hmem.2 ⟨e.2, he⟩) hep
          simpa [hget e he, hget _ ha] using this
        · intro e he hle
          have := find?_first (r := (· > ·)) (fun _ _ => lt_asymm)
            (pairwise_reverse.2 hlt) hlast
            (mem_reverse.2 (hmem.2 ⟨e.2, he⟩)) hle
          simpa [hget e he, hget _ hb] using this
        · intro e he
          rw [mem_takeWhile_ne hlt (hmem.2 ⟨b, hb⟩)]
          exact and_iff_right (hmem.2 ⟨e.2, he⟩)
        · have hiff : ∀ n k : Nat, (n : Int) = (k : Int) - 1 ↔ n + 1 = k := by
            intro n k
            omega
          simp only [separate, hsorted, hpivot, hlast]
          rw [if_congr (hiff last pivot) rfl rfl, hget _ ha]

/-! ## Targets of a single class id -/

/-- The entries whose target at least two class ids have. -/
def shared (m : TargetMap) : List (ClassId × Reference) :=
  m.entries.filter fun e => 1 < (m.entries.filter fun e' => e'.2 == e.2).length

theorem singleClassId_some (h : singleClassId m = some (id, target)) :
    (id, target) ∈ m.entries ∧ (m.entries.filter fun e' => e'.2 == target).length = 1 :=
  ⟨mem_of_find?_eq_some h, by simpa using find?_some h⟩

/-- The id is the only one with its target. -/
theorem singleClassId_iff (h : singleClassId m = some (id, target)) (he : e ∈ m.entries) :
    e.1 = id ↔ e.2 = target := by
  rcases singleClassId_some h with ⟨hmem, hone⟩
  rcases length_eq_one_iff.1 hone with ⟨x, hx⟩
  have hall : ∀ e ∈ m.entries, e.2 = target → e = x := by
    intro e he het
    have : e ∈ m.entries.filter fun e' => e'.2 == target := by simp [he, het]
    simpa [hx] using this
  constructor
  · intro hid
    exact eq_of_mem he (hid ▸ hmem)
  · intro het
    rw [hall e he het, ← hall _ hmem rfl]

theorem shared_of_none (h : singleClassId m = none) : shared m = m.entries := by
  refine filter_eq_self.2 ?_
  intro e he
  have hne : ¬ (m.entries.filter fun e' => e'.2 == e.2).length = 1 := by
    simpa using find?_eq_none.1 h e he
  have hpos : 0 < (m.entries.filter fun e' => e'.2 == e.2).length :=
    length_pos_of_mem (mem_filter.2 ⟨he, by simp⟩)
  exact decide_eq_true (by omega)

/-- Peeling off a target of a single class id leaves the shared targets alone. -/
theorem shared_removeWhere (h : singleClassId m = some (id, target)) :
    shared (m.removeWhere (·.1 == id)) = shared m := by
  unfold shared
  simp only [removeWhere]
  rw [filter_filter]
  apply filter_congr
  intro e he
  by_cases hid : e.1 = id
  · have hone := (singleClassId_some h).2
    rw [← (singleClassId_iff h he).1 hid] at hone
    simp [hid, hone]
  -- Entries with the same target as `e` are not removed.
  have hcount : ((m.entries.filter fun e => !e.1 == id).filter fun e' => e'.2 == e.2) =
      m.entries.filter fun e' => e'.2 == e.2 := by
    rw [filter_filter]
    apply filter_congr
    intro e' he'
    by_cases heq : e'.2 = e.2
    · have hid' : ¬ e'.1 = id := by
        intro hid'
        exact hid ((singleClassId_iff h he).2 (heq ▸ (singleClassId_iff h he').1 hid'))
      simp [heq, hid']
    · simp [heq]
  simp [hid, hcount]

/-! ## When the loop succeeds -/

/-- Class ids are stored in an `i32` field of every object, with `i32_const`. -/
def FitsI32 (m : TargetMap) : Prop :=
  ∀ e ∈ m.entries, e.1 < 2 ^ 31

theorem FitsI32.removeWhere (h : FitsI32 m) (p : ClassId × Reference → Bool) :
    FitsI32 (m.removeWhere p) :=
  fun e he => h e (mem_removeWhere.1 he).1

theorem testAndCall_isOk (inputs : Nat) {id : Nat} (h : id < 2 ^ 31) (compare : CallInstr)
    (target : Reference) : ∃ code, testAndCall inputs id compare target = .ok code := by
  have hfits : -2 ^ 31 ≤ (id : Int) ∧ (id : Int) < 2 ^ 31 := by omega
  have hconst : i32Const id = .ok (.act (.i32Const id)) := if_pos hfits
  unfold testAndCall
  rw [hconst]
  exact ⟨_, rfl⟩

theorem one_lt_targets : 1 < (m.entries.map Prod.snd).dedup.length ↔ ¬ SameTarget m.entries := by
  rw [← card_toFinset, Finset.one_lt_card]
  constructor
  · rintro ⟨a, ha, b, hb, hab⟩ hsame
    rcases mem_map.1 (mem_toFinset.1 ha) with ⟨e, he, rfl⟩
    rcases mem_map.1 (mem_toFinset.1 hb) with ⟨e', he', rfl⟩
    exact hab (hsame e he e' he')
  · intro h
    simp only [SameTarget, not_forall] at h
    rcases h with ⟨e, he, e', he', hne⟩
    exact ⟨e.2, mem_toFinset.2 (mem_map_of_mem he), e'.2, mem_toFinset.2 (mem_map_of_mem he'), hne⟩

section Loop

variable {inputs : Nat} {m : TargetMap}

/-- With one target left, the loop ends with a call of it. -/
theorem specializeCalls_same (inputs fuel : Nat) (h : SameTarget m.entries) (he : e ∈ m.entries) :
    specializeCalls inputs (fuel + 1) m = .ok (.act (.call e.2)) := by
  have hone : ¬ 1 < (m.entries.map Prod.snd).dedup.length := fun hlt => one_lt_targets.1 hlt h
  cases hm : m.entries with
  | nil =>
    rw [hm] at he
    cases he
  | cons e' rest =>
    have heq : e'.2 = e.2 := h e' (by simp [hm]) e he
    simp only [specializeCalls, if_neg hone]
    simp only [hm, heq]

/-- A target of a single class id is peeled off. -/
theorem specializeCalls_single (fuel : Nat) (h : ¬ SameTarget m.entries)
    (hsingle : singleClassId m = some (id, target)) :
    specializeCalls inputs (fuel + 1) m = (do
      let test ← testAndCall inputs id .i32Eq target
      let rest ← specializeCalls inputs fuel (m.removeWhere (·.1 == id))
      pure (.seq test rest)) := by
  simp only [specializeCalls, if_pos (one_lt_targets.2 h), hsingle]

/-- If every target is shared, the ids are split at a pivot. -/
theorem specializeCalls_split (fuel : Nat) (h : ¬ SameTarget m.entries)
    (hsingle : singleClassId m = none) {split : Separation} (hsep : separate m = .ok split) :
    specializeCalls inputs (fuel + 1) m = (do
      let test ← testAndCall inputs split.pivotId .i32LtU split.target
      let rest ← specializeCalls inputs fuel (m.removeWhere (split.before.contains ·.1))
      pure (.seq test rest)) := by
  simp only [specializeCalls, if_pos (one_lt_targets.2 h), hsingle, hsep, ok_bind]

theorem specializeCalls_split_error (fuel : Nat) (h : ¬ SameTarget m.entries)
    (hsingle : singleClassId m = none) {e : GenError} (hsep : separate m = .error e) :
    specializeCalls inputs (fuel + 1) m = .error e := by
  simp only [specializeCalls, if_pos (one_lt_targets.2 h), hsingle, hsep, error_bind]

theorem length_removeWhere_lt (he : e ∈ m.entries) (hp : p e = true) :
    (m.removeWhere p).entries.length < m.entries.length := by
  exact length_filter_lt_length_iff_exists.2 ⟨e, he, by simp [hp]⟩

theorem removeWhere_single_ne_nil (h : ¬ SameTarget m.entries)
    (hsingle : singleClassId m = some (id, target)) : (m.removeWhere (·.1 == id)).entries ≠ [] := by
  intro hnil
  apply h
  have hall : ∀ e ∈ m.entries, e.2 = target := by
    intro e he
    by_contra hne
    have hid : ¬ e.1 = id := fun hid => hne ((singleClassId_iff hsingle he).1 hid)
    have : e ∈ (m.removeWhere (·.1 == id)).entries :=
      mem_removeWhere.2 ⟨he, by simpa using hid⟩
    rw [hnil] at this
    cases this
  exact fun e he e' he' => (hall e he).trans (hall e' he').symm

/-- Two adjacent runs are separated. -/
theorem separate_of_adjacent (h : ¬ SameTarget m.entries) (hadj : AdjacentRuns m.entries) :
    ∃ pivot a b before, separate m = .ok ⟨pivot, a, before⟩ ∧ (pivot, b) ∈ m.entries ∧
      Split m.entries pivot a b ∧ ∀ e ∈ m.entries, e.1 ∈ before ↔ e.1 < pivot := by
  rcases separate_eq h with
    ⟨a, b, pivot, last, hab, hpivot, ⟨first, hfirst, hfa⟩, hbefore, ⟨t, ht, htb⟩, hafter,
      before, hmem, heq⟩
  rcases hadj with ⟨last', a', b', hsplit, hlast', hpivot'⟩
  have hab' : a' ≠ b' := by
    intro heq
    apply h
    intro e he e' he'
    rw [hsplit e he, hsplit e' he', heq]
    simp
  -- The pivot starts the second run: it is not in the first and not after the first of the second.
  have hge : last' + 1 ≤ pivot := by
    by_contra hge
    have hlt : pivot < last' + 1 := Nat.lt_of_not_le hge
    have hb : b = a' := (hsplit _ hpivot).trans (if_pos hlt)
    have ha : a = a' := (hsplit _ hfa).trans (if_pos (lt_trans hfirst hlt))
    exact hab (ha.trans hb.symm)
  have hle : pivot ≤ last' + 1 := by
    by_contra hle
    have hlt : last' + 1 < pivot := Nat.lt_of_not_le hle
    have hb : b' = a := hbefore _ hpivot' hlt
    have ha : a' = a := hbefore _ hlast' (lt_of_succ_lt hlt)
    exact hab' (ha.trans hb.symm)
  have hpe : pivot = last' + 1 := le_antisymm hle hge
  subst hpe
  have hb : b = b' := eq_of_mem hpivot hpivot'
  have ha : a = a' := (hsplit _ hfa).trans (if_pos hfirst)
  subst hb ha
  have hlast : last = last' := by
    have hle : last < last' + 1 := by
      by_contra hge
      exact htb ((hsplit _ ht).trans (if_neg hge))
    by_contra hne
    have hlt : last < last' := lt_of_le_of_ne (le_of_lt_succ hle) hne
    exact hab (hafter _ hlast' hlt)
  rw [if_pos (by rw [hlast])] at heq
  exact ⟨last' + 1, a, b, before, heq, hpivot, hsplit, hmem⟩

theorem same_after_split {pivot : ClassId} {a b : Reference} {before : List ClassId}
    (hsplit : Split m.entries pivot a b) (hmem : ∀ e ∈ m.entries, e.1 ∈ before ↔ e.1 < pivot) :
    SameTarget (m.removeWhere (before.contains ·.1)).entries := by
  have hall : ∀ e ∈ (m.removeWhere (before.contains ·.1)).entries, e.2 = b := by
    intro e he
    rcases mem_removeWhere.1 he with ⟨he, hnot⟩
    have hge : ¬ e.1 < pivot := fun hlt => by simp [(hmem e he).2 hlt] at hnot
    exact (hsplit e he).trans (if_neg hge)
  exact fun e he e' he' => (hall e he).trans (hall e' he').symm

/-- The loop succeeds if the targets with several class ids are at most one, or two adjacent
runs. -/
theorem specializeCalls_isOk (inputs : Nat) (hfuel : m.entries.length < fuel) (hfits : FitsI32 m)
    (hne : m.entries ≠ []) (hshape : SameTarget (shared m) ∨ AdjacentRuns (shared m)) :
    ∃ code, specializeCalls inputs fuel m = .ok code := by
  induction fuel generalizing m with
  | zero => cases hfuel
  | succ fuel ih =>
    by_cases hsame : SameTarget m.entries
    · rcases exists_mem_of_ne_nil _ hne with ⟨e, he⟩
      exact ⟨_, specializeCalls_same inputs fuel hsame he⟩
    cases hsingle : singleClassId m with
    | some e =>
      rcases e with ⟨id, target⟩
      have hmem := (singleClassId_some hsingle).1
      have hlen := length_removeWhere_lt (p := (·.1 == id)) hmem (by simp)
      rw [specializeCalls_single fuel hsame hsingle]
      rcases testAndCall_isOk inputs (hfits _ hmem) .i32Eq target with ⟨test, htest⟩
      rw [← shared_removeWhere hsingle] at hshape
      rcases ih (by omega) (hfits.removeWhere _)
        (removeWhere_single_ne_nil hsame hsingle) hshape with ⟨rest, hrest⟩
      exact ⟨.seq test rest, by rw [htest, ok_bind, hrest, ok_bind]; rfl⟩
    | none =>
      rw [shared_of_none hsingle] at hshape
      have hadj : AdjacentRuns m.entries := hshape.resolve_left hsame
      rcases separate_of_adjacent hsame hadj with
        ⟨pivot, a, b, before, hsep, hpivot, hsplit, hbefore⟩
      rcases testAndCall_isOk inputs (hfits _ hpivot) .i32LtU a with ⟨test, htest⟩
      have hrem : (pivot, b) ∈ (m.removeWhere (before.contains ·.1)).entries := by
        refine mem_removeWhere.2 ⟨hpivot, ?_⟩
        have : ¬ pivot ∈ before := fun h => lt_irrefl _ ((hbefore _ hpivot).1 h)
        simpa using this
      -- One more round is left for what remains.
      have hpos : 0 < m.entries.length := length_pos_of_mem hpivot
      obtain ⟨fuel', rfl⟩ : ∃ n, fuel = n + 1 := ⟨fuel - 1, by omega⟩
      have hrest := specializeCalls_same inputs fuel'
        (same_after_split hsplit hbefore) hrem
      refine ⟨.seq test (.act (.call b)), ?_⟩
      rw [specializeCalls_split _ hsame hsingle hsep, htest, ok_bind, hrest, ok_bind]
      rfl

theorem TwoRuns.of_same {entries : List (ClassId × Reference)} (h : SameTarget entries) :
    TwoRuns entries := by
  cases entries with
  | nil => exact ⟨0, ⟨0, false⟩, ⟨0, false⟩, by simp [Split]⟩
  | cons e rest =>
    refine ⟨0, e.2, e.2, ?_⟩
    intro e' he'
    rw [h e' he' e (by simp)]
    simp

/-- The loop fails with the assertion if the targets with several class ids are not two runs. -/
theorem specializeCalls_error (hfuel : m.entries.length < fuel) (hfits : FitsI32 m)
    (hshape : ¬ TwoRuns (shared m)) : specializeCalls inputs fuel m = .error .assertion := by
  induction fuel generalizing m with
  | zero => cases hfuel
  | succ fuel ih =>
    have hsame : ¬ SameTarget m.entries := by
      intro hsame
      apply hshape
      apply TwoRuns.of_same
      intro e he e' he'
      exact hsame e (mem_of_mem_filter he) e' (mem_of_mem_filter he')
    cases hsingle : singleClassId m with
    | some e =>
      rcases e with ⟨id, target⟩
      have hmem := (singleClassId_some hsingle).1
      have hlen := length_removeWhere_lt (p := (·.1 == id)) hmem (by simp)
      rcases testAndCall_isOk inputs (hfits _ hmem) .i32Eq target with ⟨test, htest⟩
      rw [← shared_removeWhere hsingle] at hshape
      have hrest := ih (by omega) (hfits.removeWhere _) hshape
      rw [specializeCalls_single fuel hsame hsingle, htest, ok_bind, hrest, error_bind]
    | none =>
      rw [shared_of_none hsingle] at hshape
      rcases separate_eq hsame with ⟨a, b, pivot, last, -, -, -, hbefore, -, hafter, before, -, heq⟩
      have hgap : ¬ last + 1 = pivot := by
        intro hpivot
        apply hshape
        refine ⟨pivot, a, b, ?_⟩
        intro e he
        by_cases hlt : e.1 < pivot
        · rw [if_pos hlt]
          exact hbefore e he hlt
        · rw [if_neg hlt]
          have : ∀ n : Nat, ¬ n < pivot → last < n := by
            intro n hn
            omega
          exact hafter e he (this e.1 hlt)
      rw [if_neg hgap] at heq
      exact specializeCalls_split_error fuel hsame hsingle heq

end Loop

/-! ## The target that is called -/

section Execution

variable {V S : Type} {inputs outputs : Nat} (env : CallEnv V S inputs outputs)

/-- The chain of tests calls the target of the class id, and then leaves the block or ends it. -/
theorem specializeCalls_exec {m : TargetMap}
    (h : specializeCalls inputs fuel m = .ok code) (hfits : FitsI32 m) (hmem : (id, t) ∈ m.entries)
    {args : List (Operand V)} (hargs : args.length ≤ inputs) {s : CallState S}
    (hid : s.idVar = BitVec.ofNat 32 id) (n : Nat) :
    code.exec env.machine n args s = (env.call t args s).map (fun r => (.normal r.1, r.2)) ∨
      code.exec env.machine n args s =
        (env.call t args s).map (fun r => (.branch 0 r.1, r.2)) := by
  induction fuel generalizing m code with
  | zero => cases h
  | succ fuel ih =>
    by_cases hsame : SameTarget m.entries
    · rw [specializeCalls_same inputs fuel hsame hmem] at h
      cases h
      exact Or.inl rfl
    cases hsingle : singleClassId m with
    | some e =>
      rcases e with ⟨id', target⟩
      rw [specializeCalls_single fuel hsame hsingle] at h
      rcases bind_eq_ok.1 h with ⟨test, htest, h⟩
      rcases bind_eq_ok.1 h with ⟨rest, hrest, h⟩
      cases h
      have hmem' := (singleClassId_some hsingle).1
      have hexec := env.testAndCall_exec htest hargs (P := id = id')
        (by rw [hid]; exact env.i32Eq_exec (hfits _ hmem) (hfits _ hmem')) n
      by_cases heq : id = id'
      · rw [if_pos heq] at hexec
        have ht : target = t := eq_of_mem hmem' (heq ▸ hmem)
        rw [ht] at hexec
        exact Or.inr (exec_seq_branch hexec)
      · rw [if_neg heq] at hexec
        rw [exec_seq_normal hexec]
        apply ih hrest (hfits.removeWhere _)
        exact mem_removeWhere.2 ⟨hmem, by simpa using heq⟩
    | none =>
      rcases separate_eq hsame with
        ⟨a, b, pivot, last, -, hpivot, -, hbefore, -, -, before, hbefore', hsep⟩
      by_cases hgap : last + 1 = pivot
      · rw [if_pos hgap] at hsep
        rw [specializeCalls_split fuel hsame hsingle hsep] at h
        rcases bind_eq_ok.1 h with ⟨test, htest, h⟩
        rcases bind_eq_ok.1 h with ⟨rest, hrest, h⟩
        cases h
        have hexec := env.testAndCall_exec htest hargs (P := id < pivot)
          (by rw [hid]; exact env.i32LtU_exec (hfits _ hmem) (hfits _ hpivot)) n
        by_cases hlt : id < pivot
        · rw [if_pos hlt] at hexec
          have ht : a = t := (hbefore _ hmem hlt).symm
          subst ht
          exact Or.inr (exec_seq_branch hexec)
        · rw [if_neg hlt] at hexec
          rw [exec_seq_normal hexec]
          apply ih hrest (hfits.removeWhere _)
          refine mem_removeWhere.2 ⟨hmem, ?_⟩
          have : ¬ id ∈ before := fun hb => hlt ((hbefore' _ hmem).1 hb)
          simpa using this
      · rw [if_neg hgap] at hsep
        rw [specializeCalls_split_error fuel hsame hsingle hsep] at h
        cases h

/-- The specialized code calls the target of the receiver's class id. -/
theorem polymorphicSpecialization_exec {targets : TargetMap}
    (h : polymorphicSpecialization inputs outputs targets = .ok code) (hfits : FitsI32 targets)
    (hmem : (env.receiver, t) ∈ (concrete targets).entries) (n : Nat) (stack : List (Operand V))
    (s : CallState S) : env.runCode n code stack s = env.runCall t stack s := by
  rcases bind_eq_ok.1 h with ⟨calls, hcalls, h⟩
  cases h
  have hargs : (stack.take inputs).length ≤ inputs := by simp
  let s' : CallState S := { s with idVar := BitVec.ofNat 32 env.receiver }
  have hheap : s.heap = s'.heap := rfl
  -- Both ways to leave the chain end the block with the results of the call.
  have hblock : (block inputs outputs calls).exec env.machine n stack s' =
      (env.call t stack s').map fun r => (.normal r.1, r.2) := by
    rw [← env.call_take t]
    rcases specializeCalls_exec env hcalls (hfits.removeWhere _) hmem hargs (s := s') rfl n with
      hexec | hexec <;>
    · simp only [exec, hexec, Option.map_map]
      rfl
  have hrun : (seqs [.act .getClassId, .act .localSetId, .block inputs outputs calls]).exec
      env.machine n stack s = (env.call t stack s').map fun r => (.normal r.1, r.2) := by
    simp only [seqs]
    rw [exec_act_seq env.act_getClassId, exec_act_seq (env.act_localSetId _), exec_seq_skip, hblock]
  rw [CallEnv.runCode, hrun, env.runCall_congr t hheap, CallEnv.runCall, Option.map_map]
  rfl

/-- The index of the slot does not wrap. -/
theorem slotIndex_eq {id : Nat} (offset : Int) (hid : id < 2 ^ 31)
    (hoffset : -2 ^ 31 ≤ offset ∧ offset < 2 ^ 31) (hpos : 0 ≤ offset + id) :
    (BitVec.ofNat 32 id + BitVec.ofInt 32 offset).toNat = (offset + id).toNat := by
  rw [BitVec.toNat_add, BitVec.toNat_ofNat, BitVec.toNat_ofInt]
  omega

theorem exec_callIndirect {k : BitVec 32} (h : slot env.table k.toNat = some t)
    (n : Nat) (stack : List (Operand V)) (s : CallState S) :
    (((Code.act CallInstr.callIndirect).seq .skip).exec env.machine n (.i32 k :: stack) s).map
      (fun r => (r.1, r.2.heap)) = env.runCall t stack s := by
  rw [exec_seq_skip]
  simp only [exec, env.act_callIndirect h, Option.map_map]
  rfl

/-- The code through the table calls the target in the slot of the receiver's class id. -/
theorem dispatchCall_exec {offset : Int} (h : dispatchCall offset = .ok code)
    (hid : env.receiver < 2 ^ 31) (hpos : 0 ≤ offset + env.receiver)
    (hslot : slot env.table (offset + env.receiver).toNat = some t) (n : Nat)
    (stack : List (Operand V)) (s : CallState S) :
    env.runCode n code stack s = env.runCall t stack s := by
  unfold dispatchCall at h
  unfold CallEnv.runCode
  by_cases hzero : offset = 0
  · rw [if_pos hzero] at h
    cases h
    have hindex : (BitVec.ofNat 32 env.receiver).toNat = (offset + env.receiver).toNat := by
      simpa [hzero] using slotIndex_eq 0 hid (by decide) (by omega)
    exact exec_callIndirect env (hindex ▸ hslot) n stack s
  · rw [if_neg hzero] at h
    rcases bind_eq_ok.1 h with ⟨const, hconst, h⟩
    cases h
    rcases CallEnv.i32Const_ok hconst with ⟨rfl, hoffset⟩
    simp only [seqs]
    rw [exec_act_seq env.act_getClassId, exec_act_seq (env.act_i32Const offset),
      exec_act_seq (env.act_i32Add _ _)]
    exact exec_callIndirect env (slotIndex_eq offset hid hoffset hpos ▸ hslot) n stack s

end Execution

/-! ## The strategies agree -/

/-- Let `M` be the concrete targets of a selector and `M'` those with at least two class ids.
Specialization succeeds if `M'` has at most one target or is one run of ids followed directly by
another, and fails with the assertion if it is not one run followed by another. Whenever it
succeeds, the code behaves for every class id of `M` like a call of that id's target; so does, for
the ids of concrete classes, the code through the dispatch table. -/
theorem polymorphicSpecialization_agrees (selector : SelectorInfo)
    (hfits : FitsI32 selector.targets)
    (inputs outputs : Nat) :
    ((concrete selector.targets).entries ≠ [] →
        SameTarget (shared (concrete selector.targets)) ∨
          AdjacentRuns (shared (concrete selector.targets)) →
        ∃ code, polymorphicSpecialization inputs outputs selector.targets = .ok code) ∧
      (¬ TwoRuns (shared (concrete selector.targets)) →
        polymorphicSpecialization inputs outputs selector.targets = .error .assertion) ∧
      ∀ code, polymorphicSpecialization inputs outputs selector.targets = .ok code →
        ∀ (V S : Type) (env : CallEnv V S inputs outputs) (t : Reference),
          (concrete selector.targets).get env.receiver = some t →
          (∀ n stack s, env.runCode n code stack s = env.runCall t stack s) ∧
          ∀ isAbstract selectors st offset code',
            DispatchTable.assignOffsets isAbstract selectors = .ok st →
            (selector, offset) ∈ st.offsets → isAbstract env.receiver = false →
            env.table = st.table → dispatchCall offset = .ok code' →
            ∀ n stack s, env.runCode n code' stack s = env.runCall t stack s := by
  have hfits' : FitsI32 (concrete selector.targets) := hfits.removeWhere _
  refine ⟨?_, ?_, ?_⟩
  · intro hne hshape
    rcases specializeCalls_isOk inputs (lt_succ_self _) hfits' hne hshape with ⟨calls, hcalls⟩
    refine ⟨.seqs [.act .getClassId, .act .localSetId, .block inputs outputs calls], ?_⟩
    exact bind_eq_ok.2 ⟨calls, hcalls, rfl⟩
  · intro hshape
    simp only [polymorphicSpecialization]
    rw [specializeCalls_error (lt_succ_self _) hfits' hshape, error_bind]
  · intro code hcode V S env t ht
    have hmem : (env.receiver, t) ∈ (concrete selector.targets).entries :=
      get_eq_some_iff.1 ht
    have hmem' : (env.receiver, t) ∈ selector.targets.entries :=
      (mem_removeWhere.1 hmem).1
    refine ⟨polymorphicSpecialization_exec env hcode hfits hmem, ?_⟩
    intro isAbstract selectors st offset code' hassign hoffset hconcrete htable hcode'
    have hclass : env.receiver ∈ selector.classIds isAbstract :=
      DispatchTable.mem_classIds.2 ⟨⟨t, hmem'⟩, hconcrete⟩
    rcases (DispatchTable.assignOffsets_placed hassign).holds _ hoffset _ hclass with
      ⟨hpos, -, hslot⟩
    apply dispatchCall_exec env hcode' (hfits _ hmem') hpos
    rw [htable, hslot]
    exact get_eq_some_iff.2 hmem'

/-- Classes 1 and 2 share a member, 3 and 4 another, and 5 has its own. -/
def hashCodeSelector : SelectorInfo :=
  ⟨0, 1, false, ⟨[(1, ⟨0, false⟩), (2, ⟨0, false⟩), (3, ⟨1, false⟩), (4, ⟨1, false⟩),
    (5, ⟨2, false⟩)], by decide⟩⟩

/-- A selector with a longer row, which comes first in the table. -/
def toStringSelector : SelectorInfo :=
  ⟨1, 1, false, ⟨[(0, ⟨3, false⟩), (1, ⟨3, false⟩), (2, ⟨3, false⟩), (3, ⟨3, false⟩),
    (4, ⟨3, false⟩), (5, ⟨3, false⟩)], by decide⟩⟩

/-- A receiver of the given class whose callees log their numbers and return their argument. -/
def hashCodeEnv (receiver : ClassId) (table : DispatchTable.Slots) :
    CallEnv Nat (List Nat) 1 1 where
  receiver := receiver
  table := table
  invoke
    | t, [arg], heap => some ([arg], heap ++ [t.member])
    | _, _, _ => none
  invoke_length t args heap r h := by
    rcases args with _ | ⟨arg, _ | _⟩ <;> cases h
    rfl

theorem hashCodeSelector_specialized :
    FitsI32 hashCodeSelector.targets ∧
      ∃ code st offset code', polymorphicSpecialization 1 1 hashCodeSelector.targets = .ok code ∧
        DispatchTable.assignOffsets (fun _ => false) [toStringSelector, hashCodeSelector] = .ok st ∧
        (hashCodeSelector, offset) ∈ st.offsets ∧ dispatchCall offset = .ok code' ∧
        (hashCodeEnv 4 st.table).runCode 0 code [.value 5] ⟨0, []⟩ =
          some (.normal [.value 5], [1]) ∧
        (hashCodeEnv 4 st.table).runCode 0 code' [.value 5] ⟨0, []⟩ =
          some (.normal [.value 5], [1]) := by
  have hfits : FitsI32 hashCodeSelector.targets := by
    intro e he
    revert e
    decide
  have hadj : AdjacentRuns (shared (concrete hashCodeSelector.targets)) := by
    refine ⟨2, ⟨0, false⟩, ⟨1, false⟩, ?_, by decide, by decide⟩
    intro e he
    revert e
    decide
  obtain ⟨hok, -, hagrees⟩ := polymorphicSpecialization_agrees hashCodeSelector hfits 1 1
  obtain ⟨code, hcode⟩ := hok (by decide) (Or.inr hadj)
  obtain ⟨st, hst, hoffset⟩ : ∃ st, DispatchTable.assignOffsets (fun _ => false)
      [toStringSelector, hashCodeSelector] = .ok st ∧
        st.offsets = [(toStringSelector, 0), (hashCodeSelector, 5)] := ⟨_, rfl, rfl⟩
  have hmem : (hashCodeSelector, 5) ∈ st.offsets := by simp [hoffset]
  obtain ⟨hcalls, hdispatch⟩ := hagrees code hcode _ _ (hashCodeEnv 4 st.table) ⟨1, false⟩ rfl
  exact ⟨hfits, code, st, 5, _, hcode, hst, hmem, rfl, hcalls 0 _ _,
    hdispatch _ _ st 5 _ hst hmem rfl rfl rfl 0 _ _⟩

/-- The classes 1 and 3 share a member, and 2 and 4 share another: no class id separates them. -/
theorem interleaved_not_specialized :
    polymorphicSpecialization 1 1 ⟨[(1, ⟨0, false⟩), (2, ⟨1, false⟩), (3, ⟨0, false⟩),
      (4, ⟨1, false⟩)], by decide⟩ = .error .assertion := by
  rfl

end CodeGenerator
end Dart2Wasm
