import Dart2Wasm.WasmBuilder.IndexSpaces

/-!
# WasmBuilder.FunctionTypes — canonical function types

`addFunctionType` looks a function type up by its inputs and outputs before it adds one, so a module
has at most one function type with given inputs and outputs, whatever supertypes are asked for.
-/

namespace Dart2Wasm.WasmBuilder

open Lib WasmBuilder.Module List Option

/-! ## Requests for function types -/

/-- The arguments of a call of `addFunctionType`. -/
@[ext] structure FunctionTypeRequest where
  inputs : List ValueType
  outputs : List ValueType
  superType : Option HeapType
  deriving DecidableEq

/-- `_FunctionTypeKey`, which leaves out the supertype. -/
def FunctionTypeRequest.key (r : FunctionTypeRequest) : List ValueType × List ValueType :=
  (r.inputs, r.outputs)

/-- The requests that were made, each with the type that was returned. -/
abbrev RequestLog := List (FunctionTypeRequest × DefTypeId)

/-- The request that a function type is exactly what was asked for in. -/
def DefType.request? (t : DefType) : Option FunctionTypeRequest :=
  match t.kind with
  | .function inputs outputs => some ⟨inputs, outputs, t.superType⟩
  | _ => none

namespace Module

def functionTypes (m : Module) : List (Option FunctionTypeRequest) :=
  m.defTypes.map DefType.request?

/-- The type that `addFunctionType` returns. -/
def functionType (m : Module) (inputs outputs : List ValueType) : DefTypeId :=
  match m.functionTypeMap.lookup (inputs, outputs) with
  | some d => d
  | none => m.defTypes.length

def requests (m : Module) : Call → RequestLog
  | .addFunctionType inputs outputs superType =>
    [(⟨inputs, outputs, superType⟩, m.functionType inputs outputs)]
  | _ => []

/-- A call, with a log of the requests. `_beginBlock` makes its request without a supertype. -/
def stepLogged (s : Module × RequestLog) (c : Call) : Except BuildError (Module × RequestLog) := do
  let m ← s.1.step c
  .ok (m, s.2 ++ s.1.requests c)

end Module

/-- Every request gets a type with the requested parts, the same one only for the same request, and
no type is registered twice. -/
structure Canonicalized (types : List (Option FunctionTypeRequest)) (log : RequestLog) : Prop where
  returned : ∀ e ∈ log, types[e.2]? = some (some e.1)
  same : ∀ e ∈ log, ∀ e' ∈ log, e.2 = e'.2 ↔ e.1 = e'.1
  unique : ∀ (d d' : DefTypeId) r, types[d]? = some (some r) → types[d']? = some (some r) → d = d'

/-! ## What every call keeps -/

/-- The map finds the function types of the module by their inputs and outputs, and each of them was
created for one of the requests. -/
structure Mapped (map : List ((List ValueType × List ValueType) × DefTypeId))
    (types : List (Option FunctionTypeRequest)) (log : RequestLog) : Prop where
  lookup : ∀ (d : DefTypeId) r, types[d]? = some (some r) → map.lookup r.key = some d
  created : ∀ key d, map.lookup key = some d →
    ∃ e ∈ log, types[d]? = some (some e.1) ∧ e.1.key = key
  logged : ∀ e ∈ log, map.lookup e.1.key = some e.2

section Mapped

variable {map : List ((List ValueType × List ValueType) × DefTypeId)}
  {types : List (Option FunctionTypeRequest)} {log : RequestLog} {r : FunctionTypeRequest}

theorem Mapped.other (h : Mapped map types log) : Mapped map (types ++ [none]) log where
  lookup d r hd := h.lookup d r (by grind)
  created key d hd := by
    obtain ⟨e, he, ht, hkey⟩ := h.created key d hd
    exact ⟨e, he, by grind, hkey⟩
  logged := h.logged

theorem Mapped.found (h : Mapped map types log) {d : DefTypeId} (hd : map.lookup r.key = some d) :
    Mapped map types (log ++ [(r, d)]) where
  lookup := h.lookup
  created key d hd := by
    obtain ⟨e, he, ht, hkey⟩ := h.created key d hd
    exact ⟨e, mem_append_left _ he, ht, hkey⟩
  logged e he := by
    rcases mem_append.1 he with he | he
    · exact h.logged e he
    · obtain rfl := mem_singleton.1 he
      exact hd

theorem Mapped.added (h : Mapped map types log) (hnew : map.lookup r.key = none) :
    Mapped (map ++ [(r.key, types.length)]) (types ++ [some r]) (log ++ [(r, types.length)]) := by
  have hlookup : ∀ key, (map ++ [(r.key, types.length)]).lookup key =
      (map.lookup key).or (if key = r.key then some types.length else none) := by
    intro key
    by_cases hkey : key = r.key <;>
      simp [hkey, List.lookup_append, List.lookup_cons, beq_false_of_ne]
  refine ⟨fun d r' hd => ?_, fun key d hd => ?_, fun e he => ?_⟩
  · rcases Nat.lt_or_ge d types.length with hlt | hge
    · rw [List.getElem?_append_left hlt] at hd
      rw [hlookup, h.lookup d r' hd, some_or]
    · obtain ⟨rfl, rfl⟩ : d = types.length ∧ r = r' := by grind
      rw [hlookup, hnew, if_pos rfl, none_or]
  · rw [hlookup, or_eq_some_iff] at hd
    rcases hd with hd | ⟨-, hd⟩
    · obtain ⟨e, he, ht, hkey⟩ := h.created key d hd
      exact ⟨e, List.mem_append_left _ he, by grind, hkey⟩
    · obtain ⟨rfl, rfl⟩ : key = r.key ∧ types.length = d := by grind
      exact ⟨_, List.mem_append_right _ List.mem_cons_self, List.getElem?_concat_length, rfl⟩
  · rcases List.mem_append.1 he with he | he
    · rw [hlookup, h.logged e he, some_or]
    · obtain rfl := List.mem_singleton.1 he
      rw [hlookup, hnew, if_pos rfl, none_or]

theorem step_mapped {m m' : Module} {c : Call}
    (h : Mapped m.functionTypeMap m.functionTypes log) (hstep : m.step c = .ok m') :
    Mapped m'.functionTypeMap m'.functionTypes (log ++ m.requests c) := by
  have hkeep : Mapped m.functionTypeMap m.functionTypes (log ++ []) := by rwa [append_nil]
  cases c with
  | addFunctionType inputs outputs superType =>
    cases hstep
    cases hlookup : m.functionTypeMap.lookup (inputs, outputs) with
    | some d =>
      simpa [requests, addFunctionType, functionType, hlookup] using
        h.found (r := ⟨inputs, outputs, superType⟩) hlookup
    | none =>
      simpa [requests, addFunctionType, functionType, hlookup,
        functionTypes, DefType.request?, FunctionTypeRequest.key] using
        h.added (r := ⟨inputs, outputs, superType⟩) hlookup
  | addStructType name _ superType | addArrayType name _ superType =>
    cases hstep
    simpa [functionTypes, addStructType, addArrayType, DefType.request?, requests] using h.other
  | addField d _ | setElementType d _ =>
    -- Neither changes a function type.
    simp only [step, addField, setElementType] at hstep
    split at hstep
    · rename_i hkind
      cases hstep
      rw [functionTypes, map_modify_of_keeps fun t ht => ?_]
      · exact hkeep
      · rw [ht, map_some, some.injEq] at hkind
        simp only [DefType.request?, hkind]
    · cases hstep
  | _ =>
    -- The other calls do not touch the types.
    simp only [step, addFunction, importFunction, addLocal,
      emitBody, importGlobal, emitInitializer, setElement,
      addDataSegment, appendData, exportFunction] at hstep
    repeat' split at hstep
    all_goals cases hstep
    all_goals exact hkeep

end Mapped

/-- Function types are canonicalized as requested exactly if requests with the same inputs and
outputs agree on the supertype. -/
theorem canonicalized_iff (calls : List Call) {m : Module} {log : RequestLog}
    (h : run Module.stepLogged ({}, []) calls = .ok (m, log)) :
    Canonicalized m.functionTypes log ↔
      ∀ e ∈ log, ∀ e' ∈ log, e.1.inputs = e'.1.inputs → e.1.outputs = e'.1.outputs →
        e.1.superType = e'.1.superType := by
  have hmapped : Mapped m.functionTypeMap m.functionTypes log :=
    run_invariant (P := fun s => Mapped s.1.functionTypeMap s.1.functionTypes s.2)
      (fun s c s' hs hstep => by
        obtain ⟨m', hm', heq⟩ := bind_eq_ok.1 hstep
        cases heq
        exact step_mapped hs hm') ⟨by simp [functionTypes], by simp, by simp⟩ h
  have hsame : ∀ e ∈ log, ∀ e' ∈ log, e.1.key = e'.1.key → e.2 = e'.2 := by
    intro e he e' he' hkey
    exact some.inj
      ((hmapped.logged e he).symm.trans (hkey ▸ hmapped.logged e' he'))
  constructor
  · intro hcanonical e he e' he' hin hout
    rw [(hcanonical.same e he e' he').1 (hsame e he e' he' (Prod.ext hin hout))]
  · intro hagree
    have hreturned : ∀ e ∈ log, m.functionTypes[e.2]? = some (some e.1) := by
      intro e he
      obtain ⟨e', he', hr, hkey⟩ := hmapped.created _ _ (hmapped.logged e he)
      have hin : e'.1.inputs = e.1.inputs := congrArg Prod.fst hkey
      have hout : e'.1.outputs = e.1.outputs := congrArg Prod.snd hkey
      have hsuper := hagree e' he' e he hin hout
      rw [hr, FunctionTypeRequest.ext hin hout hsuper]
    refine ⟨hreturned, fun e he e' he' => ⟨fun hid => ?_, fun heq => ?_⟩, fun d d' r hd hd' => ?_⟩
    · have := hreturned e he
      rw [hid, hreturned e' he'] at this
      exact (some.inj (some.inj this)).symm
    · exact hsame e he e' he' (congrArg _ heq)
    · exact some.inj ((hmapped.lookup d r hd).symm.trans (hmapped.lookup d' r hd'))

/-- Two requests for the same type, and a struct type in between. -/
theorem canonicalized_iff_again :
    Canonicalized [some ⟨[.i32], [], none⟩, none]
      [(⟨[.i32], [], none⟩, 0), (⟨[.i32], [], none⟩, 0)] :=
  (canonicalized_iff [.addFunctionType [.i32] [] none, .addStructType "A" [] none,
    .addFunctionType [.i32] [] none] rfl).2 (by decide)

/-- The second request gets the type of the first, which has no supertype. -/
theorem superType_ignored :
    ∃ m log, run Module.stepLogged ({}, [])
        [.addFunctionType [] [] none, .addFunctionType [] [] (some .func)] = .ok (m, log) ∧
      log = [(⟨[], [], none⟩, 0), (⟨[], [], some .func⟩, 0)] ∧
        ¬ Canonicalized m.functionTypes log := by
  refine ⟨_, _, rfl, rfl, fun h => ?_⟩
  have := h.same _ mem_cons_self _ (mem_cons_of_mem _ mem_cons_self)
  exact absurd (this.1 rfl) (by decide)

end Dart2Wasm.WasmBuilder
