import Dart2Wasm.WasmBuilder.FunctionTypes
import Dart2Wasm.WasmBuilder.SubtypeTermination

/-!
# WasmBuilder.TypeDecoding — the bytes of a type determine it

A type is written with the indices of the custom heap types in it. Where these are distinct, a
reader that looks them up recovers the type from its bytes, whatever follows. The block type that
`_beginBlock` writes reads back as the inputs and outputs of the label in every later state of the
module.
-/

namespace Dart2Wasm.WasmBuilder

open Lib

variable {types : TypeTable}

/-! ## Storage types -/

/-- The custom heap type with the given index. -/
def TypeTable.positionOf (types : TypeTable) (index : Nat) : DefTypeId :=
  (types.map DefType.index).idxOf index

theorem TypeTable.positionOf_indexOf (hdistinct : (types.map DefType.index).Nodup) {d : DefTypeId}
    (hd : d < types.length) : types.positionOf (types.indexOf d) = d := by
  simpa [positionOf, indexOf, indexAt, hd] using hdistinct.idxOf_getElem d (by simpa using hd)

namespace StorageType

def mapDef (f : DefTypeId → DefTypeId) : StorageType → StorageType
  | .value (.rtt d depth) => .value (.rtt (f d) depth)
  | .value (.ref (.defined d) nullable) => .value (.ref (.defined (f d)) nullable)
  | t => t

/-- Read a type with indices in it, and look them up. -/
def decode (types : TypeTable) : Reader StorageType := do
  let t ← read
  pure (t.mapDef types.positionOf)

/-- A type is written like the type with its indices, in which each index stands for itself. -/
theorem serialize_mapDef (t : StorageType) :
    (t.mapDef types.indexOf).serialize [] = t.serialize types := by
  cases t with
  | packed k => cases k <;> rfl
  | value t =>
    cases t with
    | num k => rfl
    | rtt d depth => cases depth <;> rfl
    | ref h nullable => cases h <;> rfl

theorem mapDef_positionOf (hdistinct : (types.map DefType.index).Nodup) {t : StorageType}
    (ht : t.Registered types) : (t.mapDef types.indexOf).mapDef types.positionOf = t := by
  cases t with
  | packed k => rfl
  | value t =>
    cases t with
    | num k => rfl
    | rtt d depth => simp [mapDef, TypeTable.positionOf_indexOf hdistinct ht]
    | ref h nullable =>
      cases h with
      | defined d => simp [mapDef, TypeTable.positionOf_indexOf hdistinct ht]
      | _ => rfl

theorem reads_decode (hdistinct : (types.map DefType.index).Nodup) {t : StorageType}
    (ht : t.Registered types) : Reads (decode types) (t.serialize types) t := by
  rw [← serialize_mapDef]
  refine Reads.bind_pure (reads_serialize indexed_nil) ?_
  rw [mapDef_positionOf hdistinct ht]

end StorageType

/-! ## Block types -/

/-- The block type that `_beginBlock` writes, and the module with the function type for it. -/
def Module.beginBlock (m : Module) : List ValueType → List ValueType → Module × BlockType
  | [], [] => (m, .empty)
  | [], [t] => (m, .value t)
  | inputs, outputs =>
    (m.addFunctionType inputs outputs none, .function (m.functionType inputs outputs))

namespace BlockType

/-- The inputs and outputs of a label with this block type. -/
def signature (types : TypeTable) : BlockType → Option (List ValueType × List ValueType)
  | .empty => some ([], [])
  | .value t => some ([], [t])
  | .function d => (types[d]?.bind DefType.request?).map FunctionTypeRequest.key

def decode (types : TypeTable) : Reader (List ValueType × List ValueType) := do
  let b ← read
  match b.signature types with
  | some s => pure s
  | none => Parser.fail

theorem reads_decode {types' : TypeTable} {b : BlockType} {s : List ValueType × List ValueType}
    (hidx : types.Indexed) (hs : b.signature types' = some s) :
    Reads (decode types') (b.serialize types) s :=
  Reads.bind_pure (reads_serialize hidx b) (by rw [hs])

end BlockType

section Mapped

variable {m m' : Module} {log : RequestLog}

theorem run_mapped (h : Mapped m.functionTypeMap m.functionTypes log) {calls : List Call}
    (hrun : run Module.step m calls = .ok m') :
    ∃ log', log ⊆ log' ∧ Mapped m'.functionTypeMap m'.functionTypes log' := by
  refine run_invariant (P := fun s => ∃ log', log ⊆ log' ∧
    Mapped s.functionTypeMap s.functionTypes log') (fun s c s' hs hstep => ?_)
    ⟨log, List.Subset.refl _, h⟩ hrun
  obtain ⟨log', hsub, hmapped⟩ := hs
  exact ⟨_, List.subset_append_of_subset_left _ hsub, step_mapped hmapped hstep⟩

/-- A type that was returned for a request still has its inputs and outputs. -/
theorem Mapped.signature (h : Mapped m.functionTypeMap m.functionTypes log)
    {r : FunctionTypeRequest} {d : DefTypeId} (hr : (r, d) ∈ log) :
    (BlockType.function d).signature m.defTypes = some r.key := by
  obtain ⟨e, -, ht, hkey⟩ := h.created _ _ (h.logged _ hr)
  rw [Module.functionTypes, List.getElem?_map, Option.map_eq_some_iff] at ht
  obtain ⟨t, ht, hrequest⟩ := ht
  simp [BlockType.signature, ht, hrequest, hkey]

end Mapped

/-- Types written with distinct indices read back from their bytes, none is the start of another,
and a block type reads back as the inputs and outputs of the label. -/
theorem types_uniquely_decodable :
    (∀ types : TypeTable, (types.map DefType.index).Nodup →
      ∀ t : StorageType, t.Registered types →
        Reads (StorageType.decode types) (t.serialize types) t ∧
        ∀ u : StorageType, u.Registered types → t.serialize types <+: u.serialize types → t = u) ∧
    ∀ before after inputs outputs m m', Module.build before = .ok m →
      run Module.step (m.beginBlock inputs outputs).1 after = .ok m' →
      Reads (BlockType.decode m'.defTypes)
        ((m.beginBlock inputs outputs).2.serialize (m.beginBlock inputs outputs).1.defTypes)
        (inputs, outputs) := by
  refine ⟨fun types hdistinct t ht => ?_, fun before after inputs outputs m m' hbuild hafter => ?_⟩
  · have hread := StorageType.reads_decode hdistinct ht
    exact ⟨hread, fun u hu hstart => hread.unique (StorageType.reads_decode hdistinct hu) hstart⟩
  · have hbook := build_bookkeeping hbuild
    have hempty : Mapped ({} : Module).functionTypeMap ({} : Module).functionTypes [] :=
      ⟨by simp [Module.functionTypes], by simp, by simp⟩
    obtain ⟨log, -, hmapped⟩ := run_mapped hempty hbuild
    unfold Module.beginBlock at hafter ⊢
    split at hafter
    · exact BlockType.reads_decode hbook.defTypes rfl
    · exact BlockType.reads_decode hbook.defTypes rfl
    · obtain ⟨log', hsub, hmapped'⟩ :=
        run_mapped (step_mapped (c := .addFunctionType _ _ none) hmapped rfl) hafter
      exact BlockType.reads_decode
        (step_bookkeeping _ (.addFunctionType _ _ none) _ hbook rfl).defTypes
        (hmapped'.signature (hsub (List.mem_append_right _ List.mem_cons_self)))

/-- An RTT of a type whose index is not its position, and a block that takes a number. -/
theorem types_uniquely_decodable_block :
    Reads (StorageType.decode [⟨.struct "A" [], none, 5⟩]) [0x69, 2, 5]
        (.value (.rtt 0 (some 2))) ∧
      Reads (BlockType.decode [⟨.function [.i32] [], none, 0⟩]) [0] ([.i32], []) :=
  ⟨(types_uniquely_decodable.1 [⟨.struct "A" [], none, 5⟩] (by decide) (.value (.rtt 0 (some 2)))
      Nat.zero_lt_one).1,
    types_uniquely_decodable.2 [] [] [.i32] [] {} _ rfl rfl⟩

end Dart2Wasm.WasmBuilder
