import Dart2Wasm.WasmBuilder.Module

/-!
# WasmBuilder.IndexSpaces — indices agree with positions

Instructions and sections refer to functions, globals, types, tables, memories and data segments
by the `index` stored in the object. `IndexSpaces` collects what a module has to satisfy for these
references to mean what the builder meant: every index is a position, imports come first in the
function and global spaces, and the number of function names is the one the name section announces.

What a call does to each list is stated once (`StepFrame`); the invariant and its converse are
derived from it.
-/

namespace Dart2Wasm.WasmBuilder

open Lib BaseFunction WasmBuilder.Module List Function

variable {gs gs' : List Global} {m m' : Module} {anyDefined anyDefined' : Bool}
variable {fs : List BaseFunction} {α : Type} {isImport : α → Bool} {l l' : List α}

/-- The parts of a function that the index space of functions depends on. -/
def BaseFunction.key (f : BaseFunction) : Nat × Bool × Bool :=
  (f.index, f.isImport, f.functionName.isSome)

/-- The parts of a global that the index space of globals depends on. -/
def Global.key (g : Global) : Nat × Bool :=
  (g.index, g.isImport)

/-- The function space: indices are positions, imports come first, the names are counted, and
`anyFunctionsDefined` records whether a definition has been added. -/
structure FunctionSpace (fs : List BaseFunction) (anyDefined : Bool) (names : Nat) : Prop where
  indexed : Indexed BaseFunction.index fs
  importsFirst : fs.Pairwise fun f g => g.isImport = true → f.isImport = true
  nameCount : names = fs.countP fun f => f.functionName.isSome
  onlyImports : anyDefined = false → ∀ f ∈ fs, f.isImport = true

/-- The global space, apart from the indices of the globals. -/
structure GlobalSpace (gs : List Global) (anyDefined : Bool) : Prop where
  importsFirst : gs.Pairwise fun f g => g.isImport = true → f.isImport = true
  onlyImports : anyDefined = false → ∀ g ∈ gs, g.isImport = true

/-- What holds of every module, whatever the indices of imported globals. -/
structure Bookkeeping (m : Module) : Prop where
  defTypes : Indexed DefType.index m.defTypes
  tables : Indexed Table.index m.tables
  memories : Indexed Memory.index m.memories
  dataSegments : Indexed DataSegment.index m.dataSegments
  functions : FunctionSpace m.functions m.anyFunctionsDefined m.functionNameCount
  globals : GlobalSpace m.globals m.anyGlobalsDefined

/-- Every index is a position, imports precede definitions, and the function names are counted. -/
structure IndexSpaces (m : Module) : Prop extends Bookkeeping m where
  globalsIndexed : Indexed Global.index m.globals

/-! ## What one call does -/

/-- What a call does to the functions, to `anyFunctionsDefined` and to `functionNameCount`. -/
inductive FunctionFrame (fs : List BaseFunction) (anyDefined : Bool) (names : Nat) :
    List BaseFunction → Bool → Nat → Prop
  | keep {fs' : List BaseFunction} (h : fs'.map BaseFunction.key = fs.map BaseFunction.key) :
      FunctionFrame fs anyDefined names fs' anyDefined names
  | add (f : BaseFunction) (hindex : f.index = fs.length)
      (himport : f.isImport = true → anyDefined = false) :
      FunctionFrame fs anyDefined names (fs ++ [f]) (anyDefined || !f.isImport)
        (if f.functionName.isSome then names + 1 else names)

/-- What a call does to the globals and to `anyGlobalsDefined`, but for the index of a global that
the call imports. -/
inductive GlobalFrame (importing : Bool) (gs : List Global) (anyDefined : Bool) :
    List Global → Bool → Prop
  | keep {gs' : List Global} (h : gs'.map Global.key = gs.map Global.key) :
      GlobalFrame importing gs anyDefined gs' anyDefined
  | add (g : Global) (hindex : importing = false → g.index = gs.length)
      (himport : g.isImport = true → anyDefined = false) :
      GlobalFrame importing gs anyDefined (gs ++ [g]) (anyDefined || !g.isImport)

def Call.importsGlobal : Call → Bool
  | .importGlobal _ _ _ => true
  | _ => false

structure StepFrame (m : Module) (c : Call) (m' : Module) : Prop where
  defTypes : Evolves DefType.index (fun t => t.index = m.defTypes.length) m.defTypes m'.defTypes
  tables : Evolves Table.index (fun t => t.index = m.tables.length) m.tables m'.tables
  memories : Evolves Memory.index (fun t => t.index = m.memories.length) m.memories m'.memories
  dataSegments : Evolves DataSegment.index (fun t => t.index = m.dataSegments.length)
    m.dataSegments m'.dataSegments
  functions : FunctionFrame m.functions m.anyFunctionsDefined m.functionNameCount
    m'.functions m'.anyFunctionsDefined m'.functionNameCount
  globals : GlobalFrame c.importsGlobal m.globals m.anyGlobalsDefined m'.globals
    m'.anyGlobalsDefined

theorem StepFrame.refl (m : Module) (c : Call) : StepFrame m c m :=
  ⟨.keep rfl, .keep rfl, .keep rfl, .keep rfl, .keep rfl, .keep rfl⟩

theorem defined_key_eq {f : FunctionId} {locals locals' : List ValueType}
    {body body' : InstructionBuffer}
    (h : (fs[f]?).map BaseFunction.origin = some (.defined locals body)) :
    ∀ g, fs[f]? = some g → { g with origin := .defined locals' body' }.key = g.key := by
  intro g hg
  have horigin : g.origin = .defined locals body := by simpa [hg] using h
  simp [key, isImport, horigin]

theorem initialized_key_eq {g : GlobalId} {initializer initializer' : InstructionBuffer}
    (h : (gs[g]?).map Global.origin = some (.defined initializer)) :
    ∀ k, gs[g]? = some k → { k with origin := .defined initializer' }.key = k.key := by
  intro k hk
  have horigin : k.origin = .defined initializer := by simpa [hk] using h
  simp [Global.key, Global.isImport, horigin]

theorem step_frame {c : Call} (h : m.step c = .ok m') : StepFrame m c m' := by
  have hm := StepFrame.refl m c
  cases c with
  | addFunctionType inputs outputs superType =>
    cases h
    unfold addFunctionType
    split
    · exact hm
    · exact { hm with defTypes := .add _ rfl }
  | addStructType | addArrayType =>
    cases h
    exact { hm with defTypes := .add _ rfl }
  | addField d field =>
    simp only [step, addField] at h
    split at h
    · cases h
      exact { hm with defTypes := .modify (by intro _ _; rfl) }
    · cases h
  | setElementType d elementType =>
    simp only [step, setElementType] at h
    split at h
    · cases h
      exact { hm with defTypes := .modify (by intro _ _; rfl) }
    · cases h
  | addFunction type name =>
    simp only [step, addFunction] at h
    split at h
    · rename_i inputs _ _
      cases h
      have hframe : FunctionFrame m.functions m.anyFunctionsDefined m.functionNameCount _ _ _ :=
        .add ⟨m.functions.length, type, name, .defined inputs InstructionBuffer.empty⟩ rfl
        (by simp [isImport])
      exact { hm with functions := by simpa [isImport] using hframe }
    · cases h
  | importFunction module name type functionName =>
    simp only [step, importFunction] at h
    split at h
    · cases h
    · rename_i hdefined
      cases h
      have hframe : FunctionFrame m.functions m.anyFunctionsDefined m.functionNameCount _ _ _ :=
        .add ⟨m.functions.length, type, functionName, .imported module name⟩ rfl
        (fun _ => by simpa using hdefined)
      exact { hm with functions := by simpa [isImport] using hframe }
  | addLocal f type =>
    simp only [step, addLocal] at h
    split at h
    · rename_i locals body hdefined
      cases h
      exact { hm with functions := .keep (map_modify_of_keeps (defined_key_eq hdefined)) }
    · cases h
  | emitBody f i =>
    simp only [step, emitBody] at h
    split at h
    · rename_i locals body hdefined
      split at h
      · cases h
        exact { hm with functions := .keep (map_modify_of_keeps (defined_key_eq hdefined)) }
      · cases h
    · cases h
  | addGlobal type =>
    cases h
    have hframe : GlobalFrame false m.globals m.anyGlobalsDefined _ _ := .add
      ⟨m.globals.length, type, .defined InstructionBuffer.empty⟩ (fun _ => rfl)
      (by simp [Global.isImport])
    exact { hm with
      globals := by simpa [addGlobal, Global.isImport, Call.importsGlobal] using hframe }
  | importGlobal module name type =>
    simp only [step, importGlobal] at h
    split at h
    · cases h
    · rename_i hdefined
      cases h
      have hframe : GlobalFrame true m.globals m.anyGlobalsDefined _ _ := .add
        ⟨m.functions.length, type, .imported module name⟩ (by simp)
        (fun _ => by simpa using hdefined)
      exact { hm with globals := by simpa [Global.isImport, Call.importsGlobal] using hframe }
  | emitInitializer g i =>
    simp only [step, emitInitializer] at h
    split at h
    · rename_i initializer hdefined
      split at h
      · cases h
        exact { hm with globals := .keep (map_modify_of_keeps (initialized_key_eq hdefined)) }
      · cases h
    · cases h
  | addTable minSize maxSize =>
    cases h
    exact { hm with tables := .add _ rfl }
  | setElement t index f =>
    simp only [step, setElement] at h
    split at h
    · cases h
    · split at h
      · cases h
        exact { hm with tables := .modify (by intro _ _; rfl) }
      · cases h
  | addMemory minSize maxSize =>
    cases h
    exact { hm with memories := .add _ rfl }
  | addDataSegment initialContent memory offset =>
    simp only [step, addDataSegment] at h
    split at h
    · cases h
      exact { hm with dataSegments := .add _ rfl }
    · cases h
  | appendData s data =>
    simp only [step, appendData] at h
    split at h
    · cases h
    · split at h
      · cases h
        exact { hm with dataSegments := .modify (by intro _ _; rfl) }
      · cases h
  | exportFunction name f =>
    simp only [step, exportFunction] at h
    split at h
    · cases h
    · cases h
      exact { hm with }
  | exportGlobal | setStartFunction =>
    cases h
    exact { hm with }

/-! ## One call keeps the bookkeeping -/

theorem importsFirst_of_map_eq (h : l'.map isImport = l.map isImport)
    (hl : l.Pairwise fun f g => isImport g = true → isImport f = true) :
    l'.Pairwise fun f g => isImport g = true → isImport f = true := by
  have hmap : (l.map isImport).Pairwise fun f g => g = true → f = true := pairwise_map.2 hl
  exact pairwise_map.1 (h ▸ hmap)

theorem onlyImports_of_map_eq (h : l'.map isImport = l.map isImport)
    (hl : ∀ f ∈ l, isImport f = true) : ∀ f ∈ l', isImport f = true := by
  have hmap : ∀ b ∈ l.map isImport, b = true := by simpa using hl
  intro f hf
  exact hmap (isImport f) (h ▸ mem_map_of_mem hf)

/-- A list in which imports come first stays so when an import is appended to imports only. -/
theorem importsFirst_append {a : α}
    (hl : l.Pairwise fun f g => isImport g = true → isImport f = true)
    (honly : anyDefined = false → ∀ f ∈ l, isImport f = true)
    (ha : isImport a = true → anyDefined = false) :
    (l ++ [a]).Pairwise (fun f g => isImport g = true → isImport f = true) ∧
      ((anyDefined || !isImport a) = false → ∀ f ∈ l ++ [a], isImport f = true) := by
  refine ⟨?_, ?_⟩
  · refine pairwise_append.2 ⟨hl, by simp, ?_⟩
    intro f hf g hg himport
    have hga : g = a := by simpa using hg
    exact honly (ha (hga ▸ himport)) f hf
  · intro hflag f hf
    simp only [Bool.or_eq_false_iff, Bool.not_eq_false'] at hflag
    rcases mem_append.1 hf with hf | hf
    · exact honly hflag.1 f hf
    · have hfa : f = a := by simpa using hf
      exact hfa ▸ hflag.2

theorem FunctionFrame.preserves {fs' : List BaseFunction}
    {names names' : Nat} (h : FunctionFrame fs anyDefined names fs' anyDefined' names')
    (hfs : FunctionSpace fs anyDefined names) : FunctionSpace fs' anyDefined' names' := by
  cases h with
  | keep hkeys =>
    -- Everything the function space says is a fact about the keys.
    have hindex : fs'.map index = fs.map index := by
      simpa [key, comp_def] using congrArg (map Prod.fst) hkeys
    have himport : fs'.map isImport = fs.map isImport := by
      simpa [key, comp_def] using
        congrArg (map fun k => k.2.1) hkeys
    have hnamed : fs'.map (fun f => f.functionName.isSome) =
        fs.map fun f => f.functionName.isSome := by
      simpa [key, comp_def] using
        congrArg (map fun k => k.2.2) hkeys
    refine ⟨(indexed_of_map_eq hindex).2 hfs.indexed, ?_, ?_, ?_⟩
    · exact importsFirst_of_map_eq himport hfs.importsFirst
    · have hcount := congrArg (countP id) hnamed
      simp only [countP_map, id_comp] at hcount
      exact hfs.nameCount.trans hcount.symm
    · intro hflag
      exact onlyImports_of_map_eq himport (hfs.onlyImports hflag)
  | add f hindex himport =>
    rcases importsFirst_append hfs.importsFirst hfs.onlyImports himport with ⟨hfirst, honly⟩
    refine ⟨indexed_append_one.2 ⟨hfs.indexed, hindex⟩, hfirst, ?_, honly⟩
    cases hname : f.functionName.isSome with
    | true | false => simp [hname, countP_append, hfs.nameCount]

theorem GlobalFrame.preserves {importing : Bool}
    (h : GlobalFrame importing gs anyDefined gs' anyDefined')
    (hgs : GlobalSpace gs anyDefined) : GlobalSpace gs' anyDefined' := by
  cases h with
  | keep hkeys =>
    have himport : gs'.map Global.isImport = gs.map Global.isImport := by
      simpa [Global.key, comp_def] using congrArg (map Prod.snd) hkeys
    refine ⟨importsFirst_of_map_eq himport hgs.importsFirst, ?_⟩
    intro hflag
    exact onlyImports_of_map_eq himport (hgs.onlyImports hflag)
  | add g hindex himport =>
    rcases importsFirst_append hgs.importsFirst hgs.onlyImports himport with ⟨hfirst, honly⟩
    exact ⟨hfirst, honly⟩

theorem step_bookkeeping (m : Module) (c : Call) (m' : Module) (hm : Bookkeeping m)
    (h : m.step c = .ok m') : Bookkeeping m' :=
  have hframe := step_frame h
  { defTypes := hframe.defTypes.indexed hm.defTypes
    tables := hframe.tables.indexed hm.tables
    memories := hframe.memories.indexed hm.memories
    dataSegments := hframe.dataSegments.indexed hm.dataSegments
    functions := hframe.functions.preserves hm.functions
    globals := hframe.globals.preserves hm.globals }

theorem bookkeeping_empty : Bookkeeping {} := by
  refine ⟨by simp, by simp, by simp, by simp, ⟨by simp, by simp, by simp, by simp⟩, ?_⟩
  exact ⟨by simp, by simp⟩

theorem build_bookkeeping {calls : List Call} (h : Module.build calls = .ok m) : Bookkeeping m :=
  run_invariant step_bookkeeping bookkeeping_empty h

/-! ## The indices of globals -/

/-- An imported global gets the number of functions as its index, which is its position only if
there are as many globals. -/
def ImportsInStep (m : Module) : Call → Prop
  | .importGlobal _ _ _ => m.functions.length = m.globals.length
  | _ => True

theorem importGlobal_globals {module name : DartString} {type : GlobalType}
    (h : m.step (.importGlobal module name type) = .ok m') :
    m'.globals = m.globals ++ [⟨m.functions.length, type, .imported module name⟩] := by
  simp only [step, importGlobal] at h
  split at h
  · cases h
  · cases h
    rfl

theorem GlobalFrame.evolves (h : GlobalFrame false gs anyDefined gs' anyDefined') :
    Evolves Global.index (fun g => g.index = gs.length) gs gs' := by
  cases h with
  | keep hkeys =>
    refine .keep ?_
    simpa [Global.key, comp_def] using congrArg (map Prod.fst) hkeys
  | add g hindex _ => exact .add g (hindex rfl)

/-- One call keeps the globals indexed exactly if it imports in step. -/
theorem step_globalsIndexed {c : Call} (h : m.step c = .ok m') :
    Indexed Global.index m'.globals ↔ ImportsInStep m c ∧ Indexed Global.index m.globals := by
  -- Importing is the only call whose index is not the next position.
  cases hc : c.importsGlobal with
  | true =>
    cases c <;> first | exact absurd hc Bool.false_ne_true | skip
    rw [importGlobal_globals h, indexed_append_one]
    exact and_comm
  | false =>
    have hstep : ImportsInStep m c := by
      cases c <;> first | exact absurd hc.symm Bool.false_ne_true | exact trivial
    have hevolves := (hc ▸ (step_frame h).globals).evolves
    exact ⟨fun hm' => ⟨hstep, hevolves.indexed_before hm'⟩, fun hm => hevolves.indexed hm.2⟩

/-- Index spaces are right exactly in the runs in which every global is imported while there are as
many functions as globals. -/
theorem build_indexSpaces_iff {calls : List Call} {m : Module} (h : Module.build calls = .ok m) :
    IndexSpaces m ↔ Along Module.step ImportsInStep {} calls := by
  constructor
  · intro hm
    have hback : ∀ s c s', step s c = .ok s' → Indexed Global.index s'.globals →
        ImportsInStep s c ∧ Indexed Global.index s.globals :=
      fun s c s' hstep => (step_globalsIndexed hstep).1
    exact (along_of_run hback h hm.globalsIndexed).1
  · intro hAlong
    have hstep : ∀ s c s', ImportsInStep s c → Indexed Global.index s.globals →
        step s c = .ok s' → Indexed Global.index s'.globals :=
      fun s c s' hC hs hstep => (step_globalsIndexed hstep).2 ⟨hC, hs⟩
    exact { build_bookkeeping h with
      globalsIndexed := run_invariant_along hstep hAlong indexed_nil h }

/-- A module with one imported function and two imported globals, imported in step and then out of
step. -/
def importsOutOfStep : List Call :=
  [.importGlobal (.ofString "env") (.ofString "g0") ⟨.i32, false⟩, .addFunctionType [] [] none,
    .importFunction (.ofString "env") (.ofString "f") 0 none,
    .importGlobal (.ofString "env") (.ofString "g1") ⟨.i32, false⟩,
    .importGlobal (.ofString "env") (.ofString "g2") ⟨.i32, false⟩]

theorem build_indexSpaces_iff_inStep :
    ∃ m, Module.build (importsOutOfStep.take 4) = .ok m ∧
      (IndexSpaces m ↔ Along Module.step ImportsInStep {} (importsOutOfStep.take 4)) :=
  ⟨_, rfl, build_indexSpaces_iff rfl⟩

/-- The third global is stored at position 2 with the index 1 of the second. -/
theorem importsOutOfStep_not_indexSpaces :
    ∃ m, Module.build importsOutOfStep = .ok m ∧
      m.globals.map Global.index = [0, 1, 1] ∧ ¬ IndexSpaces m := by
  refine ⟨_, rfl, rfl, ?_⟩
  intro h
  exact absurd (h.globalsIndexed 2
    ⟨1, ⟨.i32, false⟩, .imported (.ofString "env") (.ofString "g2")⟩ rfl) (by decide)

end Dart2Wasm.WasmBuilder
