import Dart2Wasm.Lib.Pointwise
import Dart2Wasm.WasmBuilder.IndexSpaces
import Dart2Wasm.WasmBuilder.ModuleDecoder

/-!
# WasmBuilder.RoundTrip — an encoded module decodes to what was built

Each writer of a section entry is read back by the reader of the decoder; the sections of a module
are split apart again by their lengths; and the stretches of element entries put every entry back
into its place. Put together, decoding the bytes of a module gives the types, imports, functions,
tables, memories, globals, exports, elements, data and names that the module was built from.
-/

namespace Dart2Wasm.WasmBuilder

open Lib Reads WasmBuilder.Module Option
open List hiding sections
open ModuleSection hiding id

variable {functions : List BaseFunction} {α β : Type} {R : α → β → Prop} {objects l : List α}
  {es : List (Option FunctionId)}
variable {bytes : List Byte} {write : α → Option (List Byte)} {read : Reader β} {g : α → β}

/-! ## Entries -/

section Entries

variable {types : TypeTable}

theorem reads_imports (hidx : types.Indexed) {e : ImportEntry} (hmodule : e.module.paired)
    (hname : e.name.paired) : Reads ImportEntry.read (e.serialize types) e := by
  obtain ⟨module, name, desc⟩ := e
  refine bind (reads_writeName hmodule) (bind (reads_writeName hname) ?_)
  cases desc with
  | function type =>
    refine token_bind (bind_pure (reads_writeUnsigned _) ?_)
    rw [hidx.indexOf_eq]
  | global type => exact token_bind (bind_pure (GlobalType.reads_serialize hidx) rfl)

theorem reads_limits (minSize : Nat) (maxSize : Option Nat) :
    Reads Limits.read (writeLimits minSize maxSize) ⟨minSize, maxSize⟩ := by
  cases maxSize with
  | none => exact token_bind (bind_pure (reads_writeUnsigned minSize) rfl)
  | some maxSize =>
    exact token_bind (bind (reads_writeUnsigned minSize)
      (bind_pure (reads_writeUnsigned maxSize) rfl))

theorem reads_global (hidx : types.Indexed) {g : DefinedGlobal}
    (h : g.serialize types = some bytes) :
    Reads GlobalEntry.read bytes ⟨g.type, g.initializer.code⟩ := by
  rw [DefinedGlobal.serialize] at h
  split at h
  · rename_i hcomplete
    obtain rfl := some.inj h
    exact bind (GlobalType.reads_serialize hidx)
      (bind_pure (InstructionBuffer.reads_serialize hidx hcomplete) rfl)
  · cases h

theorem reads_offset (offset : Int) : Reads readOffset (writeOffset offset) offset :=
  cons_bind (expect 0x41)
    (bind (reads_writeSigned offset) (bind_pure (expect 0x0B) rfl))

theorem reads_content (content : List Byte) :
    Reads readContent (writeUnsigned content.length ++ content) content :=
  bind (reads_writeUnsigned _) (reads_bytes content)

theorem reads_section (p : Byte × List Byte) : Reads readSection (writeSection p.1 p.2) p :=
  token_bind (bind_pure (reads_content p.2) rfl)

theorem expandLocals_localEntries (run : Nat) (t : ValueType) (locals : List ValueType) :
    expandLocals (localEntries run (t :: locals)) = replicate run t ++ t :: locals := by
  -- Induction over the locals; an entry collects the `run` equal ones before its end.
  induction locals generalizing run t with
  | nil => simp [localEntries, expandLocals, replicate_succ']
  | cons u locals ih =>
    rw [localEntries]
    split
    · rename_i heq
      subst heq
      rw [ih, replicate_succ', append_assoc]
      rfl
    · have hrest := ih 0 u
      simp only [expandLocals, flatMap_cons] at hrest ⊢
      rw [hrest, replicate_succ', append_assoc]
      rfl

theorem expandLocals_all (locals : List ValueType) :
    expandLocals (localEntries 0 locals) = locals := by
  cases locals with
  | nil => rfl
  | cons t locals => exact expandLocals_localEntries 0 t locals

theorem reads_localEntry (hidx : types.Indexed) (e : Nat × ValueType) :
    Reads readLocalEntry (writeUnsigned e.1 ++ e.2.serialize types) e :=
  bind (reads_writeUnsigned e.1) (bind_pure (ValueType.reads_serialize hidx) rfl)

theorem reads_code (hidx : types.Indexed) {f : DefinedFunction}
    (h : f.serialize types = some bytes) :
    Reads CodeEntry.read bytes ⟨f.ownLocals types, f.body.code⟩ := by
  rw [DefinedFunction.serialize] at h
  split at h
  · rename_i hcomplete
    obtain rfl := some.inj h
    refine bind (reads_writeUnsigned _) ?_
    rw [← length_append]
    refine region (bind (reads_writeList ?_)
      (bind_pure (InstructionBuffer.reads_serialize hidx hcomplete) ?_))
    · exact fun e _ => reads_localEntry hidx e
    · rw [expandLocals_all]
  · cases h

/-- The loops behind the locals `pre`, `run` of which belong to the entry that is not ended. -/
theorem loops_localEntries (pre : List ValueType) {run : Nat} (hrun : run ≤ pre.length)
    (locals : List ValueType) :
    (range' (pre.length + 1) locals.length).countP (entryEnds (pre ++ locals))
        = (localEntries run locals).length ∧
      writtenEntries (pre ++ locals) (pre.length - run) (range' (pre.length + 1) locals.length)
        = localEntries run locals := by
  induction locals generalizing pre run with
  | nil => exact ⟨rfl, rfl⟩
  | cons t locals ih =>
    have hsplit : pre ++ t :: locals = pre ++ [t] ++ locals := by simp
    have hlength : (pre ++ [t]).length = pre.length + 1 := by simp
    have hcount : pre.length + 1 - (pre.length - run) = run + 1 := by omega
    cases locals with
    | nil => simp [localEntries, writtenEntries, entryEnds, hcount]
    | cons u locals =>
      have hends : entryEnds (pre ++ t :: u :: locals) (pre.length + 1) = decide (t ≠ u) := by
        simp [entryEnds]
        grind
      rw [length_cons, range'_succ, countP_cons, writtenEntries, hends]
      by_cases htu : t = u
      · obtain ⟨hlen, hwritten⟩ := ih (pre ++ [t]) (Nat.succ_le_succ hrun |>.trans_eq hlength.symm)
        rw [← hsplit, hlength] at hlen hwritten
        rw [localEntries, if_pos htu]
        simp_all
      · obtain ⟨hlen, hwritten⟩ := ih (pre ++ [t]) (Nat.zero_le _)
        rw [← hsplit, hlength] at hlen hwritten
        rw [localEntries, if_neg htu]
        simp_all

theorem localEntries_chain (run : Nat) (t : ValueType) (locals : List ValueType) :
    ∃ n es, localEntries run (t :: locals) = (n, t) :: es ∧
      IsChain (fun e e' => e.2 ≠ e'.2) ((n, t) :: es) := by
  induction locals generalizing run t with
  | nil => exact ⟨run + 1, [], rfl, .singleton _⟩
  | cons u locals ih =>
    rw [localEntries]
    split
    · rename_i htu
      exact htu ▸ ih (run + 1) u
    · rename_i htu
      obtain ⟨n, es, hes, hchain⟩ := ih 0 u
      exact ⟨run + 1, (n, u) :: es, by rw [hes], .cons_cons htu hchain⟩

/-- The bytes of the two loops are those of `DefinedFunction.serialize`. -/
theorem writeLocals_eq (inputs added : List ValueType) :
    writeLocals types inputs.length (inputs ++ added)
      = writeList (fun e : Nat × ValueType => writeUnsigned e.1 ++ e.2.serialize types)
        (localEntries 0 added) := by
  obtain ⟨hcount, hwritten⟩ := loops_localEntries inputs (Nat.zero_le _) added
  rw [Nat.sub_zero] at hwritten
  rw [writeLocals, length_append, Nat.add_sub_cancel_left, hcount, hwritten, writeList]

/-- The entries that the loops write for a function with parameters `inputs`, after which the locals
`added` were added. -/
theorem writeLocals_decodes {calls : List Call} {m : Module} (hbuild : build calls = .ok m)
    (inputs added : List ValueType) :
    ∃ entries, entries = writtenEntries (inputs ++ added) inputs.length
        (range' (inputs.length + 1) added.length) ∧
      (range' (inputs.length + 1) added.length).countP (entryEnds (inputs ++ added))
        = entries.length ∧
      Reads (readList readLocalEntry)
        (writeLocals m.defTypes inputs.length (inputs ++ added)) entries ∧
      expandLocals entries = added ∧ IsChain (fun e e' => e.2 ≠ e'.2) entries := by
  obtain ⟨hcount, hwritten⟩ := loops_localEntries inputs (Nat.zero_le _) added
  refine ⟨localEntries 0 added, hwritten.symm, hcount, ?_, expandLocals_all added, ?_⟩
  · rw [writeLocals_eq]
    exact reads_writeList fun e _ => reads_localEntry (build_bookkeeping hbuild).defTypes e
  · cases added with
    | nil => exact .nil
    | cons t added =>
      obtain ⟨n, es, hes, hchain⟩ := localEntries_chain 0 t added
      exact hes ▸ hchain

theorem writeLocals_decodes_alternating :
    ∃ entries, Reads (readList readLocalEntry)
        (writeLocals [] 1 [.i64, .i32, .i32, .i64]) entries ∧
      expandLocals entries = [.i32, .i32, .i64] := by
  obtain ⟨entries, _, _, hreads, hexpand, _⟩ :=
    @writeLocals_decodes [] _ rfl [.i64] [.i32, .i32, .i64]
  exact ⟨entries, hreads, hexpand⟩

theorem reads_flag (flag : Nat) {b : Byte} (h : writeUnsigned flag = [b]) :
    Reads readUnsigned [b] flag :=
  h ▸ reads_writeUnsigned flag

theorem reads_data {memories : List Memory} (hidx : Indexed Memory.index memories) {s : DataSegment}
    (hpassive : s.memory = none → s.offset = none) (h : s.serialize memories = some bytes) :
    Reads DataEntry.read bytes ⟨s.content, s.memory, s.offset⟩ := by
  obtain ⟨index, content, memory, offset⟩ := s
  cases memory with
  | none =>
    obtain rfl : offset = none := hpassive rfl
    obtain rfl := some.inj h
    exact cons_bind (reads_flag 1 (by decide))
      (bind_pure (reads_content content) rfl)
  | some memory =>
    obtain ⟨offset, rfl, hbytes⟩ := map_eq_some_iff.1 h
    simp only [hidx.indexAt_eq] at hbytes
    have hrest : ∀ i : Nat, Reads (do
        let offset ← readOffset
        let content ← readContent
        pure (⟨content, some i, some offset⟩ : DataEntry))
        (writeOffset offset ++ (writeUnsigned content.length ++ content))
        ⟨content, some i, some offset⟩ :=
      fun _ => bind (reads_offset offset) (bind_pure (reads_content content) rfl)
    split at hbytes
    · rename_i hzero
      subst hzero hbytes
      exact cons_bind (reads_flag 0 (by decide)) (hrest 0)
    · subst hbytes
      exact cons_bind (reads_flag 2 (by decide))
        (bind (reads_writeUnsigned memory) (hrest memory))

theorem reads_export {globals : List Global} (hfunctions : Indexed BaseFunction.index functions)
    {e : Export} (hname : e.name.paired)
    (hglobal : ∀ name g, e = .global name g → indexAt Global.index globals g = g) :
    Reads Export.read (e.serialize functions globals) e := by
  cases e with
  | function name f =>
    refine bind (reads_writeName hname) ?_
    refine token_bind (bind_pure (reads_writeUnsigned _) ?_)
    rw [hfunctions.indexAt_eq]
  | global name g =>
    refine bind (reads_writeName hname) ?_
    refine token_bind (bind_pure (reads_writeUnsigned _) ?_)
    rw [hglobal name g rfl]

/-- A stretch of the first table is read as an active segment of that table. -/
theorem reads_element
    (hfunctions : Indexed BaseFunction.index functions) {e : Element} (htable : e.table = 0) :
    Reads ElementEntry.read (e.serialize functions)
      ⟨.active 0 e.startIndex, .functions e.entries⟩ := by
  rw [Element.serialize, htable]
  refine bind (reads_writeUnsigned 0) (bind (reads_offset _) ?_)
  refine bind_pure (reads_writeList ?_) rfl
  intro f _
  rw [hfunctions.indexAt_eq]
  exact reads_writeUnsigned f

end Entries

/-! ## Lists of objects -/

/-- Objects that serialize, and each of which is read back as a value related to it. -/
theorem reads_writeObjects
    (h : ∀ a ∈ objects, ∀ data, write a = some data → ∃ b, R a b ∧ Reads read data b)
    (hwrite : writeObjects write objects = some bytes) :
    ∃ bs, List.Forall₂ R objects bs ∧ Reads (readList read) bytes bs := by
  obtain ⟨parts, hparts, rfl⟩ := map_eq_some_iff.1 hwrite
  suffices hread : ∃ bs, List.Forall₂ R objects bs ∧
      Reads (read.count objects.length) parts.flatten bs by
    obtain ⟨bs, hbs, hread⟩ := hread
    exact ⟨bs, hbs, bind (reads_writeUnsigned _) hread⟩
  clear hwrite
  rw [mapM_eq_some_iff] at hparts
  induction hparts with
  | nil => exact ⟨[], .nil, pure []⟩
  | cons hdata _ ih =>
    obtain ⟨b, hab, hb⟩ := h _ (by simp) _ hdata
    obtain ⟨bs, hbs, hreads⟩ := ih fun a' ha' => h a' (by simp [ha'])
    exact ⟨b :: bs, .cons hab hbs, bind hb (bind_pure hreads rfl)⟩

/-! ## Sections -/

section Sections

/-- The id and the contents of a section that is written. -/
def ModuleSection.present? (s : ModuleSection) : Option (Byte × List Byte) :=
  if s.isNotEmpty then s.contents.map (s.id, ·) else none

def presentSections (sections : List ModuleSection) : List (Byte × List Byte) :=
  sections.filterMap ModuleSection.present?

variable {sections : List ModuleSection} {s : ModuleSection}

theorem ModuleSection.present?_eq_some {p : Byte × List Byte} :
    s.present? = some p ↔ s.isNotEmpty = true ∧ s.contents = some p.2 ∧ s.id = p.1 := by
  obtain ⟨id, data⟩ := p
  rw [present?]
  cases s.isNotEmpty <;> simp [map_eq_some_iff]

theorem serialize_sections {parts : List (List Byte)} (h : sections.mapM serialize = some parts) :
    parts.flatten = (presentSections sections).flatMap (fun p => writeSection p.1 p.2) ∧
      ∀ s ∈ sections, s.isNotEmpty = true → ∃ data, s.contents = some data := by
  rw [mapM_eq_some_iff] at h
  induction h with
  | nil => exact ⟨rfl, by simp⟩
  | @cons s part _ _ hpart _ ih =>
    obtain ⟨hflatten, hall⟩ := ih
    rw [serialize] at hpart
    cases hs : s.isNotEmpty with
    | false =>
      rw [hs] at hpart
      obtain rfl : [] = part := some.inj hpart
      refine ⟨?_, ?_⟩
      · simpa [presentSections, present?, hs] using hflatten
      · simpa [hs] using hall
    | true =>
      rw [hs, if_pos rfl] at hpart
      obtain ⟨data, hdata, rfl⟩ := map_eq_some_iff.1 hpart
      refine ⟨?_, ?_⟩
      · simpa [presentSections, present?, hs, hdata] using hflatten
      · simpa [hdata] using hall

theorem presentSections_sublist (sections : List ModuleSection) :
    ((presentSections sections).map Prod.fst).Sublist (sections.map ModuleSection.id) := by
  induction sections with
  | nil => exact .slnil
  | cons s sections ih =>
    rw [presentSections, filterMap_cons, map_cons]
    split
    · exact ih.cons _
    · rename_i p hp
      rw [(present?_eq_some.1 hp).2.2]
      exact ih.cons_cons _

theorem lookup_presentSections (hnodup : (sections.map ModuleSection.id).Nodup)
    (hs : s ∈ sections) :
    (presentSections sections).lookup s.id = s.present?.map Prod.snd := by
  induction sections with
  | nil => cases hs
  | cons s' sections ih =>
    rw [map_cons, nodup_cons] at hnodup
    rw [presentSections, filterMap_cons]
    rcases mem_cons.1 hs with rfl | hs
    · cases hp : s.present? with
      | none =>
        -- No later section has the same id.
        refine lookup_eq_none_iff.2 fun p hmem => ?_
        have hid := (presentSections_sublist sections).subset (mem_map_of_mem hmem)
        have hne : s.id ≠ p.1 := fun heq => hnodup.1 (heq ▸ hid)
        simpa using hne
      | some p =>
        rw [← Prod.eta p, lookup_cons, (present?_eq_some.1 hp).2.2, beq_self_eq_true]
        rfl
    · have hne : s.id ≠ s'.id := fun heq => hnodup.1 (heq ▸ mem_map_of_mem hs)
      cases hp : s'.present? with
      | none => exact ih hnodup.2 hs
      | some p =>
        rw [(present?_eq_some.1 hp).2.2] at hne
        rw [← Prod.eta p, lookup_cons, beq_false_of_ne hne]
        exact ih hnodup.2 hs

variable {m : Module} {fuel : Nat}

theorem sections_ids :
    (m.sections fuel true).map ModuleSection.id =
      (if m.dataReferencedFromGlobalInitializer then earlyDataCountOrder else standardOrder) ++
        [0] := by
  rw [sections]
  cases m.dataReferencedFromGlobalInitializer <;> rfl

theorem sections_nodup : ((m.sections fuel true).map ModuleSection.id).Nodup := by
  rw [sections_ids]
  cases m.dataReferencedFromGlobalInitializer <;> decide

/-- The sections that a module writes. -/
abbrev Module.written (m : Module) (fuel : Nat) : List (Byte × List Byte) :=
  presentSections (m.sections fuel true)

variable (hs : s ∈ m.sections fuel true)
include hs

/-- Reading a section that is present, or accepting that it is absent. -/
theorem parseSection_presentSections (hdata : s.isNotEmpty = true → ∃ data, s.contents = some data)
    {p : Reader α} {a absent : α}
    (hread : s.isNotEmpty = true → ∀ data, s.contents = some data → Reads p data a)
    (habsent : s.isNotEmpty = false → absent = a) :
    parseSection (m.written fuel) s.id p absent = some a := by
  rw [parseSection, lookup_presentSections sections_nodup hs]
  cases hne : s.isNotEmpty with
  | false =>
    rw [present?, hne]
    exact congrArg some (habsent hne)
  | true =>
    obtain ⟨data, hdata⟩ := hdata hne
    have hpresent : s.present? = some (s.id, data) :=
      present?_eq_some.2 ⟨hne, hdata, rfl⟩
    rw [hpresent]
    exact (hread hne data hdata).parseAll

/-- A section that is a list of objects, each of which is read back as its image. -/
theorem parse_writeList {write : α → List Byte}
    (hcontents : s.contents = some (writeList write objects))
    (hempty : s.isNotEmpty = false → objects = []) (h : ∀ a ∈ objects, Reads read (write a) (g a)) :
    parseSection (m.written fuel) s.id (readList read) [] = some (objects.map g) := by
  refine parseSection_presentSections hs (fun _ => ⟨_, hcontents⟩) ?_ ?_
  · intro _ data hdata
    obtain rfl := some.inj (hcontents.symm.trans hdata)
    exact reads_writeList_map h
  · intro hne
    rw [hempty hne]
    rfl

section

variable (hdata : s.isNotEmpty = true → ∃ data, s.contents = some data)
  (hcontents : s.contents = writeObjects write objects)
  (hempty : s.isNotEmpty = false → objects = [])
include hdata hcontents hempty

/-- A section that is a list of objects which may fail to serialize. -/
theorem parse_writeObjects {p : Reader β}
    (h : ∀ a ∈ objects, ∀ data, write a = some data → ∃ b, R a b ∧ Reads p data b) :
    ∃ bs, List.Forall₂ R objects bs ∧
      parseSection (m.written fuel) s.id (readList p) [] = some bs := by
  cases hne : s.isNotEmpty with
  | false =>
    obtain rfl := hempty hne
    refine ⟨[], .nil, parseSection_presentSections hs hdata ?_ fun _ => rfl⟩
    intro _ data hdata
    obtain ⟨bs, hbs, hread⟩ := reads_writeObjects h (hcontents.symm.trans hdata)
    cases hbs
    exact hread
  | true =>
    obtain ⟨data, hsome⟩ := hdata hne
    obtain ⟨bs, hbs, hread⟩ := reads_writeObjects h (hcontents.symm.trans hsome)
    refine ⟨bs, hbs, parseSection_presentSections hs hdata ?_ ?_⟩
    · intro _ data' hdata'
      exact some.inj (hsome.symm.trans hdata') ▸ hread
    · intro hne'
      exact absurd (hne.symm.trans hne') (by decide)

theorem parse_writeObjects_map
    (h : ∀ a ∈ objects, ∀ data, write a = some data → Reads read data (g a)) :
    parseSection (m.written fuel) s.id (readList read) [] = some (objects.map g) := by
  obtain ⟨bs, hbs, hparse⟩ := parse_writeObjects (R := fun a b => b = g a) hs hdata hcontents
    hempty fun a ha data hwrite => ⟨_, rfl, h a ha data hwrite⟩
  have hmap := Lib.forall₂_map_eq (f := g) (g := id) hbs fun _ _ h => h.symm
  rwa [hmap, List.map_id]

end

end Sections

/-! ## Elements -/

theorem writeEntries_append (pre rest : List (Option Nat)) (fs : List Nat) :
    writeEntries (pre ++ (replicate fs.length none ++ rest)) pre.length fs =
      pre ++ (fs.map some ++ rest) := by
  induction fs generalizing pre with
  | nil => rfl
  | cons f fs ih =>
    have hset : (pre ++ (replicate (f :: fs).length none ++ rest)).set pre.length (some f) =
        (pre ++ [some f]) ++ (replicate fs.length none ++ rest) := by
      rw [set_append_right _ _ (Nat.le_refl _), Nat.sub_self, length_cons,
        replicate_succ, append_assoc]
      rfl
    have hlen : pre.length + 1 = (pre ++ [some f]).length := by simp
    rw [writeEntries, hset, hlen, ih, append_assoc]
    rfl

/-- The stretches of a table, written into an empty table, give its entries. -/
theorem writeEntries_groupElements (table : Nat) (es : List (Option FunctionId)) :
    (∀ pre : List (Option Nat),
      (groupElements table pre.length none es).foldl
        (fun c e => writeEntries c e.startIndex e.entries)
        (pre ++ replicate es.length none) = pre ++ es) ∧
    (∀ (pre : List (Option Nat)) (e : Element), e.startIndex = pre.length →
      (groupElements table (pre.length + e.entries.length) (some e) es).foldl
        (fun c e => writeEntries c e.startIndex e.entries)
        (pre ++ (replicate e.entries.length none ++ replicate es.length none)) =
      pre ++ (e.entries.map some ++ es)) := by
  -- Both statements together: a stretch may be open or not when the rest of the table is reached.
  induction es with
  | nil =>
    refine ⟨fun pre => rfl, fun pre e he => ?_⟩
    have hwrite := writeEntries_append pre [] e.entries
    simpa [groupElements, he] using hwrite
  | cons o es ih =>
    refine ⟨fun pre => ?_, fun pre e he => ?_⟩
    · cases o with
      | none =>
        have hrest := ih.1 (pre ++ [none])
        simpa [groupElements, replicate_succ] using hrest
      | some f =>
        have hrest := ih.2 pre ⟨table, pre.length, [f]⟩ rfl
        simpa [groupElements, replicate_succ] using hrest
    · cases o with
      | none =>
        have hwrite := writeEntries_append pre (replicate (es.length + 1) none) e.entries
        have hrest := ih.1 (pre ++ (e.entries.map some ++ [none]))
        simp only [groupElements, foldl_cons, length_cons, he, hwrite]
        simpa [replicate_succ, Nat.add_assoc] using hrest
      | some f =>
        have hrest := ih.2 pre { e with entries := e.entries ++ [f] } he
        have hnones : replicate (e.entries ++ [f]).length none ++
            replicate es.length (none : Option Nat) =
            replicate e.entries.length none ++ replicate (es.length + 1) none := by
          rw [length_append, length_singleton, replicate_succ', replicate_succ, append_assoc]
          rfl
        rw [hnones] at hrest
        simpa [groupElements, Nat.add_assoc] using hrest

theorem groupElements_empty (table i : Nat)
    (h : ∀ e ∈ es, e = none) : groupElements table i none es = [] := by
  induction es generalizing i with
  | nil => rfl
  | cons o es ih =>
    obtain rfl : o = none := h o (by simp)
    exact ih (i + 1) fun e he => h e (by simp [he])

theorem groupElements_table {table i : Nat} {current : Option Element}
    (hcurrent : ∀ e, current = some e → e.table = table) :
    ∀ e ∈ groupElements table i current es, e.table = table := by
  induction es generalizing i current with
  | nil =>
    intro e he
    exact hcurrent e (mem_toList.1 he)
  | cons o es ih =>
    cases o with
    | none =>
      cases current with
      | none => exact ih hcurrent
      | some c =>
        intro e he
        rcases mem_cons.1 he with rfl | he
        · exact hcurrent e rfl
        · exact ih (fun _ hnone => by cases hnone) e he
    | some f =>
      cases current with
      | none => exact ih fun e he => some.inj he ▸ rfl
      | some c => exact ih fun e he => some.inj he ▸ hcurrent c rfl

/-! ## What the builder keeps about tables and segments -/

/-- A table has as many entries as its size says, and a segment without memory has no offset. -/
structure WellShaped (m : Module) : Prop where
  tables : ∀ t ∈ m.tables, t.elements.length = t.minSize
  segments : ∀ s ∈ m.dataSegments, s.memory = none → s.offset = none

theorem forall_mem_modify {P : α → Prop} {i : Nat} {a : α} {f : α → α}
    (hl : ∀ b ∈ l, P b) (ha : l[i]? = some a) (hf : P (f a)) : ∀ b ∈ l.modify i f, P b := by
  intro b hb
  obtain ⟨j, hj⟩ := mem_iff_getElem?.1 hb
  rw [getElem?_modify] at hj
  by_cases hij : i = j
  · subst hij
    rw [ha] at hj
    obtain rfl : f a = b := by simpa using hj
    exact hf
  · simp only [hij, if_false] at hj
    exact hl b (mem_of_getElem? (by simpa using hj))

theorem step_wellShaped (m : Module) (c : Call) (m' : Module) (hm : WellShaped m)
    (h : m.step c = .ok m') : WellShaped m' := by
  have hsame : m'.tables = m.tables → m'.dataSegments = m.dataSegments → WellShaped m' :=
    fun ht hs => ⟨ht ▸ hm.tables, hs ▸ hm.segments⟩
  cases c
  case addTable minSize maxSize =>
    cases h
    refine ⟨?_, hm.segments⟩
    intro t ht
    rcases mem_append.1 ht with ht | ht
    · exact hm.tables t ht
    · obtain rfl := mem_singleton.1 ht
      exact length_replicate
  case setElement t index f =>
    simp only [step, setElement] at h
    split at h
    · cases h
    · rename_i table htable
      split at h
      · cases h
        refine ⟨forall_mem_modify hm.tables htable ?_, hm.segments⟩
        exact length_set.trans (hm.tables table (mem_of_getElem? htable))
      · cases h
  case addDataSegment initialContent memory offset =>
    simp only [step, addDataSegment] at h
    split at h
    · rename_i hplaced
      cases h
      refine ⟨hm.tables, ?_⟩
      intro s hs hnone
      rcases mem_append.1 hs with hs | hs
      · exact hm.segments s hs hnone
      · obtain rfl := mem_singleton.1 hs
        obtain rfl : memory = none := hnone
        cases offset with
        | none => rfl
        | some o => cases hplaced
    · cases h
  case appendData s data =>
    simp only [step, appendData] at h
    split at h
    · cases h
    · rename_i segment hsegment
      split at h
      · cases h
        refine ⟨hm.tables, forall_mem_modify hm.segments hsegment ?_⟩
        exact hm.segments segment (mem_of_getElem? hsegment)
      · cases h
  -- The other calls change neither the tables nor the segments.
  all_goals
    simp only [step, addFunctionType, addField, setElementType,
      addFunction, importFunction, addLocal, emitBody,
      importGlobal, emitInitializer, exportFunction] at h
    repeat' split at h
  all_goals
    cases h
    try exact hsame rfl rfl

/-! ## The round trip -/

/-- What a decoder has to find in the binary form of a module. -/
structure Recovers (m : Module) (d : DecodedModule) : Prop where
  types : d.types.map some = m.defTypes.map DefType.entry?
  imports : d.imports = m.imports
  functionTypes : d.functionTypes = m.definedFunctions.map DefinedFunction.type
  tables : d.tables = m.tables.map fun t => ⟨t.minSize, t.maxSize⟩
  memories : d.memories = m.memories.map fun t => ⟨t.minSize, t.maxSize⟩
  globals : d.globals = m.definedGlobals.map fun g => ⟨g.type, g.initializer.code⟩
  exports : d.exports = m.exports
  start : d.start = m.startFunction
  elements : ∀ (t : Nat) table, m.tables[t]? = some table →
    d.tableContents t = some table.elements
  code : d.code = m.definedFunctions.map fun f => ⟨f.ownLocals m.defTypes, f.body.code⟩
  data : d.data = m.dataSegments.map fun s => ⟨s.content, s.memory, s.offset⟩
  functionNames : d.functionNames = m.functionNames

/-- The entry of a stretch of the first table. -/
def Element.entry (e : Element) : ElementEntry :=
  ⟨.active 0 e.startIndex, .functions e.entries⟩

section Module

variable {m : Module}

/-- Only the first table has elements. -/
def Module.OnlyFirstTable (m : Module) : Prop :=
  ∀ (t : Nat) table, m.tables[t]? = some table → t ≠ 0 → ∀ e ∈ table.elements, e = none

/-- No name that is written has a surrogate without a partner. -/
structure Module.NamesPaired (m : Module) : Prop where
  imports : ∀ e ∈ m.imports, e.module.paired ∧ e.name.paired
  exports : ∀ e ∈ m.exports, e.name.paired
  functions : ∀ p ∈ m.functionNames, p.2.paired

/-- Exported globals carry their position as their index. -/
def Module.ExportsIndexed (m : Module) : Prop :=
  ∀ name g, Export.global name g ∈ m.exports → indexAt Global.index m.globals g = g

/-- The stretches of the module are those of its first table. -/
theorem elements_eq (hfirst : m.OnlyFirstTable) :
    m.elements = ((m.tables.head?).map Table.groupedElements).getD [] := by
  rw [elements]
  cases htables : m.tables with
  | nil => rfl
  | cons table tables =>
    have hrest : tables.flatMap Table.groupedElements = [] := by
      refine flatMap_eq_nil_iff.2 fun t ht => groupElements_empty _ _ ?_
      obtain ⟨i, hi⟩ := mem_iff_getElem?.1 ht
      exact hfirst (i + 1) t (by rw [htables]; exact hi) (Nat.succ_ne_zero i)
    rw [flatMap_cons, hrest, append_nil]
    rfl

theorem element_table (hbook : Bookkeeping m) (hfirst : m.OnlyFirstTable) :
    ∀ e ∈ m.elements, e.table = 0 := by
  rw [elements_eq hfirst]
  cases htables : m.tables with
  | nil => simp
  | cons table tables =>
    have hindex : table.index = 0 := hbook.tables 0 table (by rw [htables]; rfl)
    intro e he
    rw [← hindex]
    exact groupElements_table (fun _ hnone => by cases hnone) e he

/-- The decoded segments put the entries of every table back into their places. -/
theorem tableContents_eq (hshape : WellShaped m) (hfirst : m.OnlyFirstTable) {d : DecodedModule}
    (htables : d.tables = m.tables.map fun t => ⟨t.minSize, t.maxSize⟩)
    (helements : d.elements = m.elements.map Element.entry) {t : Nat} {table : Table}
    (ht : m.tables[t]? = some table) : d.tableContents t = some table.elements := by
  have hlen : table.elements.length = table.minSize := hshape.tables table (mem_of_getElem? ht)
  have hsize : d.tables[t]? = some ⟨table.minSize, table.maxSize⟩ := by
    rw [htables, getElem?_map, ht]
    rfl
  rw [DecodedModule.tableContents, hsize, helements, map_some, foldl_map]
  refine congrArg some ?_
  cases t with
  | zero =>
    have hhead : m.tables.head? = some table := head?_eq_getElem? ▸ ht
    have hwrite := (writeEntries_groupElements table.index table.elements).1 []
    rw [elements_eq hfirst, hhead]
    rw [hlen] at hwrite
    exact hwrite
  | succ t =>
    have hnone : table.elements = replicate table.minSize none :=
      eq_replicate_iff.2 ⟨hlen, hfirst _ table ht (Nat.succ_ne_zero t)⟩
    have hskip : ∀ es : List Element, ∀ c,
        es.foldl (fun c e => ElementEntry.apply (t + 1) c e.entry) c = c := by
      intro es
      induction es with
      | nil => exact fun _ => rfl
      | cons e es ih => exact fun c => ih c
    rw [hskip, hnone]

theorem functionNames_length (hbook : Bookkeeping m) :
    m.functionNames.length = m.functionNameCount := by
  rw [hbook.functions.nameCount, functionNames, length_filterMap_eq_countP]
  calc m.functions.zipIdx.countP (fun p => (p.1.functionName.map fun name => (p.2, name)).isSome)
      = m.functions.zipIdx.countP (fun p => p.1.functionName.isSome) := by
        simp only [isSome_map]
    _ = (m.functions.zipIdx.map Prod.fst).countP fun f => f.functionName.isSome := by
        rw [countP_map]
        rfl
    _ = m.functions.countP fun f => f.functionName.isSome := by
        rw [zipIdx_map_fst]

/-- The order of the sections is one of the two. -/
theorem sections_order (fuel : Nat) :
    [standardOrder, earlyDataCountOrder].any
      (((m.written fuel).map Prod.fst).filter (· != 0)).isSublist
      = true := by
  have hsub := (presentSections_sublist (m.sections fuel true)).filter (· != 0)
  rw [sections_ids] at hsub
  rw [any_cons, any_cons, any_nil, Bool.or_false, Bool.or_eq_true,
    isSublist_iff_sublist, isSublist_iff_sublist]
  cases hflag : m.dataReferencedFromGlobalInitializer with
  | false =>
    rw [hflag] at hsub
    exact Or.inl hsub
  | true =>
    rw [hflag] at hsub
    exact Or.inr hsub

theorem decode_encode {fuel : Nat} (h : m.encode fuel true = some bytes) :
    decode [standardOrder, earlyDataCountOrder] bytes =
      decodeSections (m.written fuel) := by
  obtain ⟨parts, hparts, rfl⟩ := map_eq_some_iff.1 h
  obtain ⟨hflatten, _⟩ := serialize_sections hparts
  have hne : ∀ p ∈ m.written fuel, writeSection p.1 p.2 ≠ [] :=
    fun _ _ => cons_ne_nil _ _
  have hread : readSection.untilEnd (preamble ++ parts.flatten).length
      ((preamble ++ parts.flatten).drop 8) =
      some (m.written fuel) := by
    rw [hflatten]
    refine untilEnd ?_ hne fun p _ => reads_section p
    rw [length_append]
    exact Nat.le_add_left_of_le (length_le_flatMap hne)
  have htake : (preamble ++ parts.flatten).take 8 = preamble := rfl
  rw [decode, if_pos htake, hread]
  dsimp only
  rw [if_pos (sections_order fuel)]

theorem eq_nil_of_isEmpty (h : (!l.isEmpty) = false) : l = [] := by
  simpa using h

theorem elements_eq_nil (h : m.elementSection.isNotEmpty = false) : m.elements = [] := by
  refine flatMap_eq_nil_iff.2 fun t ht => groupElements_empty _ _ fun e he => ?_
  have hnone := any_eq_false.1 (any_eq_false.1 h t ht |> Bool.eq_false_iff.2) e he
  simpa using hnone

theorem mem_sections (m : Module) (fuel : Nat) {s : ModuleSection}
    (hs : s ∈ [m.typeSection fuel, m.importSection, m.functionSection, m.tableSection,
      m.memorySection, m.globalSection, m.exportSection, m.startSection, m.elementSection,
      m.dataCountSection, m.codeSection, m.dataSection, m.nameSection]) :
    s ∈ m.sections fuel true := by
  rw [sections]
  cases m.dataReferencedFromGlobalInitializer <;> simp at hs ⊢ <;> tauto

/-! ## Section by section -/

section Parse

variable (fuel : Nat)

theorem parse_tables :
    parseSection (m.written fuel) 4 (readList readTable) []
      = some (m.tables.map fun t => ⟨t.minSize, t.maxSize⟩) :=
  parse_writeList (mem_sections m fuel (s := m.tableSection) (by simp)) rfl
    eq_nil_of_isEmpty fun t _ => cons_bind (expect 0x70) (reads_limits t.minSize t.maxSize)

theorem parse_memories :
    parseSection (m.written fuel) 5 (readList Limits.read) []
      = some (m.memories.map fun t => ⟨t.minSize, t.maxSize⟩) :=
  parse_writeList (mem_sections m fuel (s := m.memorySection) (by simp)) rfl
    eq_nil_of_isEmpty fun t _ => reads_limits t.minSize t.maxSize

theorem parse_dataCount :
    ∃ count, parseSection (m.written fuel) 12 (some <$> readUnsigned) none
      = some count ∧ (count = none ∨ count = some m.dataSegments.length) := by
  refine ⟨if m.dataCountSection.isNotEmpty then some m.dataSegments.length else none,
    parseSection_presentSections
      (mem_sections m fuel (s := m.dataCountSection) (by simp)) (fun _ => ⟨_, rfl⟩) ?_ ?_, ?_⟩
  · intro hne data hdata
    obtain rfl := some.inj hdata
    rw [if_pos hne]
    exact bind_pure (reads_writeUnsigned _) rfl
  · intro hne
    rw [hne]
    rfl
  · split
    · exact Or.inr rfl
    · exact Or.inl rfl

variable (hbook : Bookkeeping m)
include hbook

theorem parse_imports (hnames : m.NamesPaired) :
    parseSection (m.written fuel) 2 (readList ImportEntry.read) []
      = some m.imports := by
  have hparse := parse_writeList (g := id)
    (mem_sections m fuel (s := m.importSection) (by simp)) rfl eq_nil_of_isEmpty
    fun e he => reads_imports hbook.defTypes (hnames.imports e he).1 (hnames.imports e he).2
  rwa [List.map_id] at hparse

theorem parse_functionTypes :
    parseSection (m.written fuel) 3 (readList readUnsigned) []
      = some (m.definedFunctions.map DefinedFunction.type) := by
  refine parse_writeList (mem_sections m fuel (s := m.functionSection) (by simp))
    rfl eq_nil_of_isEmpty fun f _ => ?_
  have hindex : m.defTypes.indexOf f.type = f.type :=
    TypeTable.Indexed.indexOf_eq hbook.defTypes f.type
  rw [hindex]
  exact reads_writeUnsigned f.type

theorem parse_exports (hnames : m.NamesPaired) (hexports : m.ExportsIndexed) :
    parseSection (m.written fuel) 7 (readList Export.read) []
      = some m.exports := by
  have hparse := parse_writeList (g := id)
    (mem_sections m fuel (s := m.exportSection) (by simp)) rfl eq_nil_of_isEmpty
    fun e he => reads_export hbook.functions.indexed (hnames.exports e he)
      fun name g heq => hexports name g (heq ▸ he)
  rwa [List.map_id] at hparse

theorem parse_start :
    parseSection (m.written fuel) 8 (some <$> readUnsigned) none
      = some m.startFunction := by
  refine parseSection_presentSections
    (mem_sections m fuel (s := m.startSection) (by simp)) ?_ ?_ ?_
  · intro hne
    obtain ⟨f, hf⟩ := isSome_iff_exists.1 hne
    exact ⟨_, congrArg (Option.map _) hf⟩
  · intro _ data hdata
    obtain ⟨f, hf, rfl⟩ := map_eq_some_iff.1 hdata
    rw [hf, hbook.functions.indexed.indexAt_eq]
    exact bind_pure (reads_writeUnsigned f) rfl
  · intro hne
    exact (not_isSome_iff_eq_none.1 (Bool.eq_false_iff.1 hne)).symm

theorem parse_elements (hfirst : m.OnlyFirstTable) :
    parseSection (m.written fuel) 9 (readList ElementEntry.read) []
      = some (m.elements.map Element.entry) :=
  parse_writeList (mem_sections m fuel (s := m.elementSection) (by simp)) rfl
    elements_eq_nil fun e he =>
      reads_element hbook.functions.indexed (element_table hbook hfirst e he)

theorem parse_names (hnames : m.NamesPaired) :
    parseSection (m.written fuel) 0 readNames []
      = some m.functionNames := by
  have hlen := functionNames_length hbook
  refine parseSection_presentSections
    (mem_sections m fuel (s := m.nameSection) (by simp)) (fun _ => ⟨_, rfl⟩) ?_ ?_
  · intro _ data hdata
    obtain rfl := some.inj hdata
    rw [← hlen]
    refine bind (reads_writeName (by decide)) (cons_bind (expect 0x01) ?_)
    refine bind (reads_writeUnsigned _) (region ?_)
    exact reads_writeList fun p hp =>
      bind (reads_writeUnsigned p.1) (bind_pure (reads_writeName (hnames.functions p hp)) rfl)
  · intro hne
    have hzero : m.functionNameCount = 0 := Nat.eq_zero_of_not_pos (of_decide_eq_false hne)
    exact (length_eq_zero_iff.1 (hlen.trans hzero)).symm

variable {fuel}
  (hdata : ∀ s ∈ m.sections fuel true, s.isNotEmpty = true → ∃ data, s.contents = some data)
include hdata

theorem parse_types :
    ∃ types : List TypeEntry, types.map some = m.defTypes.map DefType.entry? ∧
      parseSection (m.written fuel) 1 (readList TypeEntry.read) []
        = some types := by
  have hs := mem_sections m fuel (s := m.typeSection fuel) (by simp)
  obtain ⟨types, htypes, hparse⟩ := parse_writeObjects (R := fun t e => t.entry? = some e)
    (p := TypeEntry.read) hs (hdata _ hs) rfl eq_nil_of_isEmpty (by
      intro t _ data ht
      obtain ⟨e, he, rfl⟩ := DefType.serializeDefinition_eq ht
      exact ⟨e, he, TypeEntry.reads_serialize hbook.defTypes⟩)
  refine ⟨types, ?_, hparse⟩
  clear hparse hdata hs
  generalize m.defTypes = defTypes at htypes
  induction htypes with
  | nil => rfl
  | cons he _ ih => rw [map_cons, map_cons, ih, he]

theorem parse_globals :
    parseSection (m.written fuel) 6 (readList GlobalEntry.read) []
      = some (m.definedGlobals.map fun g => ⟨g.type, g.initializer.code⟩) := by
  have hs := mem_sections m fuel (s := m.globalSection) (by simp)
  exact parse_writeObjects_map hs (hdata _ hs) rfl eq_nil_of_isEmpty
    fun g _ _ hg => reads_global hbook.defTypes hg

theorem parse_code :
    parseSection (m.written fuel) 10 (readList CodeEntry.read) []
      = some (m.definedFunctions.map fun f => ⟨f.ownLocals m.defTypes, f.body.code⟩) := by
  have hs := mem_sections m fuel (s := m.codeSection) (by simp)
  exact parse_writeObjects_map hs (hdata _ hs) rfl eq_nil_of_isEmpty
    fun f _ _ hf => reads_code hbook.defTypes hf

theorem parse_data (hshape : WellShaped m) :
    parseSection (m.written fuel) 11 (readList DataEntry.read) []
      = some (m.dataSegments.map fun s => ⟨s.content, s.memory, s.offset⟩) := by
  have hs := mem_sections m fuel (s := m.dataSection) (by simp)
  exact parse_writeObjects_map hs (hdata _ hs) rfl eq_nil_of_isEmpty
    fun s hs _ hser => reads_data hbook.memories (hshape.segments s hs) hser

end Parse

/-- The sections of a module that was built are read back. -/
theorem decodeSections_recovers (hbook : Bookkeeping m) (hshape : WellShaped m)
    (hnames : m.NamesPaired) (hfirst : m.OnlyFirstTable) (hexports : m.ExportsIndexed) {fuel : Nat}
    (hdata : ∀ s ∈ m.sections fuel true, s.isNotEmpty = true → ∃ data, s.contents = some data) :
    ∃ d, decodeSections (m.written fuel) = some d ∧ Recovers m d := by
  obtain ⟨types, htypes, hparse⟩ := parse_types hbook hdata
  obtain ⟨dataCount, hdataCount, hcount⟩ := parse_dataCount (m := m) fuel
  refine ⟨⟨types, m.imports, m.definedFunctions.map DefinedFunction.type,
    m.tables.map fun t => ⟨t.minSize, t.maxSize⟩, m.memories.map fun t => ⟨t.minSize, t.maxSize⟩,
    dataCount, m.definedGlobals.map fun g => ⟨g.type, g.initializer.code⟩, m.exports,
    m.startFunction, m.elements.map Element.entry,
    m.definedFunctions.map fun f => ⟨f.ownLocals m.defTypes, f.body.code⟩,
    m.dataSegments.map fun s => ⟨s.content, s.memory, s.offset⟩, m.functionNames⟩, ?_, ?_⟩
  · simp only [decodeSections, hparse, parse_imports fuel hbook hnames,
      parse_functionTypes fuel hbook, parse_tables, parse_memories, parse_globals hbook hdata,
      parse_exports fuel hbook hnames hexports,
      parse_start fuel hbook, parse_elements fuel hbook hfirst, hdataCount, parse_code hbook hdata,
      parse_data hbook hdata hshape, parse_names fuel hbook hnames, some_bind]
    refine if_pos ?_
    rcases hcount with rfl | rfl
    · simp [DecodedModule.consistent]
    · simp [DecodedModule.consistent]
  · exact ⟨htypes, rfl, rfl, rfl, rfl, rfl, rfl, rfl,
      fun t table ht => tableContents_eq hshape hfirst rfl rfl ht, rfl, rfl, rfl⟩

end Module

/-- Decoding the bytes of a built module recovers it, if the decoder also accepts the data count in
front of the globals, all surrogates in names are paired, only the first table has elements, and
exported globals carry their position as their index. -/
theorem decode_encode_recovers {calls : List Call} {m : Module} {fuel : Nat} {bytes : List Byte}
    (hbuild : Module.build calls = .ok m) (hnames : m.NamesPaired) (hfirst : m.OnlyFirstTable)
    (hexports : m.ExportsIndexed) (hencode : m.encode fuel true = some bytes) :
    ∃ d, decode [standardOrder, earlyDataCountOrder] bytes = some d ∧ Recovers m d := by
  obtain ⟨parts, hparts, _⟩ := map_eq_some_iff.1 hencode
  rw [decode_encode hencode]
  have hshaped := run_invariant step_wellShaped ⟨by simp, by simp⟩ hbuild
  exact decodeSections_recovers (build_bookkeeping hbuild) hshaped hnames hfirst hexports
    (serialize_sections hparts).2

/-- A module with an imported and a defined function, a table with two stretches of elements, a data
segment in a memory, an exported function and names, one with a pair of surrogates. -/
def sampleCalls : List Call :=
  [.addFunctionType [.i32] [.i32] none, .addStructType "S" [⟨.value .i64, true⟩] none,
    .importFunction (.ofString "env") (.ofString "f") 0 (some (.ofString "f")),
    .addFunction 0 (some [0xD83D, 0xDE00]), .addLocal 1 .i64,
    .emitBody 1 ⟨.plain 0x20, [.unsigned 0], rfl⟩, .emitBody 1 ⟨.plain 0x0B, [], rfl⟩,
    .addTable 4 none, .setElement 0 1 0, .setElement 0 3 1, .addMemory 16 (some 32),
    .addDataSegment (some [1, 2, 3]) (some 0) (some 8), .exportFunction (.ofString "g") 1,
    .setStartFunction (some 0)]

theorem sample_recovers :
    ∃ m bytes, Module.build sampleCalls = .ok m ∧ m.encode 1 true = some bytes ∧
      ∃ d, decode [standardOrder, earlyDataCountOrder] bytes = some d ∧ Recovers m d := by
  obtain ⟨m, hbuild, htables, himports, hexports, hfunctions, hencode⟩ :
      ∃ m, build sampleCalls = .ok m ∧ m.tables = [⟨0, 4, none, [none, some 0, none, some 1]⟩] ∧
        m.imports = [⟨.ofString "env", .ofString "f", .function 0⟩] ∧
        m.exports = [.function (.ofString "g") 1] ∧
        m.functionNames = [(0, DartString.ofString "f"), (1, [0xD83D, 0xDE00])] ∧
        (m.encode 1 true).isSome = true :=
    ⟨_, rfl, rfl, rfl, rfl, rfl, rfl⟩
  obtain ⟨bytes, hbytes⟩ := isSome_iff_exists.1 hencode
  refine ⟨m, bytes, hbuild, hbytes, decode_encode_recovers hbuild ⟨?_, ?_, ?_⟩ ?_ ?_ hbytes⟩
  · rw [himports]
    decide
  · rw [hexports]
    decide
  · rw [hfunctions]
    decide
  · intro t table ht hne
    rw [htables] at ht
    cases t with
    | zero => exact (hne rfl).elim
    | succ t => simp at ht
  · intro name g hg
    rw [hexports] at hg
    simp at hg

/-- A global whose initializer refers to a data segment puts the data count in front of the
globals. -/
def earlyDataCountCalls : List Call :=
  [.addArrayType "A" (some ⟨.packed .i8, true⟩) none, .addDataSegment (some [1]) none none,
    .addGlobal ⟨.ref (.defined 0) false, false⟩,
    .emitInitializer 0 ⟨.plain 0x41, [.signed 0], rfl⟩,
    .emitInitializer 0 ⟨.plain 0x41, [.signed 1], rfl⟩,
    .emitInitializer 0 ⟨.gc 0x1D, [.unsigned 0, .unsigned 0], rfl⟩,
    .emitInitializer 0 ⟨.plain 0x0B, [], rfl⟩]

def secondTableCalls : List Call :=
  [.addFunctionType [] [] none, .importFunction (.ofString "env") (.ofString "f") 0 none,
    .addTable 1 none, .addTable 1 none, .setElement 1 0 0]

/-- An exported function whose name is a surrogate without a partner. -/
def unpairedNameCalls : List Call :=
  [.addFunctionType [] [] none, .importFunction (.ofString "env") (.ofString "f") 0 none,
    .exportFunction [0xD800] 0]

/-- A decoder that insists on the standard order rejects the first module, no decoder can read the
element of the second table of the second one, and the name of the export of the third one is read
back as U+FFFD. -/
theorem decode_encode_fails :
    (∃ m bytes, Module.build earlyDataCountCalls = .ok m ∧ m.encode 1 true = some bytes ∧
      decode [standardOrder] bytes = none) ∧
    (∃ m bytes, Module.build secondTableCalls = .ok m ∧ m.encode 1 true = some bytes ∧
      decode [standardOrder] bytes = none ∧
      decode [standardOrder, earlyDataCountOrder] bytes = none) ∧
    (∃ m bytes, Module.build unpairedNameCalls = .ok m ∧ m.encode 1 true = some bytes ∧
      m.exports = [.function [0xD800] 0] ∧
      (decode [standardOrder] bytes).map DecodedModule.exports = some [.function [0xFFFD] 0]) := by
  refine ⟨⟨_, _, rfl, rfl, ?_⟩, ⟨_, _, rfl, rfl, ?_, ?_⟩, ⟨_, _, rfl, rfl, rfl, ?_⟩⟩
  · decide +kernel
  · decide +kernel
  · decide +kernel
  · decide +kernel

end Dart2Wasm.WasmBuilder
