import Dart2Wasm.CoreLibrary.Utf8Conversion

/-!
# Utf8Sinks — streaming agrees with one-shot decoding

After any slices the sink has delivered the text of the run on all bytes so far. Closing it delivers
the rest, so the whole text is the one of a one-shot conversion.

The sink into a chunked sink does not look for an unfinished character when the last slice comes
with text: it passes the text on as the last one and returns. The theorem says that this is the only
way to lose something.
-/

namespace Dart2Wasm.Utf8

open List

variable {d : Decoder} {text out cs : List Nat} {r : Converted}

/-! ## Sinks -/

/-- The sink after the bytes so far. -/
structure SinkFollows (allowMalformed : Bool) (bytes : List Nat) (s : Sink) : Prop where
  notThrown : s.thrown = none
  notClosed : s.closed = 0
  follows : ∃ t out, Follows allowMalformed bytes s.decoder t out ∧ s.text = utf16 out

/-- The sink has delivered what a one-shot conversion returns, or has thrown as it does. -/
def Delivers (s : Sink) (r : Converted) : Prop :=
  match r with
  | .ok text => s.thrown = none ∧ s.text = text ∧ s.closed = 1
  | .error _ => s.thrown.isSome = true

def decodedAll (allowMalformed : Bool) (bytes : List Nat) : Option Config × List Nat :=
  decoded allowMalformed (.start, 0) (skipBomSingle bytes)

variable {s : Sink}

theorem close_of_ok (h : flush s.decoder = (d, .ok text)) :
    s.close = { s with decoder := d, text := s.text ++ text, closed := s.closed + 1 } := by
  rw [Sink.close, h]

variable {allowMalformed : Bool} {bytes : List Nat}

/-- Closing a sink delivers the whole text, or throws. -/
theorem close_delivers (h : SinkFollows allowMalformed bytes s)
    (hr : Answers (whole allowMalformed (decodedAll allowMalformed bytes)) r) :
    Delivers s.close r := by
  obtain ⟨t, out, hfollows, htext⟩ := h.follows
  have hall : decodedAll allowMalformed bytes = (some t, out) := hfollows.decoded
  rw [hall] at hr
  have hstate : s.decoder.state ≤ AB ↔ t.1 = .start := by
    rw [hfollows.agrees.1, code_le_AB]
  have hmalformed := hfollows.malformed
  have hclosed : s.closed + 1 = 1 := by rw [h.notClosed]
  by_cases hstart : t.1 = .start
  · have hwhole : whole allowMalformed (some t, out) = some out := if_pos hstart
    rw [hwhole] at hr
    obtain rfl : r = .ok (utf16 out) := hr
    have hflush : flush s.decoder = ({ s.decoder with state := IA }, .ok []) :=
      if_pos (hstate.2 hstart)
    rw [close_of_ok hflush]
    exact ⟨h.notThrown, by rw [← htext]; exact append_nil _, hclosed⟩
  have hnot : ¬ s.decoder.state ≤ AB := fun hle => hstart (hstate.1 hle)
  cases allowMalformed with
  | true =>
    have hwhole : whole true (some t, out) = some (out ++ [replacement]) := if_neg hstart
    rw [hwhole] at hr
    obtain rfl : r = .ok (utf16 (out ++ [replacement])) := hr
    have hflush : flush s.decoder = ({ s.decoder with state := IA }, .ok [replacement]) :=
      (if_neg hnot).trans (if_pos hmalformed)
    rw [close_of_ok hflush]
    refine ⟨h.notThrown, ?_, hclosed⟩
    rw [utf16_append, ← htext]
    rfl
  | false =>
    have hwhole : whole false (some t, out) = none := if_neg hstart
    rw [hwhole] at hr
    obtain ⟨e, rfl⟩ := hr
    have hflush : flush s.decoder =
        ({ s.decoder with state := IA }, .error ⟨errorDescription E7, none⟩) :=
      (if_neg hnot).trans (if_neg (by rw [hmalformed]; decide))
    rw [Sink.close, hflush]
    rfl

/-- The text of a slice reaches the sink, before the sink is closed. -/
theorem addText_follows
    {t : Config} {more : List Nat} (hthrown : s.thrown = none) (hclosed : s.closed = 0)
    (htext : s.text = utf16 out) (h : Follows allowMalformed bytes d t (out ++ more)) :
    SinkFollows allowMalformed bytes { s with decoder := d, text := s.text ++ utf16 more } where
  notThrown := hthrown
  notClosed := hclosed
  follows := ⟨t, out ++ more, h, by rw [htext, utf16_append]⟩

theorem addSlice_ok {cls : SinkClass} {slice : List Nat}
    (h : convertChunked s.decoder slice = some (d, .ok text)) (isLast : Bool) :
    s.addSlice cls slice isLast =
      match cls with
      | .stringSinkAdapter =>
        some (if isLast then Sink.close { s with decoder := d, text := s.text ++ text }
          else { s with decoder := d, text := s.text ++ text })
      | .conversionSink =>
        if text ≠ [] then
          some { s with
            decoder := d
            text := s.text ++ text
            closed := if isLast then s.closed + 1 else s.closed }
        else
          some (if isLast then Sink.close { s with decoder := d, text := s.text ++ text }
            else { s with decoder := d, text := s.text ++ text }) := by
  rw [Sink.addSlice, h]
  rfl

/-- Before the last slice both sinks only collect text. -/
theorem addSlice_follows {bytes slice : List Nat}
    (h : SinkFollows allowMalformed bytes s) (hslice : ∀ b ∈ slice, b < 256) (cls : SinkClass) :
    ∃ s', s.addSlice cls slice false = some s' ∧
      (SinkFollows allowMalformed (bytes ++ slice) s' ∨
        s'.thrown.isSome = true ∧ (decodedAll allowMalformed (bytes ++ slice)).1 = none) := by
  obtain ⟨t, out, hfollows, htext⟩ := h.follows
  rcases convertChunked_follows hfollows hslice with
    ⟨d, t', more, hconvert, hnext⟩ | ⟨d, e, hconvert, hnone⟩
  · refine ⟨{ s with decoder := d, text := s.text ++ utf16 more }, ?_,
      Or.inl (addText_follows h.notThrown h.notClosed htext hnext)⟩
    rw [addSlice_ok hconvert]
    cases cls with
    | stringSinkAdapter => rfl
    | conversionSink => by_cases hne : utf16 more = [] <;> simp [hne]
  · refine ⟨{ s with decoder := d, thrown := some e }, ?_, Or.inr ⟨rfl, hnone⟩⟩
    rw [Sink.addSlice, hconvert]
    rfl

/-! ## The end of the input -/

/--
The last slice comes with text but leaves a character unfinished, in a sink that passes the text
on. -/
def CutShort (allowMalformed : Bool) (cls : SinkClass) (slices : List (List Nat))
    (ending : Ending) : Prop :=
  cls = .conversionSink ∧ ∃ last, ending = .lastSlice last ∧
    (∃ t, (decodedAll allowMalformed (slices.flatten ++ last)).1 = some t ∧ t.1 ≠ .start) ∧
    (decodedAll allowMalformed slices.flatten).2 ≠
      (decodedAll allowMalformed (slices.flatten ++ last)).2

theorem utf16_eq_nil (h : utf16 cs = []) : cs = [] := by
  cases cs with
  | nil => rfl
  | cons c cs =>
    rw [utf16_cons, charCode] at h
    split at h <;> cases h

theorem whole_of_none {r : Option Config × List Nat} (h : r.1 = none) :
    whole allowMalformed r = none := by
  rw [whole, h]
  rfl

/-- Text without the end of an unfinished character is not the whole text. -/
theorem not_delivers_unfinished {t : Config} (hne : t.1 ≠ .start)
    (hr : Answers (whole allowMalformed (some t, out)) r)
    (hthrown : s.thrown = none) (htext : s.text = utf16 out) : ¬ Delivers s r := by
  intro hdelivers
  cases allowMalformed with
  | true =>
    have hwhole : whole true (some t, out) = some (out ++ [replacement]) := if_neg hne
    rw [hwhole] at hr
    obtain rfl : r = .ok (utf16 (out ++ [replacement])) := hr
    have hsame := hdelivers.2.1
    rw [htext, utf16_append] at hsame
    exact absurd (self_eq_append_right.1 hsame) (by decide)
  | false =>
    have hwhole : whole false (some t, out) = none := if_neg hne
    rw [hwhole] at hr
    obtain ⟨e, rfl⟩ := hr
    rw [Delivers, hthrown] at hdelivers
    cases hdelivers

/-- The end of the input from a sink that has followed all slices. -/
theorem end_delivers {slices : List (List Nat)} (h : SinkFollows allowMalformed slices.flatten s)
    (cls : SinkClass) {ending : Ending} (hbytes : ∀ b ∈ ending.bytes, b < 256) (hr : Answers
      (whole allowMalformed (decodedAll allowMalformed (slices.flatten ++ ending.bytes))) r) :
    ∃ s', runSink cls ending [] s = some s' ∧
      (Delivers s' r ↔ ¬ CutShort allowMalformed cls slices ending) := by
  cases ending with
  | close =>
    rw [Ending.bytes, append_nil] at hr
    refine ⟨s.close, rfl, fun _ hcut => ?_, fun _ => close_delivers h hr⟩
    obtain ⟨-, last, hlast, -⟩ := hcut
    cases hlast
  | lastSlice last =>
    obtain ⟨t, out, hfollows, htext⟩ := h.follows
    have hbefore : decodedAll allowMalformed slices.flatten = (some t, out) := hfollows.decoded
    have hrun : runSink cls (.lastSlice last) [] s = s.addSlice cls last true := rfl
    have hlastBytes : ∀ b ∈ last, b < 256 := hbytes
    have hr' : Answers
      (whole allowMalformed (decodedAll allowMalformed (slices.flatten ++ last))) r := hr
    rw [hrun]
    rcases convertChunked_follows hfollows hlastBytes with
      ⟨d, t', more, hconvert, hnext⟩ | ⟨d, e, hconvert, hnone⟩
    · have hall : decodedAll allowMalformed (slices.flatten ++ last) = (some t', out ++ more) :=
        hnext.decoded
      have hsink := addText_follows h.notThrown h.notClosed htext hnext
      have hclose := close_delivers hsink hr
      rw [addSlice_ok hconvert]
      cases cls with
      | stringSinkAdapter =>
        exact ⟨_, rfl, fun _ hcut => (nomatch hcut.1), fun _ => hclose⟩
      | conversionSink =>
        by_cases hmore : more = []
        · subst hmore
          refine ⟨_, if_neg (fun hne => hne rfl), fun _ hcut => ?_, fun _ => hclose⟩
          obtain ⟨-, last', hlast, -, hdiffer⟩ := hcut
          cases hlast
          rw [hbefore, hall, append_nil] at hdiffer
          exact hdiffer rfl
        · -- the text is passed on as the last one, and `flush` is not called
          refine ⟨_, if_pos (fun hnil => hmore (utf16_eq_nil hnil)), ?_⟩
          rw [hall] at hr'
          have hcut : CutShort allowMalformed .conversionSink slices (.lastSlice last) ↔
              t'.1 ≠ .start := by
            refine ⟨?_, fun hne => ⟨rfl, last, rfl, ⟨t', by rw [hall], hne⟩, ?_⟩⟩
            · rintro ⟨-, last', hlast, ⟨u, hu, hne⟩, -⟩
              cases hlast
              rw [hall] at hu
              cases hu
              exact hne
            · rw [hbefore, hall]
              simpa using Ne.symm hmore
          rw [hcut, not_not]
          refine ⟨fun hdelivers => ?_, fun hstart => ?_⟩
          · by_contra hne
            refine not_delivers_unfinished hne hr' ?_ ?_ hdelivers
            · exact h.notThrown
            · rw [htext, utf16_append]
          · have hwhole : whole allowMalformed (some t', out ++ more) = some (out ++ more) :=
              if_pos hstart
            rw [hwhole] at hr'
            obtain rfl : r = .ok (utf16 (out ++ more)) := hr'
            have hclosed : s.closed + 1 = 1 := by rw [h.notClosed]
            exact ⟨h.notThrown, by rw [htext, utf16_append], hclosed⟩
    · refine ⟨{ s with decoder := d, thrown := some e }, ?_, fun _ hcut => ?_, fun _ => ?_⟩
      · rw [Sink.addSlice, hconvert]
        rfl
      · obtain ⟨-, last', hlast, ⟨u, hu, -⟩, -⟩ := hcut
        cases hlast
        rw [decodedAll, hnone] at hu
        cases hu
      · rw [decodedAll, whole_of_none hnone] at hr'
        obtain ⟨e', rfl⟩ := hr'
        rfl

/-- An error is not undone by more bytes. -/
theorem decodedAll_none_append (h : (decodedAll allowMalformed bytes).1 = none) (more : List Nat) :
    (decodedAll allowMalformed (bytes ++ more)).1 = none := by
  cases allowMalformed with
  | true => cases h
  | false =>
    have hindex : bomIndexOf bytes = -1 := by
      rcases bomIndexOf_cases bytes with ⟨-, rfl⟩ | ⟨-, rfl⟩ | ⟨-, rfl⟩ | hc
      · cases h
      · cases h
      · cases h
      · exact hc
    have hrun : (run (.start, 0) (skipBomSingle bytes)).1 = none := h
    change (run (.start, 0) (skipBomSingle (bytes ++ more))).1 = none
    rw [skipBomSingle_append hindex, run_append, hrun]

/-- The sink after the slices that come. -/
theorem runSink_delivers {seen slices : List (List Nat)}
    (h : SinkFollows allowMalformed seen.flatten s) (cls : SinkClass) {ending : Ending}
    (hslices : ∀ slice ∈ slices, ∀ b ∈ slice, b < 256) (hbytes : ∀ b ∈ ending.bytes, b < 256)
    (hr : Answers (whole allowMalformed
      (decodedAll allowMalformed ((seen ++ slices).flatten ++ ending.bytes))) r) :
    ∃ s', runSink cls ending slices s = some s' ∧
      (Delivers s' r ↔ ¬ CutShort allowMalformed cls (seen ++ slices) ending) := by
  induction slices generalizing seen s with
  | nil =>
    rw [append_nil] at hr ⊢
    exact end_delivers h cls hbytes hr
  | cons slice slices ih =>
    have hslice : ∀ b ∈ slice, b < 256 := hslices slice (by simp)
    obtain ⟨s', hadd, hnext⟩ := addSlice_follows h hslice cls
    have hseen : (seen ++ [slice]).flatten = seen.flatten ++ slice := by simp
    have hlist : seen ++ slice :: slices = (seen ++ [slice]) ++ slices := by simp
    rcases hnext with hfollows | ⟨hthrown, hnone⟩
    · rw [hlist] at hr ⊢
      obtain ⟨s'', hrun, hdelivers⟩ := ih (hseen ▸ hfollows)
        (fun l hl => hslices l (by simp [hl])) hr
      refine ⟨s'', ?_, hdelivers⟩
      rw [runSink, hadd, Lib.some_bind, if_neg]
      · exact hrun
      · rw [hfollows.notThrown]
        decide
    · have hall : ∀ more,
          (decodedAll allowMalformed ((seen ++ slice :: slices).flatten ++ more)).1 =
          none := by
        intro more
        have happend : (seen ++ slice :: slices).flatten ++ more =
            (seen.flatten ++ slice) ++ (slices.flatten ++ more) := by simp
        rw [happend]
        exact decodedAll_none_append hnone _
      refine ⟨s', ?_, fun _ hcut => ?_, fun _ => ?_⟩
      · rw [runSink, hadd, Lib.some_bind, if_pos hthrown]
      · obtain ⟨-, last, -, ⟨u, hu, -⟩, -⟩ := hcut
        rw [hall last] at hu
        cases hu
      · rw [whole_of_none (hall _)] at hr
        obtain ⟨e, rfl⟩ := hr
        exact hthrown

/-! ## What is accepted -/

/-- The characters without one leading byte order mark. -/
def dropBom : List Nat → List Nat
  | 0xFEFF :: cs => cs
  | cs => cs

theorem encode_bom : encode 0xFEFF = [0xEF, 0xBB, 0xBF] := rfl

theorem bom_of_encodes {rest : List Nat} (h : Encodes cs (0xEF :: 0xBB :: 0xBF :: rest)) :
    ∃ cs', cs = 0xFEFF :: cs' := by
  obtain ⟨hscalar, hbytes⟩ := h
  obtain ⟨y, hrun⟩ := run_encodes hscalar 0
  have hbom := run_encode (c := 0xFEFF) (by decide) 0 rest
  rw [← hbytes] at hrun
  have hcs : cs = 0xFEFF :: _ := (congrArg Prod.snd hrun).symm.trans (congrArg Prod.snd hbom)
  exact ⟨_, hcs⟩

theorem dropBom_of_ne (h : ∀ cs', cs ≠ 0xFEFF :: cs') : dropBom cs = cs := by
  unfold dropBom
  split
  · exact absurd rfl (h _)
  · rfl

/-- The text without the mark is the text of the bytes without it. -/
theorem encodes_skipBom (bytes cs : List Nat) :
    Encodes cs (skipBomSingle bytes) ↔ ∃ cs', Encodes cs' bytes ∧ cs = dropBom cs' := by
  by_cases hbom : ∃ rest, bytes = 0xEF :: 0xBB :: 0xBF :: rest
  · obtain ⟨rest, rfl⟩ := hbom
    have hskip : skipBomSingle (0xEF :: 0xBB :: 0xBF :: rest) = rest := rfl
    constructor
    · rintro ⟨hscalar, rfl⟩
      refine ⟨0xFEFF :: cs, ⟨fun c hc => ?_, by rw [flatMap_cons, encode_bom]; rfl⟩, rfl⟩
      rcases mem_cons.1 hc with rfl | hc
      · decide
      · exact hscalar c hc
    · rintro ⟨cs', h, rfl⟩
      obtain ⟨cs'', rfl⟩ := bom_of_encodes h
      obtain ⟨hscalar, hbytes⟩ := h
      rw [flatMap_cons, encode_bom] at hbytes
      simp only [cons_append, nil_append, cons.injEq, true_and] at hbytes
      exact ⟨fun c hc => hscalar c (mem_cons_of_mem _ hc), hbytes⟩
  · have hne : ∀ rest, bytes ≠ 0xEF :: 0xBB :: 0xBF :: rest := fun rest hrest => hbom ⟨rest, hrest⟩
    have hnot : ∀ {cs}, Encodes cs bytes → ∀ cs', cs ≠ 0xFEFF :: cs' := by
      rintro cs ⟨-, hbytes⟩ cs' rfl
      exact hne _ hbytes
    rw [skipBomSingle_of_ne hne]
    constructor
    · exact fun h => ⟨cs, h, (dropBom_of_ne (hnot h)).symm⟩
    · rintro ⟨cs', h, rfl⟩
      rw [dropBom_of_ne (hnot h)]
      exact h

/-- Strict decoding succeeds exactly on well-formed bytes. -/
theorem whole_strict (hbytes : ∀ b ∈ bytes, b < 256) (cs : List Nat) :
    whole false (decodedAll false bytes) = some cs ↔
      ∃ cs', Encodes cs' bytes ∧ cs = dropBom cs' := by
  have hrest : ∀ b ∈ skipBomSingle bytes, b < 256 := fun b hb => hbytes b (skipBomSingle_sub b hb)
  rw [← encodes_skipBom, ← run_wellFormed hrest]
  change whole false (run (.start, 0) (skipBomSingle bytes)) = _ ↔ _
  generalize run (.start, 0) (skipBomSingle bytes) = r
  obtain ⟨_ | ⟨p, y⟩, out⟩ := r
  · simp [whole]
  · by_cases hp : p = .start <;> simp [whole, hp]

/-! ## Streaming -/

/-- Streaming decodes as in one shot: the sink delivers the same text and is closed once, or throws
where the one-shot conversion throws. Strict decoding succeeds exactly on well-formed bytes, with
one leading byte order mark removed; otherwise ill-formed parts are replaced. -/
def Streams (allowMalformed : Bool) (cls : SinkClass) (slices : List (List Nat)) (ending : Ending) :
    Prop :=
  ∃ s d r,
    runSink cls ending slices { decoder := fresh allowMalformed } = some s ∧
    convertSingle (fresh allowMalformed) (slices.flatten ++ ending.bytes) = some (d, r) ∧
    Delivers s r ∧
    (allowMalformed = false → ∀ text, r = .ok text ↔
      ∃ cs, Encodes cs (slices.flatten ++ ending.bytes) ∧ text = utf16 (dropBom cs)) ∧
    (allowMalformed = true →
      ∃ cs, Mends (skipBomSingle (slices.flatten ++ ending.bytes)) cs ∧ r = .ok (utf16 cs))

/-- Slices and an ending, of bytes. -/
def sliceOf (bytes : List UInt8) : List Nat := bytes.map UInt8.toNat

def endingOf : Option (List UInt8) → Ending
  | none => .close
  | some last => .lastSlice (sliceOf last)

theorem sliceOf_lt {bytes : List UInt8} : ∀ b ∈ sliceOf bytes, b < 256 := by
  intro b hb
  obtain ⟨x, -, rfl⟩ := mem_map.1 hb
  exact x.toNat_lt

theorem streams_iff (allowMalformed : Bool) (cls : SinkClass) (slices : List (List UInt8))
    (last : Option (List UInt8)) :
    Streams allowMalformed cls (slices.map sliceOf) (endingOf last) ↔
      ¬ CutShort allowMalformed cls (slices.map sliceOf) (endingOf last) := by
  have hslices : ∀ slice ∈ slices.map sliceOf, ∀ b ∈ slice, b < 256 := by
    intro slice hslice
    obtain ⟨bytes, -, rfl⟩ := mem_map.1 hslice
    exact sliceOf_lt
  have hlast : ∀ b ∈ (endingOf last).bytes, b < 256 := by
    cases last with
    | none => nofun
    | some last => exact sliceOf_lt
  generalize slices.map sliceOf = slices at *
  generalize endingOf last = ending at *
  have hbytes : ∀ b ∈ slices.flatten ++ ending.bytes, b < 256 := by
    intro b hb
    rcases mem_append.1 hb with hb | hb
    · obtain ⟨slice, hslice, hb⟩ := mem_flatten.1 hb
      exact hslices slice hslice b hb
    · exact hlast b hb
  obtain ⟨d, r, hsingle, hr⟩ := convertSingle_spec allowMalformed hbytes
  have hinit : SinkFollows allowMalformed ([] : List (List Nat)).flatten
      { decoder := fresh allowMalformed } :=
    ⟨rfl, rfl, (.start, 0), [], follows_fresh allowMalformed, rfl⟩
  obtain ⟨s, hrun, hdelivers⟩ := runSink_delivers hinit cls hslices hlast hr
  have hstrict : allowMalformed = false → ∀ text, r = .ok text ↔
      ∃ cs, Encodes cs (slices.flatten ++ ending.bytes) ∧ text = utf16 (dropBom cs) := by
    rintro rfl text
    have hwhole := whole_strict hbytes
    rw [decodedAll] at hwhole
    cases hcs : whole false (decoded false (.start, 0)
        (skipBomSingle (slices.flatten ++ ending.bytes))) with
    | none =>
      rw [hcs] at hr hwhole
      obtain ⟨e, rfl⟩ := hr
      refine ⟨nofun, ?_⟩
      rintro ⟨cs, hencodes, -⟩
      exact nomatch (hwhole (dropBom cs)).2 ⟨cs, hencodes, rfl⟩
    | some cs =>
      rw [hcs] at hr hwhole
      obtain rfl : r = .ok (utf16 cs) := hr
      constructor
      · intro hok
        obtain ⟨cs', hencodes, rfl⟩ := (hwhole cs).1 rfl
        exact ⟨cs', hencodes, (Except.ok.inj hok).symm⟩
      · rintro ⟨cs', hencodes, rfl⟩
        have hsame := Option.some.inj ((hwhole (dropBom cs')).2 ⟨cs', hencodes, rfl⟩)
        rw [hsame]
  have hmalformed : allowMalformed = true →
      ∃ cs, Mends (skipBomSingle (slices.flatten ++ ending.bytes)) cs ∧ r = .ok (utf16 cs) := by
    rintro rfl
    -- with replacements decoding always succeeds
    refine ⟨_, mends_replaceRun fun b hb => hbytes b (skipBomSingle_sub b hb), ?_⟩
    have hwhole := whole_of_replaceRun (skipBomSingle (slices.flatten ++ ending.bytes))
    rwa [hwhole] at hr
  constructor
  · rintro ⟨s', d', r', hrun', hsingle', hd, -⟩
    rw [hrun] at hrun'
    rw [hsingle] at hsingle'
    cases hrun'
    cases hsingle'
    exact hdelivers.1 hd
  · exact fun hcut => ⟨s, d, r, hrun, hsingle, hdelivers.2 hcut, hstrict, hmalformed⟩

/-- A last slice with a letter and the first byte of another one: the exception is lost. -/
theorem streams_cutShort :
    runSink .conversionSink (.lastSlice [0x41, 0xC3]) [] { decoder := fresh false } =
        some { decoder := { allowMalformed := false, state := X1, charOrIndex := 3, bomIndex := -1 }
               text := [0x41]
               closed := 1 } ∧
      convertSingle (fresh false) [0x41, 0xC3] =
        some ({ allowMalformed := false, state := E7, charOrIndex := 2 },
          .error ⟨"Unfinished UTF-8 octet sequence", some 2⟩) ∧
      ¬ Streams false .conversionSink [] (.lastSlice [0x41, 0xC3]) := by
  have hrun : runSink .conversionSink (.lastSlice [0x41, 0xC3]) [] { decoder := fresh false } =
      some { decoder := { allowMalformed := false, state := X1, charOrIndex := 3, bomIndex := -1 }
             text := [0x41]
             closed := 1 } := rfl
  have hsingle : convertSingle (fresh false) [0x41, 0xC3] =
      some ({ allowMalformed := false, state := E7, charOrIndex := 2 },
        .error ⟨"Unfinished UTF-8 octet sequence", some 2⟩) := rfl
  refine ⟨hrun, hsingle, ?_⟩
  rintro ⟨s, d, r, hs, hr, hdelivers, -⟩
  obtain rfl := Option.some.inj (hrun.symm.trans hs)
  obtain ⟨-, rfl⟩ := Prod.mk.inj (Option.some.inj (hsingle.symm.trans hr))
  cases hdelivers

end Dart2Wasm.Utf8
