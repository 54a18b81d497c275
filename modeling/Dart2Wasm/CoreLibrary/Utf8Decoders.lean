import Dart2Wasm.Lib.Run
import Dart2Wasm.CoreLibrary.Utf8Text

/-!
# Utf8Decoders — the three decoders run the automaton

`decode8`, `decode16` and `decodeGeneral` compute a run of the automaton, with or without
replacements, in code units. The first two write into a string of a size that is computed
beforehand from the bytes, from the character that was carried over and from an unfinished one at
the end. The size is never too small, and it is exact unless there is an error: `room`.
-/

namespace Dart2Wasm.Utf8

open List Nat Phase

variable {c room char size x : Nat} {rest buffer : List Nat} {d : Decoder} {t s' : Config}
variable {bytes : List Nat}

/-! ## Writing -/

/-- The code units of characters. -/
def utf16 (cs : List Nat) : List Nat := cs.flatMap charCode

@[simp]
theorem utf16_nil : utf16 [] = [] := rfl

@[simp]
theorem utf16_cons (c : Nat) (cs : List Nat) : utf16 (c :: cs) = charCode c ++ utf16 cs := rfl

@[simp]
theorem utf16_append (cs cs' : List Nat) : utf16 (cs ++ cs') = utf16 cs ++ utf16 cs' :=
  flatMap_append

theorem charCode_small (h : c < 0x10000) : charCode c = [c] :=
  if_neg (by omega)

/-- The text so far, and the room that is left in the string. -/
def filled (out : List Nat) (room : Nat) : List Nat := out ++ List.replicate room 0

theorem writeInto_filled (out : List Nat) (room value : Nat) :
    writeInto (filled out (room + 1)) out.length value = some (filled (out ++ [value]) room) := by
  have hlength : out.length < (filled out (room + 1)).length := by
    simp [filled]
  rw [writeInto, if_pos hlength, filled, filled, set_append_right _ _ (Nat.le_refl _),
    Nat.sub_self, replicate_succ, set_cons_zero]
  simp

/-- The two ways to compute surrogates agree. -/
theorem charCode_large (h : 0x10000 ≤ c) :
    charCode c = [0xD7C0 + (c >>> 10), 0xDC00 + (c &&& 0x3FF)] := by
  have hmask : ∀ n : Nat, n &&& 0x3FF = n % 1024 := fun n => and_two_pow_sub_one_eq_mod n 10
  rw [charCode, if_pos (by omega)]
  simp only [hmask, shiftRight_eq_div_pow, cons.injEq, and_true]
  omega

theorem write16_filled (out : List Nat) (h : (charCode c).length ≤ room) :
    write16 (filled out room) out.length c =
      some (filled (out ++ charCode c) (room - (charCode c).length),
        out.length + (charCode c).length) := by
  by_cases hc : c ≥ 0x10000
  · rw [charCode_large hc] at h ⊢
    obtain ⟨r, rfl⟩ : ∃ r, room = r + 1 + 1 := ⟨room - 2, by simp at h; omega⟩
    have hnext : out.length + 1 = (out ++ [0xD7C0 + (c >>> 10)]).length := by simp
    rw [write16, if_pos hc, writeInto_filled, Lib.some_bind, hnext, writeInto_filled]
    simp
  · rw [charCode_small (by omega)] at h ⊢
    obtain ⟨r, rfl⟩ : ∃ r, room = r + 1 := ⟨room - 1, by simp at h; omega⟩
    rw [write16, if_neg hc, writeInto_filled]
    simp

theorem writes16Char_eq (c j : Nat) : writes16Char c j = (charCode c).zipIdx j := by
  rw [writes16Char]
  split_ifs with hc
  · rw [charCode_large hc]
    rfl
  · rw [charCode_small (by omega)]
    rfl

def doWrites (writes : List (Nat × Nat)) (result : List Nat) : Option (List Nat) :=
  writes.foldlM (fun result w => writeInto result w.2 w.1) result

theorem doWrites_filled (values out : List Nat) (h : values.length ≤ room) :
    doWrites (values.zipIdx out.length) (filled out room) =
      some (filled (out ++ values) (room - values.length)) := by
  induction values generalizing out room with
  | nil => simp [doWrites]
  | cons value values ih =>
    obtain ⟨r, rfl⟩ : ∃ r, room = r + 1 := ⟨room - 1, by simp at h; omega⟩
    have hrest := ih (out ++ [value]) (by simpa using h)
    rw [doWrites] at hrest ⊢
    rw [zipIdx_cons, foldlM_cons, writeInto_filled, Lib.some_bind]
    simpa using hrest

/-! ## Results of a decoder -/

/-- The decoder is in a configuration. -/
def Agrees (d : Decoder) (s : Config) : Prop :=
  d.state = s.1.code ∧ (s.1 ≠ .start → d.charOrIndex = s.2)

/-- The fields that decoding does not change. -/
def SameInput (d d' : Decoder) : Prop :=
  d'.allowMalformed = d.allowMalformed ∧ d'.bomIndex = d.bomIndex

/-- A decoder returns the text of a run, or an error state. -/
def Returns (d : Decoder) (r : Option Config) (text : List Nat) (o : Option (Decoder × List Nat)) :
    Prop :=
  match r with
  | some s => ∃ d', o = some (d', text) ∧ Agrees d' s ∧ SameInput d d'
  | none => ∃ d', o = some (d', []) ∧ isErrorState d'.state = true ∧ SameInput d d'

variable {b : Nat} {p : Phase}

/-- The value bits of a first byte, as the decoders compute them. -/
theorem lead_char (hb : b < 256) (h : Phase.start.step b = .ok p) :
    b &&& (0xF0FE >>> typeOf b) = leadValue b :=
  lead_eq b hb (start_step hb h).1

variable {s : Config}

theorem ext_char (hs : s.1 ≠ .start) (hfits : Fits s)
    (h : s.1.step b = .ok p) : (b &&& 0x3F) ||| (s.2 <<< 6) = extendChar s b := by
  rw [extend_eq _ (ext_step hs hfits h).1, extendChar, if_neg hs]

theorem run_of_error {e : Nat} (h : s.1.step b = .error e) (rest : List Nat) :
    run s (b :: rest) = (none, []) := by
  rw [run, h]

theorem code_ne_IA (hp : p ≠ .start) : p.code ≠ IA :=
  fun h => hp (code_eq_IA.1 h)

/-! ## `decode16` -/

theorem decode16Loop_error (d : Decoder) {e : Nat} (he : isErrorState e = true ∧ e ≠ IA)
    (rest : List Nat) (char i j : Nat) (result : List Nat) :
    (∃ d', decode16Loop d rest e char i j result = some (d', []) ∧ isErrorState d'.state = true ∧
      SameInput d d') ∧ writes16Loop rest e char j = [] := by
  constructor
  · refine ⟨{ d with state := e, charOrIndex := i - 1 }, ?_, he.1, rfl, rfl⟩
    cases rest <;> rw [decode16Loop, if_neg he.2, if_pos he.1]
  · cases rest with
    | nil => rw [writes16Loop, if_neg he.2]
    | cons b rest => rw [writes16Loop, if_neg he.2, if_pos he.1]

/-- The character that is written when the next byte is read. -/
def unwritten (s : Config) : List Nat := if s.1 = .start then [s.2] else []

theorem run_unwritten (h : s.1.step b = .ok p) (rest : List Nat) :
    run s (b :: rest) = ((run (p, extendChar s b) rest).1,
      unwritten (p, extendChar s b) ++ (run (p, extendChar s b) rest).2) :=
  run_cons h rest

theorem decode16Loop_spec (d : Decoder) (hbytes : ∀ b ∈ rest, b < 256)
    (hfits : Fits (p, char)) (i : Nat) (out : List Nat)
    (hroom : (utf16 (unwritten (p, char) ++ (run (p, char) rest).2)).length ≤ room) :
    Returns d (run (p, char) rest).1
      (filled (out ++ utf16 (unwritten (p, char) ++ (run (p, char) rest).2))
        (room - (utf16 (unwritten (p, char) ++ (run (p, char) rest).2)).length))
      (decode16Loop d rest p.code char i out.length (filled out room)) ∧
    writes16Loop rest p.code char out.length =
      (utf16 (unwritten (p, char) ++ (run (p, char) rest).2)).zipIdx out.length := by
  induction rest generalizing p char i out room with
  | nil =>
    by_cases hp : p = .start
    · subst hp
      simp only [run, unwritten, if_true, utf16_nil, append_nil, utf16_cons]
        at hroom ⊢
      have hcode : start.code = IA := rfl
      refine ⟨⟨{ d with state := IA, charOrIndex := char }, ?_, ⟨rfl, fun _ => rfl⟩, rfl, rfl⟩,
        writes16Char_eq char _⟩
      rw [hcode, decode16Loop, if_pos rfl, write16_filled out hroom]
      rfl
    · have hne := code_ne_IA hp
      refine ⟨⟨{ d with state := p.code, charOrIndex := char }, ?_, ⟨rfl, fun _ => rfl⟩, rfl, rfl⟩,
        ?_⟩
      · rw [decode16Loop, if_neg hne, isErrorState_code, if_neg (by decide)]
        simp [run, unwritten, hp]
      · simp [writes16Loop, hne, run, unwritten, hp]
  | cons b rest ih =>
    obtain ⟨hb, htail⟩ := forall_mem_cons.1 hbytes
    have htrans := transition_eq p b hb
    by_cases hp : p = .start
    · subst hp
      have hcode : start.code = IA := rfl
      have hunwritten : unwritten (.start, char) = [char] := rfl
      rw [hunwritten, singleton_append, utf16_cons, length_append] at hroom
      rw [hunwritten, hcode, decode16Loop, if_pos rfl, write16_filled out (by omega),
        Lib.some_bind, writes16Loop, if_pos rfl, writes16Char_eq]
      rw [hcode] at htrans
      rw [htrans]
      cases hstep : start.step b with
      | error e =>
        obtain ⟨hloop, hwrites⟩ := decode16Loop_error d (step_error hstep) rest
          (b &&& (0xF0FE >>> typeOf b)) (i + 1) (out.length + (charCode char).length)
          (filled (out ++ charCode char) (room - (charCode char).length))
        rw [run_of_error (s := (.start, char)) hstep]
        exact ⟨hloop, by simp [codeOf, hwrites]⟩
      | ok p' =>
        have hreads := (start_step hb hstep).2.2
        rw [run_unwritten (s := (.start, char)) hstep, extendChar_start] at hroom ⊢
        have hloop := ih htail hreads.1 (i + 1) (out ++ charCode char)
          (Nat.le_sub_of_add_le' hroom)
        rw [lead_char hb hstep]
        simpa [codeOf, Nat.sub_sub, zipIdx_append] using hloop
    · rw [decode16Loop, if_neg (code_ne_IA hp), isErrorState_code, if_neg (by decide), htrans,
        writes16Loop, if_neg (code_ne_IA hp), isErrorState_code, if_neg (by decide), htrans]
      have hunwritten : unwritten (p, char) = [] := if_neg hp
      rw [hunwritten, nil_append] at hroom ⊢
      cases hstep : p.step b with
      | error e =>
        rw [run_of_error (s := (p, char)) hstep]
        exact decode16Loop_error d (step_error hstep) _ _ _ _ _
      | ok p' =>
        have hreads := step_reads (s := (p, char)) hb hfits hstep
        rw [run_unwritten (s := (p, char)) hstep] at hroom ⊢
        rw [ext_char (s := (p, char)) hp hfits hstep]
        exact ih htail hreads.1 (i + 1) out hroom

theorem decode16_spec (hagrees : Agrees d s) (hfits : Fits s) (hne : bytes ≠ [])
    (hbytes : ∀ b ∈ bytes, b < 256) (hsize : (utf16 (run s bytes).2).length ≤ size) :
    Returns d (run s bytes).1
      (filled (utf16 (run s bytes).2) (size - (utf16 (run s bytes).2).length))
      (decode16 d bytes size) ∧ writes16 d bytes = (utf16 (run s bytes).2).zipIdx := by
  obtain ⟨b, rest, rfl⟩ := exists_cons_of_ne_nil hne
  obtain ⟨p, char⟩ := s
  obtain ⟨hstate, hchar⟩ := hagrees
  obtain ⟨hb, htail⟩ := forall_mem_cons.1 hbytes
  rw [decode16, writes16, hstate, transition_eq p b hb]
  cases hstep : p.step b with
  | error e =>
    rw [run_of_error (s := (p, char)) hstep]
    exact decode16Loop_error d (step_error hstep) _ _ _ _ _
  | ok p' =>
    have hreads := step_reads (s := (p, char)) hb hfits hstep
    have hvalue : (if p.code = IA then b &&& (0xF0FE >>> typeOf b)
        else (b &&& 0x3F) ||| (d.charOrIndex <<< 6)) = extendChar (p, char) b := by
      by_cases hp : p = .start
      · subst hp
        exact (lead_char hb hstep).trans (extendChar_start char b).symm
      · rw [if_neg (code_ne_IA hp), hchar hp, ext_char (s := (p, char)) hp hfits hstep]
    rw [run_unwritten (s := (p, char)) hstep] at hsize ⊢
    rw [hvalue]
    exact decode16Loop_spec d htail hreads.1 1 [] hsize

/-! ## `decode8` -/

/-- A byte that occurs in Latin-1 text. -/
def Latin1Byte (b : Nat) : Prop := b < 0xC0 ∨ b = 0xC2 ∨ b = 0xC3

theorem latin1_char (hc : c < 4) (hx : x < 64) : ((c <<< 6) ||| x) % 256 = c * 64 + x := by
  rw [← shiftLeft_add_eq_or_of_lt (show x < 2 ^ 6 from hx), shiftLeft_eq]
  omega

theorem latin1_lead_char {b : Nat} (hb : b = 0xC2 ∨ b = 0xC3) (hx : x < 64) :
    ((b <<< 6) ||| x) % 256 = (b - 0xC0) * 64 + x := by
  rw [← shiftLeft_add_eq_or_of_lt (show x < 2 ^ 6 from hx), shiftLeft_eq]
  omega

/-- Extension bytes, as `decode8` tests for them. -/
theorem not_ext_iff (hb : b < 256) : b ^^^ 0x80 ≥ 0x40 ↔ ¬ (0x80 ≤ b ∧ b < 0xC0) :=
  (xor_eq b hb).1

theorem isErrorState_E1 : isErrorState E1 = true := by decide

theorem isErrorState_E2 : isErrorState E2 = true := by decide

theorem decode8Loop_ascii (d : Decoder) (hb : b < 0x80) (rest : List Nat) (i j : Nat)
    (result : List Nat) :
    decode8Loop d (b :: rest) i j result =
      (writeInto result j b).bind fun result => decode8Loop d rest (i + 1) (j + 1) result := by
  cases rest <;> rw [decode8Loop, if_neg (by omega)] <;> rfl

theorem decode8Loop_unexpected (d : Decoder) (hb : 0x80 ≤ b ∧ b < 0xC0)
    (rest : List Nat) (i j : Nat) (result : List Nat) :
    decode8Loop d (b :: rest) i j result = some ({ d with state := E2, charOrIndex := i }, []) := by
  cases rest <;> rw [decode8Loop, if_pos hb.1, if_pos hb.2]

theorem decode8Loop_spec (d : Decoder) (bytes : List Nat) (hbytes : ∀ b ∈ bytes, b < 256)
    (hlatin1 : ∀ b ∈ bytes, Latin1Byte b) (x i : Nat) (out : List Nat)
    (hroom : (utf16 (run (.start, x) bytes).2).length ≤ room) :
    Returns d (run (.start, x) bytes).1
      (filled (out ++ utf16 (run (.start, x) bytes).2)
        (room - (utf16 (run (.start, x) bytes).2).length))
      (decode8Loop d bytes i out.length (filled out room)) ∧
    writes8Loop bytes out.length = (utf16 (run (.start, x) bytes).2).zipIdx out.length := by
  -- two bytes at a time where a character has two bytes
  induction hn : bytes.length using Nat.strongRecOn generalizing bytes x i out room with
  | ind n ih =>
    cases bytes with
    | nil =>
      refine ⟨⟨{ d with state := IA }, ?_, ⟨rfl, fun h => absurd rfl h⟩, rfl, rfl⟩, rfl⟩
      simp [decode8Loop, run]
    | cons b rest =>
      obtain ⟨hb, htail⟩ := forall_mem_cons.1 hbytes
      have hlength : rest.length < n := by
        rw [← hn, length_cons]
        omega
      by_cases hascii : b < 0x80
      · have hstep : start.step b = .ok .start := if_pos hascii
        have hrun : run (.start, x) (b :: rest) =
            ((run (.start, b) rest).1, b :: (run (.start, b) rest).2) := by
          have hvalue : leadValue b = b := if_pos hascii
          rw [run_cons (s := (.start, x)) hstep, extendChar_start, hvalue]
          rfl
        rw [hrun] at hroom ⊢
        simp only [utf16_cons, charCode_small (show b < 0x10000 by omega)] at hroom ⊢
        obtain ⟨r, rfl⟩ : ∃ r, room = r + 1 := ⟨room - 1, by simp at hroom; omega⟩
        have hleft : (utf16 (run (.start, b) rest).2).length ≤ r := by simpa using hroom
        have hloop := ih _ hlength rest htail
          (fun y hy => hlatin1 y (by simp [hy])) b (i + 1) (out ++ [b]) hleft rfl
        rw [decode8Loop_ascii d hascii, writeInto_filled, Option.bind_some, writes8Loop.eq_def]
        simpa [Nat.not_le.2 hascii] using hloop
      by_cases hext : b < 0xC0
      · have hstep : start.step b = .error E2 := by
          rw [step, if_neg hascii, if_pos hext]
        rw [run_of_error (s := (.start, x)) hstep]
        refine ⟨⟨{ d with state := E2, charOrIndex := i },
          decode8Loop_unexpected d ⟨by omega, hext⟩ rest i _ _, isErrorState_E2, rfl, rfl⟩, ?_⟩
        rw [writes8Loop.eq_def]
        simp [hascii, hext]
      have hlead : b = 0xC2 ∨ b = 0xC3 := (hlatin1 b (by simp)).resolve_left hext
      have hstep : start.step b = .ok .one := start_one (by omega) (by omega)
      have hvalue : leadValue b = b - 0xC0 := by
        rw [leadValue, if_neg hascii, if_pos (by omega)]
      rw [run_lead x (by decide) hstep, hvalue] at hroom ⊢
      cases rest with
      | nil =>
        refine ⟨⟨{ d with state := X1, charOrIndex := b &&& 0x1F }, ?_, ⟨rfl, fun _ => ?_⟩,
          rfl, rfl⟩, ?_⟩
        · rw [decode8Loop, if_pos (by omega), if_neg hext]
          simp [run]
        · rcases hlead with rfl | rfl <;> rfl
        · simp [writes8Loop, hascii, hext, run]
      | cons next rest =>
        obtain ⟨hnext, htail⟩ := forall_mem_cons.1 htail
        by_cases hcont : 0x80 ≤ next ∧ next < 0xC0
        · have hxor := (xor_eq next hnext).2 hcont
          have hchar : (b - 0xC0) * 64 + (next - 0x80) < 0x10000 := by omega
          rw [run_last _ hcont] at hroom ⊢
          simp only [utf16_cons, charCode_small hchar] at hroom ⊢
          obtain ⟨r, rfl⟩ : ∃ r, room = r + 1 := ⟨room - 1, by simp at hroom; omega⟩
          have hleft : (utf16 (run (.start, (b - 0xC0) * 64 + (next - 0x80)) rest).2).length
              ≤ r := by
            simpa using hroom
          have hloop := ih _ (by simp at hlength; omega) rest
            htail (fun y hy => hlatin1 y (by simp [hy]))
            ((b - 0xC0) * 64 + (next - 0x80)) (i + 2)
            (out ++ [(b - 0xC0) * 64 + (next - 0x80)]) hleft rfl
          have hnot : ¬ next ^^^ 0x80 ≥ 0x40 := by
            rw [not_ext_iff hnext]
            exact not_not_intro hcont
          rw [decode8Loop, if_pos (by omega), if_neg hext, if_neg hnot, hxor,
            latin1_lead_char hlead (by omega), writeInto_filled, Lib.some_bind,
            writes8Loop, if_pos (by omega), if_neg hext, if_neg hnot, hxor,
            latin1_lead_char hlead (by omega)]
          simpa using hloop
        · rw [run_of_error (s := (.one, b - 0xC0)) (step_not_ext (by rintro ⟨⟩) hcont)]
          have hnot := (not_ext_iff hnext).2 hcont
          refine ⟨⟨{ d with state := E1, charOrIndex := i + 1 }, ?_, isErrorState_E1, rfl, rfl⟩, ?_⟩
          · rw [decode8Loop, if_pos (by omega), if_neg hext]
            exact if_pos hnot
          · rw [writes8Loop, if_pos (by omega), if_neg hext]
            exact if_pos hnot

theorem decode8_spec (hagrees : Agrees d s) (hlatin1State : s.1 = .start ∨ s.1 = .one ∧ s.2 < 4)
    (hne : bytes ≠ []) (hbytes : ∀ b ∈ bytes, b < 256)
    (hlatin1 : ∀ b ∈ bytes, Latin1Byte b) (hsize : (utf16 (run s bytes).2).length ≤ size) :
    Returns d (run s bytes).1
      (filled (utf16 (run s bytes).2) (size - (utf16 (run s bytes).2).length))
      (decode8 d bytes size) ∧ writes8 d bytes = (utf16 (run s bytes).2).zipIdx := by
  obtain ⟨p, char⟩ := s
  obtain ⟨hstate, hchar⟩ := hagrees
  dsimp only at hstate hchar hlatin1State
  rcases hlatin1State with rfl | ⟨rfl, hsmall⟩
  · unfold decode8 writes8
    rw [hstate]
    exact decode8Loop_spec d bytes hbytes hlatin1 char 0 [] hsize
  obtain ⟨b, rest, rfl⟩ := exists_cons_of_ne_nil hne
  obtain ⟨hb, htail⟩ := forall_mem_cons.1 hbytes
  have hcode : one.code = X1 := rfl
  rw [decode8, writes8, hstate, hcode, if_pos rfl, if_pos rfl, hchar (by decide)]
  by_cases hext : 0x80 ≤ b ∧ b < 0xC0
  · have hxor := (xor_eq b hb).2 hext
    have hvalue : char * 64 + (b - 0x80) < 0x10000 := by omega
    rw [run_last _ hext] at hsize ⊢
    simp only [utf16_cons, charCode_small hvalue] at hsize ⊢
    obtain ⟨r, rfl⟩ : ∃ r, size = r + 1 := ⟨size - 1, by simp at hsize; omega⟩
    have hwrite := writeInto_filled [] r (char * 64 + (b - 0x80))
    simp only [filled, nil_append, length_nil] at hwrite
    have hnot : ¬ b ^^^ 0x80 ≥ 0x40 := by
      rw [not_ext_iff hb]
      exact not_not_intro hext
    rw [if_neg hnot, if_neg hnot, hxor, latin1_char hsmall (by omega), hwrite, Lib.some_bind]
    have hleft : (utf16 (run (.start, char * 64 + (b - 0x80)) rest).2).length ≤ r := by
      simpa using hsize
    have hloop := decode8Loop_spec d rest htail
      (fun y hy => hlatin1 y (by simp [hy])) (char * 64 + (b - 0x80)) 1
      [char * 64 + (b - 0x80)] hleft
    simpa [filled] using hloop
  · rw [run_of_error (s := (.one, char)) (step_not_ext nofun hext)]
    have hnot := (not_ext_iff hb).2 hext
    exact ⟨⟨{ d with state := E1, charOrIndex := 0 }, if_pos hnot, isErrorState_E1, rfl, rfl⟩,
      if_pos hnot⟩

/-! ## `decodeGeneral` -/

theorem code_le_AB : p.code ≤ AB ↔ p = .start := by
  cases p <;> decide

theorem nextChar_eq (hfits : Fits s) (hb : b < 256)
    (h : s.1.step b = .ok p) : nextChar s.1.code s.2 b = extendChar s b := by
  rw [nextChar]
  by_cases hs : s.1 = .start
  · rw [if_pos (code_le_AB.2 hs), extendChar, if_pos hs]
    rw [hs] at h
    exact lead_char hb h
  · rw [if_neg (fun hle => hs (code_le_AB.1 hle))]
    exact ext_char hs hfits h

variable {bs : List Nat} {s : Config}

theorem run_ascii (h : ∀ b ∈ bs, b < 128) (x : Nat) :
    ∃ y, run (.start, x) bs = (some (.start, y), bs) := by
  induction bs generalizing x with
  | nil => exact ⟨x, rfl⟩
  | cons b bs ih =>
    have hb : b < 0x80 := h b (by simp)
    obtain ⟨y, hy⟩ := ih (fun c hc => h c (by simp [hc])) (leadValue b)
    have hvalue : leadValue b = b := if_pos hb
    refine ⟨y, ?_⟩
    rw [run_cons (s := (.start, x)) (if_pos hb), extendChar_start, hy, hvalue]
    rfl

theorem utf16_ascii (h : ∀ b ∈ bs, b < 128) : utf16 bs = bs := by
  induction bs with
  | nil => rfl
  | cons b bs ih =>
    have hb : b < 0x10000 := Nat.lt_trans (h b (by simp)) (by decide)
    rw [utf16_cons, charCode_small hb, ih (fun c hc => h c (by simp [hc]))]
    rfl

theorem charCode_replacement : charCode replacement = [replacement] := rfl

theorem replaceStep_fits (hfits : Fits s) (hb : b < 256) : Fits (replaceStep s b).1 := by
  rcases replaceStep_cases s b with ⟨k, hout⟩ | ⟨k, t, p, ht, hstep, hout⟩
  · rw [hout]
    trivial
  · rw [hout]
    rcases ht with ⟨-, rfl⟩ | ⟨-, rfl⟩
    · exact (step_reads hb hfits hstep).1
    · exact (start_step hb hstep).2.2.1

theorem replaceRun_fits (hfits : Fits s) (hbytes : ∀ b ∈ bs, b < 256) :
    Fits (replaceRun s bs).1 := by
  induction bs generalizing s with
  | nil => exact hfits
  | cons b bs ih =>
    exact ih (replaceStep_fits hfits (hbytes b (by simp))) (fun x hx => hbytes x (by simp [hx]))

/-- The loop has come to a configuration with a text. -/
def LoopReturns (r : Config × List Nat) (buffer : List Nat) (o : Option (Nat × Nat × List Nat)) :
    Prop :=
  ∃ char, o = some (r.1.1.code, char, buffer ++ utf16 r.2) ∧ (r.1.1 ≠ .start → char = r.1.2)

theorem LoopReturns.of_append {out m : List Nat} {o : Option (Nat × Nat × List Nat)}
    (h : LoopReturns (t, out) (buffer ++ utf16 m) o) : LoopReturns (t, m ++ out) buffer o := by
  obtain ⟨char, ho, hchar⟩ := h
  exact ⟨char, by rw [ho, utf16_append, append_assoc], hchar⟩

/-- The loop from the next byte on, if there is one. -/
def loopFrom (allowMalformed : Bool) (fuel state char i : Nat) (rest buffer : List Nat) :
    Option (Nat × Nat × List Nat) :=
  match rest with
  | [] => some (state, char, buffer)
  | byte :: rest => generalLoop allowMalformed fuel state char byte i rest buffer

theorem generalLoop_succ (fuel state char byte i : Nat) (rest buffer : List Nat) :
    generalLoop true (fuel + 1) state char byte i rest buffer =
      if transition state (typeOf byte) = IA then
        loopFrom true fuel (transition state (typeOf byte)) (nextChar state char byte)
          (i + (rest.takeWhile (· < 128)).length + 1) (rest.dropWhile (· < 128))
          (buffer ++ charCode (nextChar state char byte) ++ rest.takeWhile (· < 128))
      else if isErrorState (transition state (typeOf byte)) then
        if transition state (typeOf byte) = E1 then
          generalLoop true fuel IA (nextChar state char byte) byte i rest (buffer ++ [replacement])
        else
          loopFrom true fuel IA (nextChar state char byte) (i + 1) rest
            (if transition state (typeOf byte) = E3 ∨ transition state (typeOf byte) = E2 then
              buffer ++ [replacement] else buffer ++ [replacement, replacement])
      else
        loopFrom true fuel (transition state (typeOf byte)) (nextChar state char byte) (i + 1) rest
          buffer := by
  rfl

theorem loopFrom_spec {fuel i : Nat}
    (hchar : t.1 ≠ .start → char = t.2) (ih : ∀ b rest', rest = b :: rest' →
      LoopReturns (replaceRun (t.1, char) rest) buffer
        (generalLoop true fuel t.1.code char b i rest' buffer)) :
    LoopReturns (replaceRun t rest) buffer (loopFrom true fuel t.1.code char i rest buffer) := by
  obtain ⟨p, c⟩ := t
  cases rest with
  | nil => exact ⟨char, by simp [replaceRun, loopFrom], hchar⟩
  | cons b rest' =>
    have hloop := ih b rest' rfl
    by_cases hp : p = .start
    · subst hp
      rw [replaceRun_cons, replaceStep_start char c] at hloop
      exact hloop
    · obtain rfl : char = c := hchar hp
      exact hloop

theorem generalLoop_spec (fuel : Nat) (hfits : Fits (p, char)) (hbytes : ∀ x ∈ b :: rest, x < 256)
    (i : Nat) (buffer : List Nat) (hfuel : 2 * rest.length + (if p = .start then 1 else 2) ≤ fuel) :
    LoopReturns (replaceRun (p, char) (b :: rest)) buffer
      (generalLoop true fuel p.code char b i rest buffer) := by
  induction fuel generalizing p char b rest i buffer with
  | zero =>
    split at hfuel <;> omega
  | succ fuel ih =>
    obtain ⟨hb, htail⟩ := forall_mem_cons.1 hbytes
    have hspend : 2 * rest.length ≤ fuel := by split at hfuel <;> omega
    rw [generalLoop_succ, transition_eq p b hb, replaceRun_cons]
    -- from the next byte on the loop has a step in reserve
    have hnext : ∀ {t : Config} (char i : Nat) (buffer : List Nat), Fits t →
        (t.1 ≠ .start → char = t.2) →
        LoopReturns (replaceRun t rest) buffer
          (loopFrom true fuel t.1.code char i rest buffer) := by
      intro t char i buffer ht hchar
      refine loopFrom_spec hchar (fun b rest' hrest => ?_)
      subst hrest
      refine ih ?_ htail i buffer ?_
      · obtain ⟨q, c⟩ := t
        by_cases hq : q = .start
        · subst hq
          trivial
        · have hc : char = c := hchar hq
          rw [hc]
          exact ht
      · simp only [length_cons] at hspend
        split <;> omega
    cases hstep : p.step b with
    | ok q =>
      have hchar : nextChar p.code char b = extendChar (p, char) b :=
        nextChar_eq (s := (p, char)) hfits hb hstep
      have hreads := step_reads (s := (p, char)) hb hfits hstep
      have hreplace : replaceStep (p, char) b = ((q, extendChar (p, char) b),
          if q = .start then [extendChar (p, char) b] else []) := by
        rw [replaceStep, hstep]
      rw [hreplace, hchar]
      by_cases hq : q = .start
      · -- a character is complete; ASCII text that follows is copied
        subst hq
        rw [codeOf, show start.code = IA from rfl, if_pos rfl, if_pos rfl]
        set c := extendChar (p, char) b
        have hascii : ∀ x ∈ rest.takeWhile (· < 128), x < 128 := fun x hx =>
          of_decide_eq_true (all_eq_true.1 all_takeWhile x hx)
        obtain ⟨y, hy⟩ := run_ascii hascii c
        have hrun : replaceRun (.start, c) (rest.takeWhile (· < 128)) =
            ((.start, y), rest.takeWhile (· < 128)) := by
          rw [replaceRun_of_run (congrArg Prod.fst hy), hy]
        have hsplit := replaceRun_append (.start, c) (rest.takeWhile (· < 128))
          (rest.dropWhile (· < 128))
        rw [takeWhile_append_dropWhile, hrun] at hsplit
        rw [hsplit]
        refine LoopReturns.of_append (LoopReturns.of_append ?_)
        rw [utf16_ascii hascii]
        simp only [utf16_cons, utf16_nil, append_nil]
        refine loopFrom_spec (t := (.start, y)) (fun h => absurd rfl h) (fun b' rest' hrest => ?_)
        have hlength : rest'.length + 1 ≤ rest.length := by
          have := (dropWhile_sublist (l := rest) (· < 128)).length_le
          rw [hrest] at this
          exact this
        rw [hrest]
        refine ih (p := .start) trivial (fun x hx => htail x ?_) _ _ ?_
        · rw [← hrest] at hx
          exact (dropWhile_sublist _).subset hx
        · rw [if_pos rfl]
          omega
      · rw [codeOf, if_neg (code_ne_IA hq), isErrorState_code, if_neg hq, if_neg Bool.false_ne_true]
        exact hnext (t := (q, extendChar (p, char) b)) _ _ _ hreads.1 (fun _ => rfl)
    | error e =>
      obtain ⟨herror, hne⟩ := step_error hstep
      rw [codeOf, if_neg hne, herror, if_pos rfl]
      by_cases he : e = E1
      · -- the byte is read again from the first phase
        subst he
        have hp : p ≠ .start := by
          rintro rfl
          rcases start_error hstep with h | h <;> cases h
        rw [if_neg hp] at hfuel
        rw [if_pos rfl, replaceStep_again hstep]
        refine LoopReturns.of_append (m := [replacement]) ?_
        rw [utf16_cons, charCode_replacement, utf16_nil, append_nil]
        rw [replaceStep_start 0 (nextChar p.code char b)]
        refine ih (p := .start) trivial hbytes i _ ?_
        rw [if_pos rfl]
        omega
      · have hreplace : replaceStep (p, char) b = ((.start, 0),
            if e = E3 ∨ e = E2 then [replacement] else [replacement, replacement]) := by
          rw [replaceStep, hstep]
          dsimp only
          split_ifs <;> rfl
        have hbuffer : (if e = E3 ∨ e = E2 then buffer ++ [replacement]
            else buffer ++ [replacement, replacement]) = buffer ++
              utf16 (if e = E3 ∨ e = E2 then [replacement] else [replacement, replacement]) := by
          split_ifs <;> rfl
        rw [if_neg he, hreplace, hbuffer]
        exact LoopReturns.of_append
          (hnext (t := (.start, 0)) _ _ _ trivial (fun h => absurd rfl h))

theorem decodeGeneral_spec (hmalformed : d.allowMalformed = true) (hagrees : Agrees d s)
    (hfits : Fits s) (hne : bytes ≠ []) (hbytes : ∀ b ∈ bytes, b < 256) (single : Bool) :
    ∃ d', decodeGeneral d bytes single = some (d', utf16 (if single then finish (replaceRun s bytes)
        else (replaceRun s bytes).2)) ∧
      Agrees d' (replaceRun s bytes).1 ∧ SameInput d d' := by
  obtain ⟨b, rest, rfl⟩ := exists_cons_of_ne_nil hne
  obtain ⟨p, c⟩ := s
  have hfits' : Fits (p, d.charOrIndex) := by
    by_cases hp : p = .start
    · subst hp
      trivial
    · rw [show d.charOrIndex = c from hagrees.2 hp]
      exact hfits
  obtain ⟨char, hloop, hchar⟩ := generalLoop_spec (2 * (b :: rest).length) hfits' hbytes 0 []
    (by simp only [length_cons]; split <;> omega)
  have hrun : replaceRun (p, d.charOrIndex) (b :: rest) = replaceRun (p, c) (b :: rest) := by
    by_cases hp : p = .start
    · subst hp
      rw [replaceRun_cons, replaceRun_cons, replaceStep_start _ c]
    · rw [show d.charOrIndex = c from hagrees.2 hp]
  rw [hrun] at hloop hchar
  refine ⟨{ d with state := (replaceRun (p, c) (b :: rest)).1.1.code, charOrIndex := char }, ?_,
    ⟨rfl, hchar⟩, rfl, rfl⟩
  have hstate : d.state = p.code := hagrees.1
  rw [decodeGeneral, hstate, hmalformed, hloop]
  simp only [Lib.some_bind, isErrorState_code, Bool.false_eq_true, if_false, if_true, nil_append]
  cases single with
  | false => simp
  | true =>
    by_cases hend : (replaceRun (p, c) (b :: rest)).1.1 = .start
    · have hle := code_le_AB.2 hend
      simp [finish, ended, hend, code]
    · have hlt : AB < (replaceRun (p, c) (b :: rest)).1.1.code :=
        Nat.lt_of_not_le (fun hle => hend (code_le_AB.1 hle))
      simp [finish, ended, hend, hlt, charCode_replacement]

/-! ## The size of the text -/

/-- The code units that a byte is counted for. -/
def byteSize (b : Nat) : Nat :=
  if b < 0x80 then 1 else if b < 0xC0 then 0 else if b < 0xF0 then 1 else 2

def sizeOfBytes (bytes : List Nat) : Nat := (bytes.map byteSize).sum

@[simp]
theorem sizeOfBytes_nil : sizeOfBytes [] = 0 := rfl

@[simp]
theorem sizeOfBytes_cons (b : Nat) (bytes : List Nat) :
    sizeOfBytes (b :: bytes) = byteSize b + sizeOfBytes bytes := List.sum_cons

@[simp]
theorem sizeOfBytes_append (bytes bytes' : List Nat) :
    sizeOfBytes (bytes ++ bytes') = sizeOfBytes bytes + sizeOfBytes bytes' := by
  simp [sizeOfBytes]

theorem byteSize_ext (hb : 0x80 ≤ b ∧ b < 0xC0) : byteSize b = 0 := by
  rw [byteSize, if_neg (by omega), if_pos hb.2]

theorem byteSize_lead (hb : 0xC0 ≤ b) (hb' : b < 0xF0) : byteSize b = 1 := by
  rw [byteSize, if_neg (by omega), if_neg (by omega), if_pos hb']

theorem byteSize_lead4 (hb : 0xF0 ≤ b) : byteSize b = 2 := by
  rw [byteSize, if_neg (by omega), if_neg (by omega), if_neg (by omega)]

theorem size_eq : ∀ b < 256, scanTable.getD b 0 &&& 0x03 = byteSize b :=
  forall_byte (by decide +kernel)

theorem scanSize_eq (hbytes : ∀ b ∈ bytes, b < 256) : scanSize bytes = sizeOfBytes bytes := by
  rw [scanSize, sizeOfBytes]
  congr 1
  exact map_congr_left (fun b hb => size_eq b (hbytes b hb))

/-- A character is counted at its first byte. -/
theorem sizeOfBytes_encode (c : Nat) : sizeOfBytes (encode c) = (charCode c).length := by
  have hext : ∀ x : Nat, byteSize (0x80 + x % 64) = 0 := fun x => byteSize_ext (by omega)
  rw [encode]
  by_cases h1 : c < 0x80
  · simp [h1, byteSize, charCode_small (show c < 0x10000 by omega)]
  by_cases h2 : c < 0x800
  · simp [h1, h2, hext, charCode_small (show c < 0x10000 by omega),
      byteSize_lead (le_add_right 0xC0 (c / 64)) (by omega)]
  by_cases h3 : c < 0x10000
  · simp [h1, h2, h3, hext, charCode_small h3,
      byteSize_lead (show 0xC0 ≤ 0xE0 + c / 4096 by omega) (by omega)]
  · simp [h1, h2, h3, hext, byteSize_lead4 (le_add_right 0xF0 (c / 262144)),
      charCode_large (show 0x10000 ≤ c by omega)]

theorem sizeOfBytes_text (cs : List Nat) : sizeOfBytes (cs.flatMap encode) = (utf16 cs).length := by
  induction cs with
  | nil => rfl
  | cons c cs ih =>
    rw [flatMap_cons, sizeOfBytes_append, sizeOfBytes_encode, ih, utf16_cons, length_append]

/-- What was counted for bytes is written, or still owed for the character that was begun. -/
theorem run_balance (hfits : Fits s) (hbytes : ∀ b ∈ bs, b < 256) (h : (run s bs).1 = some s') :
    sizeOfBytes (pending s) + sizeOfBytes bs =
      (utf16 (run s bs).2).length + sizeOfBytes (pending s') := by
  obtain ⟨-, -, htext⟩ := run_reads hfits hbytes h
  rw [← sizeOfBytes_append, htext, sizeOfBytes_append, sizeOfBytes_text]

/-! ## The unfinished character at the end -/

theorem ne_start_of_missing (h : 0 < p.missing) : p ≠ .start :=
  fun hp => Nat.ne_of_gt h (missing_eq_zero.2 hp)

theorem run_snoc (h : (run s (bs ++ [b])).1 = some s') :
    ∃ t p, (run s bs).1 = some t ∧ t.1.step b = .ok p ∧ s' = (p, extendChar t b) := by
  rw [run_append] at h
  cases ht : (run s bs).1 with
  | none =>
    rw [ht] at h
    cases h
  | some t =>
    rw [ht] at h
    cases hstep : t.1.step b with
    | error e =>
      simp only [run, hstep] at h
      cases h
    | ok p =>
      simp only [run, hstep, Option.some.injEq] at h
      exact ⟨t, p, rfl, hstep, h.symm⟩

/-- Until the carried character is complete there are only extension bytes. -/
theorem run_missing (hfits : Fits s) (hbytes : ∀ b ∈ bs, b < 256) (h : (run s bs).1 = some s')
    (hlength : bs.length ≤ s.1.missing) : s'.1.missing + bs.length = s.1.missing := by
  induction bs using reverseRecOn generalizing s' with
  | nil =>
    cases h
    rfl
  | append_singleton bs b ih =>
    have hbefore := (forall_mem_append.1 hbytes).1
    obtain ⟨t, p, ht, hstep, rfl⟩ := run_snoc h
    rw [length_append, length_singleton] at hlength ⊢
    have hmissing := ih hbefore ht (by omega)
    have hstart : t.1 ≠ .start := ne_start_of_missing (by omega)
    have hext := (ext_step hstart (run_reads hfits hbefore ht).1 hstep).2.1
    dsimp only
    omega

/-- The bound on a first byte with extension bytes after it. -/
def leadBound (extensionCount : Nat) : Int := ((-64 : Int) >>> extensionCount) % 256

theorem leadBound_of_shift {k : Nat} (h : (-64 : Int) >>> k = -1) : leadBound k = 0xFF := by
  unfold leadBound
  omega

theorem leadBound_large (k : Nat) : leadBound (k + 6) = 0xFF := by
  have hshift : (-1 : Int) >>> k = -1 := by
    induction k with
    | zero => rfl
    | succ k ih =>
      rw [Int.shiftRight_add, ih]
      rfl
  have hlarge := leadBound_of_shift ((Int.shiftRight_add (-64) 6 k).trans hshift)
  rwa [Nat.add_comm] at hlarge

theorem leadBound_ge (k : Nat) : 0xC0 ≤ leadBound k := by
  match k with
  | 0 | 1 | 2 | 3 | 4 | 5 => decide
  | k + 6 => rw [leadBound_large]; decide

/-- The bound says whether extension bytes are missing. -/
theorem leadBound_le_iff (hb : b < 0x80 ∨ 0xC2 ≤ b ∧ b < 0xF5) (k : Nat) :
    leadBound k ≤ (b : Int) ↔ k < leadMissing b := by
  have hbounds : leadBound 0 = 0xC0 ∧ leadBound 1 = 0xE0 ∧ leadBound 2 = 0xF0 ∧
      leadBound 3 = 0xF8 ∧ leadBound 4 = 0xFC ∧ leadBound 5 = 0xFE := by decide
  obtain ⟨h0, h1, h2, h3, h4, h5⟩ := hbounds
  unfold leadMissing
  match k with
  | 0 | 1 | 2 | 3 | 4 | 5 => split_ifs <;> omega
  | k + 6 =>
    rw [leadBound_large]
    split_ifs <;> omega

theorem unfinishedSize_ext (hb : b < 256) (hext : 0x80 ≤ b ∧ b < 0xC0) (rest : List Nat)
    (k : Nat) : unfinishedSize (b :: rest) k = unfinishedSize rest (k + 1) := by
  rw [unfinishedSize, if_pos ((extension_iff b hb).2 hext)]

theorem unfinishedSize_lead (hb : b < 256) (hext : ¬ (0x80 ≤ b ∧ b < 0xC0))
    (rest : List Nat) (k : Nat) :
    unfinishedSize (b :: rest) k = if leadBound k ≤ (b : Int) then byteSize b else 0 := by
  rw [unfinishedSize, if_neg (fun h => hext ((extension_iff b hb).1 h))]
  change (if leadBound k ≤ (b : Int) then _ else _) = _
  by_cases hbound : leadBound k ≤ (b : Int)
  · have := leadBound_ge k
    rw [if_pos hbound, if_pos hbound]
    by_cases hb4 : b < 0xF0
    · rw [if_neg (by omega), byteSize_lead (by omega) hb4]
    · rw [if_pos (by omega), byteSize_lead4 (by omega)]
  · rw [if_neg hbound, if_neg hbound]

theorem unfinishedSize_run (hfits : Fits s)
    (hbytes : ∀ b ∈ bs, b < 256) (h : (run s bs).1 = some s') (k : Nat) :
    unfinishedSize bs.reverse k =
      if s.1.missing ≤ bs.length ∧ k < s'.1.missing then sizeOfBytes (pending s') else 0 := by
  induction bs using reverseRecOn generalizing s' k with
  | nil =>
    cases h
    rw [reverse_nil, unfinishedSize, if_neg]
    rintro ⟨hzero, hk⟩
    simp only [length_nil] at hzero
    omega
  | append_singleton bs b ih =>
    obtain ⟨hbefore, hb⟩ := forall_mem_append.1 hbytes
    rw [forall_mem_singleton] at hb
    have hcarried := run_missing hfits hbytes h
    obtain ⟨t, p, ht, hstep, rfl⟩ := run_snoc h
    have hcarriedBefore := run_missing hfits hbefore ht
    rw [length_append, length_singleton] at hcarried ⊢
    rw [reverse_append, reverse_singleton, singleton_append]
    by_cases hstart : t.1 = .start
    · -- a first byte
      obtain ⟨q, c⟩ := t
      cases hstart
      obtain ⟨hrange, hmissing, -, hdone, hgoes⟩ := start_step hb hstep
      have hdone' : s.1.missing ≤ bs.length := by
        by_contra hlt
        have hzero : start.missing = 0 := rfl
        have := hcarriedBefore (by omega)
        rw [hzero] at this
        omega
      rw [unfinishedSize_lead hb (by omega), extendChar_start]
      by_cases hk : k < leadMissing b
      · have hp : p ≠ .start := ne_start_of_missing (by omega)
        rw [if_pos ((leadBound_le_iff hrange k).2 hk),
          if_pos ⟨by omega, by rw [hmissing]; exact hk⟩, hgoes hp]
        simp [pending]
      · rw [if_neg (fun hle => hk ((leadBound_le_iff hrange k).1 hle)), if_neg]
        rintro ⟨-, hlt⟩
        rw [hmissing] at hlt
        exact hk hlt
    · -- an extension byte
      obtain ⟨hext, hmissing, -, -, hgoes⟩ := ext_step hstart (run_reads hfits hbefore ht).1 hstep
      rw [unfinishedSize_ext hb hext, ih hbefore ht]
      by_cases hk : k < p.missing
      · have hp : p ≠ .start := ne_start_of_missing (by omega)
        have hsize : sizeOfBytes (pending (p, extendChar t b)) = sizeOfBytes (pending t) := by
          rw [hgoes hp]
          simp [byteSize_ext hext]
        rw [hsize]
        by_cases hlength : s.1.missing ≤ bs.length
        · rw [if_pos ⟨hlength, by omega⟩, if_pos ⟨by omega, hk⟩]
        · rw [if_neg (fun hand => hlength hand.1), if_neg]
          rintro ⟨hle, -⟩
          omega
      · rw [if_neg (fun hand => hk (by omega)), if_neg (fun hand => hk hand.2)]

/-- Bytes at the end make the unfinished character at most as large as they are counted for. -/
theorem unfinishedSize_append_le {l : List Nat} (hbytes : ∀ b ∈ l, b < 256) (l' : List Nat)
    (k : Nat) : ∃ k', unfinishedSize (l ++ l') k ≤ sizeOfBytes l + unfinishedSize l' k' := by
  induction l generalizing k with
  | nil => exact ⟨k, by simp⟩
  | cons b l ih =>
    obtain ⟨hb, htail⟩ := forall_mem_cons.1 hbytes
    obtain ⟨k', hk'⟩ := ih htail (k + 1)
    by_cases hext : 0x80 ≤ b ∧ b < 0xC0
    · refine ⟨k', ?_⟩
      rw [cons_append, unfinishedSize_ext hb hext, sizeOfBytes_cons, byteSize_ext hext,
        Nat.zero_add]
      exact hk'
    · refine ⟨k', ?_⟩
      rw [cons_append, unfinishedSize_lead hb hext, sizeOfBytes_cons]
      split_ifs <;> omega

def chunkSize (s : Config) (bytes : List Nat) : Nat :=
  sizeOfBytes bytes + (if s.1.missing ≤ bytes.length then sizeOfBytes (pending s) else 0) -
    unfinishedSize bytes.reverse 0

section

variable (hfits : Fits s) (hbytes : ∀ b ∈ bs, b < 256)
include hfits hbytes

/-- A carried character that is not completed: nothing is written. -/
theorem run_carried (h : (run s bs).1 = some s')
    (hlength : bs.length < s.1.missing) : (run s bs).2 = [] ∧ sizeOfBytes bs = 0 := by
  induction bs generalizing s with
  | nil => exact ⟨rfl, rfl⟩
  | cons b bs ih =>
    obtain ⟨hb, htail⟩ := forall_mem_cons.1 hbytes
    have hstart : s.1 ≠ .start := ne_start_of_missing (by omega)
    cases hstep : s.1.step b with
    | error e =>
      rw [run, hstep] at h
      cases h
    | ok p =>
      obtain ⟨hext, hmissing, -⟩ := ext_step hstart hfits hstep
      rw [length_cons] at hlength
      have hp : p ≠ .start := ne_start_of_missing (by omega)
      rw [run_cons hstep] at h ⊢
      obtain ⟨hnone, hsize⟩ := ih (step_reads hb hfits hstep).1
        htail h (by dsimp only; omega)
      rw [hnone, if_neg hp, sizeOfBytes_cons, byteSize_ext hext, hsize]
      exact ⟨rfl, rfl⟩

/-- The size is exact without an error. -/
theorem room_of_some
    (h : (run s bs).1 = some s') : (utf16 (run s bs).2).length = chunkSize s bs := by
  have hbalance := run_balance hfits hbytes h
  rw [chunkSize, unfinishedSize_run hfits hbytes h]
  by_cases hlength : s.1.missing ≤ bs.length
  · rw [if_pos hlength]
    by_cases hend : 0 < s'.1.missing
    · rw [if_pos ⟨hlength, hend⟩]
      omega
    · obtain ⟨p, c⟩ := s'
      obtain rfl : p = .start := missing_eq_zero.1 (Nat.eq_zero_of_not_pos hend)
      have hnil : pending (.start, c) = [] := rfl
      rw [if_neg (fun hand => hend hand.2)]
      rw [hnil, sizeOfBytes_nil] at hbalance
      omega
  · obtain ⟨hnone, hsize⟩ := run_carried hfits hbytes h (by omega)
    rw [if_neg hlength, if_neg (fun hand => hlength hand.1), hnone, hsize]
    rfl

/-- The size is enough for what is written before an error. -/
theorem room_of_none (h : (run s bs).1 = none) : (utf16 (run s bs).2).length ≤ chunkSize s bs := by
  obtain ⟨pre, b, post, s', e, hbs, hrun, -⟩ := run_error h
  have hpre : ∀ x ∈ pre, x < 256 := fun x hx => hbytes x (by simp [hbs, hx])
  have htext : (run s bs).2 = (run s pre).2 := by rw [hrun]
  have hsome : (run s pre).1 = some s' := by rw [hrun]
  rw [htext]
  by_cases hlength : s.1.missing ≤ pre.length
  · have hbalance := run_balance hfits hpre hsome
    obtain ⟨k, hk⟩ := unfinishedSize_append_le (l := (b :: post).reverse)
      (fun x hx => hbytes x (by simp [hbs]; simp at hx; tauto)) pre.reverse 0
    have hunfinished := unfinishedSize_run hfits hpre hsome k
    rw [sizeOfBytes, map_reverse, sum_reverse, ← sizeOfBytes] at hk
    have hle : unfinishedSize pre.reverse k ≤ sizeOfBytes (pending s') := by
      rw [hunfinished]
      split_ifs <;> omega
    rw [chunkSize, hbs, reverse_append, sizeOfBytes_append, if_pos (by rw [length_append]; omega)]
    omega
  · rw [(run_carried hfits hpre hsome (by omega)).1]
    exact zero_le _

end

end Dart2Wasm.Utf8
