import Dart2Wasm.CoreLibrary.Utf8Decoders

/-!
# Utf8Conversion — one-shot and chunked conversion

Both conversions choose a decoder by the flags of the bytes and fall back to `decodeGeneral`. In the
end they compute one run of the automaton: with replacements if malformed input is allowed, and up
to the first error otherwise. `decoded` is that run.

The chunked conversion also recognizes a byte order mark that comes in several slices. Its bytes are
decoded as they come, and forgotten when it is complete.

The last section is about the single writes into the string that a slice is decoded into.
-/

namespace Dart2Wasm.Utf8

open List

variable {s s' : Config} {bs out rest seen : List Nat} {carryFlags : Nat}

/-! ## The run behind a conversion -/

/-- The run on the bytes; there is none after an error. -/
def decoded (allowMalformed : Bool) (s : Config) (bytes : List Nat) : Option Config × List Nat :=
  if allowMalformed then (some (replaceRun s bytes).1, (replaceRun s bytes).2) else run s bytes

theorem decoded_nil (allowMalformed : Bool) (s : Config) :
    decoded allowMalformed s [] = (some s, []) := by
  cases allowMalformed <;> rfl

variable {allowMalformed : Bool}

theorem decoded_append (h : decoded allowMalformed s bs = (some s', out)) (bs' : List Nat) :
    decoded allowMalformed s (bs ++ bs') =
      ((decoded allowMalformed s' bs').1, out ++ (decoded allowMalformed s' bs').2) := by
  cases allowMalformed with
  | false =>
    have hrun : run s bs = (some s', out) := h
    change run s (bs ++ bs') = ((run s' bs').1, out ++ (run s' bs').2)
    rw [run_append, hrun]
  | true =>
    have hrun : replaceRun s bs = (s', out) := by
      have hfst : (some (replaceRun s bs).1 : Option Config) = some s' := congrArg Prod.fst h
      have hsnd : (replaceRun s bs).2 = out := congrArg Prod.snd h
      exact Prod.ext (Option.some.inj hfst) hsnd
    change (some (replaceRun s (bs ++ bs')).1, (replaceRun s (bs ++ bs')).2) = _
    rw [replaceRun_append, hrun]
    rfl

theorem decoded_of_run
    (h : (run s bs).1 = some s') : decoded allowMalformed s bs = (some s', (run s bs).2) := by
  cases allowMalformed with
  | false => exact Prod.ext h rfl
  | true =>
    change (some (replaceRun s bs).1, (replaceRun s bs).2) = _
    rw [replaceRun_of_run h]

theorem decoded_fits (hfits : Fits s)
    (hbytes : ∀ b ∈ bs, b < 256) (h : (decoded allowMalformed s bs).1 = some s') : Fits s' := by
  cases allowMalformed with
  | false => exact (run_reads hfits hbytes h).1
  | true =>
    cases h
    exact replaceRun_fits hfits hbytes

/-- The characters of the whole input, if it is accepted. -/
def whole (allowMalformed : Bool) (r : Option Config × List Nat) : Option (List Nat) :=
  r.1.bind fun s =>
    if s.1 = .start then some r.2
    else if allowMalformed then some (r.2 ++ [replacement]) else none

/-! ## Flags -/

theorem testBit_foldl_or (g : Nat → Nat) (l : List Nat) (a k : Nat) :
    (l.foldl (fun flags b => flags ||| g b) a).testBit k =
      (a.testBit k || l.any fun b => (g b).testBit k) := by
  induction l generalizing a with
  | nil => simp
  | cons b l ih => simp [ih, Nat.testBit_or, Bool.or_assoc]

variable {bytes : List Nat}

theorem flag_of_scan {k : Nat} (h : (scanFlags bytes ||| carryFlags).testBit k = false) :
    carryFlags.testBit k = false ∧
      ∀ b ∈ bytes, (scanTable.getD b 0 &&& 0x3C).testBit k = false := by
  rw [Nat.testBit_or, scanFlags, testBit_foldl_or (fun b => scanTable.getD b 0 &&& 0x3C)] at h
  simp only [Nat.zero_testBit, Bool.false_or, Bool.or_eq_false_iff, any_eq_false] at h
  exact ⟨h.2, fun b hb => by simpa using h.1 b hb⟩

theorem flag_cases {b : Nat} (hb : b < 256) :
    b < 128 ∧ scanTable.getD b 0 &&& 0x3C = 0 ∨
      Latin1Byte b ∧ scanTable.getD b 0 &&& 0x3C = 4 ∨
      Latin1Byte b ∧ scanTable.getD b 0 &&& 0x3C = 8 ∨
      scanTable.getD b 0 &&& 0x3C = 16 ∨ scanTable.getD b 0 &&& 0x3C = 32 := by
  rw [flags_eq b hb]
  unfold Latin1Byte
  split_ifs <;> simp <;> omega

theorem ascii_of_flags (hbytes : ∀ b ∈ bytes, b < 256)
    (h : scanFlags bytes ||| carryFlags = 0) : carryFlags = 0 ∧ ∀ b ∈ bytes, b < 128 := by
  have hbit : ∀ k, (scanFlags bytes ||| carryFlags).testBit k = false := by simp [h]
  refine ⟨(Nat.or_eq_zero_iff.1 h).2, fun b hb => ?_⟩
  have hflag := fun k => (flag_of_scan (hbit k)).2 b hb
  rcases flag_cases (hbytes b hb) with ⟨hlt, -⟩ | ⟨-, hf⟩ | ⟨-, hf⟩ | hf | hf
  · exact hlt
  all_goals rw [hf] at hflag
  · exact absurd (hflag 2) (by decide)
  · exact absurd (hflag 3) (by decide)
  · exact absurd (hflag 4) (by decide)
  · exact absurd (hflag 5) (by decide)

theorem latin1_of_flags (hbytes : ∀ b ∈ bytes, b < 256)
    (h : scanFlags bytes ||| carryFlags = flagLatin1 ||| flagExtension) :
    carryFlags.testBit 4 = false ∧ ∀ b ∈ bytes, Latin1Byte b := by
  have hfour : (scanFlags bytes ||| carryFlags).testBit 4 = false := by rw [h]; decide
  have hfive : (scanFlags bytes ||| carryFlags).testBit 5 = false := by rw [h]; decide
  refine ⟨(flag_of_scan hfour).1, fun b hb => ?_⟩
  have h4 := (flag_of_scan hfour).2 b hb
  have h5 := (flag_of_scan hfive).2 b hb
  rcases flag_cases (hbytes b hb) with ⟨hlt, -⟩ | ⟨hlatin1, -⟩ | ⟨hlatin1, -⟩ | hf | hf
  · exact .inl (by omega)
  · exact hlatin1
  · exact hlatin1
  · rw [hf] at h4
    exact absurd h4 (by decide)
  · rw [hf] at h5
    exact absurd h5 (by decide)

/-! ## The carried character -/

def carryFlag (s : Config) : Nat :=
  if s.1 = .start then 0 else if s.1 = .one ∧ s.2 < 4 then flagLatin1 else flagNonLatin1

variable {d : Decoder} {s : Config} {bytes : List Nat}

theorem carryOver_eq (hagrees : Agrees d s) (hfits : Fits s) (length : Nat) :
    carryOver d length =
      (carryFlag s, if s.1.missing ≤ length then sizeOfBytes (pending s) else 0) := by
  obtain ⟨p, c⟩ := s
  obtain ⟨hstate, hchar⟩ := hagrees
  dsimp only at hstate hchar
  have hext : ∀ x : Nat, byteSize (0x80 + x % 64) = 0 := fun x => byteSize_ext (by omega)
  cases p with
  | start => simp [carryOver, hstate, Phase.code, carryFlag, pending]
  | one =>
    have hsize : sizeOfBytes (pending (.one, c)) = if c < 0x400 then 1 else 2 := by
      simp only [pending]
      split_ifs <;> simp only [sizeOfBytes_cons, sizeOfBytes_nil, hext]
      · exact byteSize_lead (by omega) (by omega)
      · omega
      · exact byteSize_lead (by omega) (by omega)
      · exact byteSize_lead4 (by omega)
    simp only [carryOver, hstate, hchar (by decide), carryFlag, hsize, true_and]
    rfl
  | two =>
    have hsize : sizeOfBytes (pending (.two, c)) = if c < 0x10 then 1 else 2 := by
      simp only [pending]
      split_ifs <;> simp only [sizeOfBytes_cons, sizeOfBytes_nil, hext]
      · exact byteSize_lead (by omega) (by omega)
      · exact byteSize_lead4 (by omega)
    simp only [carryOver, hstate, hchar (by decide), hsize]
    rfl
  | threeLow | threeHigh =>
    subst hfits
    simp only [carryOver, hstate]
    rfl
  | three | fourLow | fourHigh =>
    simp only [carryOver, hstate, pending, sizeOfBytes_cons, byteSize_lead4 (Nat.le_add_right _ c)]
    rfl

theorem start_of_carryFlag (h : carryFlag s = 0) : s.1 = .start := by
  rw [carryFlag] at h
  split_ifs at h with hstart
  exact hstart

theorem latin1_of_carryFlag (h : (carryFlag s).testBit 4 = false) :
    s.1 = .start ∨ s.1 = .one ∧ s.2 < 4 := by
  rw [carryFlag] at h
  split_ifs at h with hstart hone
  · exact .inl hstart
  · exact .inr hone
  · exact absurd h (by decide)

/-! ## Chunks -/

/-- What a conversion returns for a run. -/
def Converts (d : Decoder) (r : Option Config × List Nat) (o : Option (Decoder × Converted)) :
    Prop :=
  match r.1 with
  | some s => ∃ d', o = some (d', .ok (utf16 r.2)) ∧ Agrees d' s ∧ SameInput d d'
  | none => ∃ d' e, o = some (d', .error e)

theorem charCode_lt {c : Nat} (hc : c < 0x110000) : ∀ u ∈ charCode c, u < 0x10000 := by
  by_cases h : 0x10000 ≤ c
  · have hlow : c &&& 0x3FF = c % 1024 := Nat.and_two_pow_sub_one_eq_mod c 10
    rw [charCode_large h, hlow, Nat.shiftRight_eq_div_pow]
    exact forall_mem_cons.2 ⟨by omega, forall_mem_cons.2 ⟨by omega, nofun⟩⟩
  · rw [charCode_small (by omega)]
    simpa using h

theorem run_units (hfits : Fits s) (hbytes : ∀ b ∈ bs, b < 256) :
    ∀ u ∈ utf16 (run s bs).2, u < 0x10000 := by
  have hscalar : ∀ c ∈ (run s bs).2, Scalar c := by
    cases hrun : (run s bs).1 with
    | some s' => exact (run_reads hfits hbytes hrun).2.1
    | none =>
      obtain ⟨pre, b, post, s', e, hbs, hpre, -⟩ := run_error hrun
      have hreads := run_reads hfits (fun x hx => hbytes x (by simp [hbs, hx]))
        (congrArg Prod.fst hpre)
      rw [hpre] at hreads
      exact hreads.2.1
  intro u hu
  obtain ⟨c, hc, hu⟩ := mem_flatMap.1 hu
  have hlt : c < 0x110000 := by
    have := hscalar c hc
    rw [Scalar] at this
    omega
  exact charCode_lt hlt u hu

theorem writes8Loop_lt (bytes : List Nat) (j : Nat) : ∀ w ∈ writes8Loop bytes j, w.1 < 256 := by
  fun_induction writes8Loop with
  | case1 | case2 | case3 | case4 => nofun
  | case5 j byte _ _ next rest _ ih => exact forall_mem_cons.2 ⟨Nat.mod_lt _ (by decide), ih⟩
  | case6 j byte rest h ih => exact forall_mem_cons.2 ⟨by omega, ih⟩

theorem writes8_lt (d : Decoder) (bytes : List Nat) : ∀ w ∈ writes8 d bytes, w.1 < 256 := by
  unfold writes8
  split_ifs
  · split
    · nofun
    · split_ifs
      · nofun
      · exact forall_mem_cons.2 ⟨Nat.mod_lt _ (by decide), writes8Loop_lt _ _⟩
  · exact writes8Loop_lt _ _
/-- The decoder that the flags choose, and its writes. -/
theorem chosen_spec (hagrees : Agrees d s) (hfits : Fits s) (hne : bytes ≠ [])
    (hbytes : ∀ b ∈ bytes, b < 256) {size : Nat} (hsize : (utf16 (run s bytes).2).length ≤ size) :
    Returns d (run s bytes).1
      (filled (utf16 (run s bytes).2) (size - (utf16 (run s bytes).2).length))
      (decodeByFlags d (scanFlags bytes ||| carryFlag s) bytes size) ∧
    (writesByFlags d (scanFlags bytes ||| carryFlag s) bytes).2 = (utf16 (run s bytes).2).zipIdx ∧
    ∀ w ∈ (writesByFlags d (scanFlags bytes ||| carryFlag s) bytes).2,
      w.1 < 2 ^ (writesByFlags d (scanFlags bytes ||| carryFlag s) bytes).1 := by
  rw [decodeByFlags, writesByFlags]
  by_cases hflags : scanFlags bytes ||| carryFlag s = flagLatin1 ||| flagExtension
  · obtain ⟨hcarry, hlatin1⟩ := latin1_of_flags hbytes hflags
    obtain ⟨hresult, hwrites⟩ :=
      decode8_spec hagrees (latin1_of_carryFlag hcarry) hne hbytes hlatin1 hsize
    rw [if_pos hflags, if_pos hflags]
    exact ⟨hresult, hwrites, writes8_lt d bytes⟩
  · obtain ⟨hresult, hwrites⟩ := decode16_spec hagrees hfits hne hbytes hsize
    rw [if_neg hflags, if_neg hflags]
    refine ⟨hresult, hwrites, fun w hw => ?_⟩
    rw [hwrites] at hw
    exact run_units hfits hbytes _ (fst_mem_of_mem_zipIdx hw)

theorem room_le (hfits : Fits s) (hbytes : ∀ b ∈ bs, b < 256) :
    (utf16 (run s bs).2).length ≤ chunkSize s bs := by
  cases hrun : (run s bs).1 with
  | some s' => exact Nat.le_of_eq (room_of_some hfits hbytes hrun)
  | none => exact room_of_none hfits hbytes hrun

theorem filled_zero (out : List Nat) : filled out 0 = out := List.append_nil out

theorem convertChunked_spec {d d' : Decoder} (hskip : skipBomChunked d bytes = (d', rest))
    (hagrees : Agrees d' s) (hfits : Fits s) (hbytes : ∀ b ∈ rest, b < 256) :
    Converts d' (decoded d'.allowMalformed s rest) (convertChunked d bytes) := by
  rw [convertChunked, hskip]
  dsimp only
  by_cases hne : rest = []
  · subst hne
    rw [if_pos rfl, decoded_nil]
    exact ⟨d', rfl, hagrees, rfl, rfl⟩
  rw [if_neg hne, carryOver_eq hagrees hfits, scanSize_eq hbytes]
  by_cases hascii : scanFlags rest ||| carryFlag s = 0
  · obtain ⟨hcarry, hsmall⟩ := ascii_of_flags hbytes hascii
    obtain ⟨p, c⟩ := s
    obtain rfl : p = .start := start_of_carryFlag hcarry
    obtain ⟨y, hy⟩ := run_ascii hsmall c
    rw [if_pos hascii, decoded_of_run (congrArg Prod.fst hy), hy]
    exact ⟨d', by rw [utf16_ascii hsmall], ⟨hagrees.1, fun h => absurd rfl h⟩, rfl, rfl⟩
  rw [if_neg hascii]
  have hchosen := (chosen_spec hagrees hfits hne hbytes (room_le hfits hbytes)).1
  cases hrun : (run s rest).1 with
  | some s' =>
    have hsize := room_of_some hfits hbytes hrun
    rw [hrun] at hchosen
    obtain ⟨d'', hresult, hagrees', hsame⟩ := hchosen
    rw [hsize, Nat.sub_self, filled_zero] at hresult
    rw [decoded_of_run hrun]
    refine ⟨d'', ?_, hagrees', hsame⟩
    have hstate : isErrorState d''.state = false := by rw [hagrees'.1, isErrorState_code]
    rw [chunkSize] at hresult
    simp [hresult, hstate]
  | none =>
    rw [hrun] at hchosen
    obtain ⟨d'', hresult, hstate, hsame⟩ := hchosen
    rw [chunkSize] at hresult
    cases hmalformed : d'.allowMalformed with
    | false =>
      have hnone : (decoded false s rest).1 = none := hrun
      rw [Converts, hnone]
      refine ⟨{ d'' with state := IA }, ⟨errorDescription d''.state,
        some (bytes.length - rest.length + d''.charOrIndex)⟩, ?_⟩
      simp [hresult, hstate]
    | true =>
      obtain ⟨d3, hgeneral, hagrees', hsame'⟩ := decodeGeneral_spec
        (d := { d'' with state := d'.state, charOrIndex := d'.charOrIndex })
        (hsame.1.trans hmalformed) hagrees hfits hne hbytes false
      refine ⟨d3, ?_, hagrees', hsame'.1.trans hsame.1, hsame'.2.trans hsame.2⟩
      simp [hresult, hstate, hgeneral, decoded]

/-! ## One shot -/

/-- A decoder before its first byte. -/
def fresh (allowMalformed : Bool) : Decoder := { allowMalformed := allowMalformed }

theorem size_suffices (hbytes : ∀ b ∈ bs, b < 256) :
    (utf16 (run (.start, 0) bs).2).length ≤ sizeOfBytes bs := by
  have hnil : pending (.start, 0) = [] := rfl
  cases hrun : (run (.start, 0) bs).1 with
  | some s =>
    have hbalance := run_balance (s := (.start, 0)) trivial hbytes hrun
    rw [hnil, sizeOfBytes_nil] at hbalance
    omega
  | none =>
    obtain ⟨pre, b, post, s, e, hbs, hpre, -⟩ := run_error hrun
    have hbalance := run_balance (s := (.start, 0)) trivial
      (fun x hx => hbytes x (by simp [hbs, hx])) (congrArg Prod.fst hpre)
    rw [hnil, sizeOfBytes_nil, hpre] at hbalance
    rw [hbs, sizeOfBytes_append, ← hbs]
    dsimp only at hbalance
    omega

/-- What a one-shot conversion returns. -/
def Answers (cs : Option (List Nat)) (r : Converted) : Prop :=
  match cs with
  | some cs => r = .ok (utf16 cs)
  | none => ∃ e, r = .error e

theorem skipBomSingle_sub : ∀ b ∈ skipBomSingle bytes, b ∈ bytes := by
  unfold skipBomSingle
  split
  · intro b hb
    simp [hb]
  · exact fun b hb => hb

theorem whole_of_replaceRun (bytes : List Nat) :
    whole true (decoded true (.start, 0) bytes) =
      some (finish (replaceRun (.start, 0) bytes)) := by
  change (if (replaceRun (.start, 0) bytes).1.1 = .start then _ else _) = _
  rw [finish, ended]
  by_cases hend : (replaceRun (.start, 0) bytes).1.1 = .start
  · rw [if_pos hend, if_pos hend, append_nil]
    rfl
  · rw [if_neg hend, if_neg hend]
    rfl

/-- The one-shot conversion returns the text of the whole input, or throws. -/
theorem convertSingle_spec (allowMalformed : Bool) (hbytes : ∀ b ∈ bytes, b < 256) :
    ∃ d r, convertSingle (fresh allowMalformed) bytes = some (d, r) ∧
      Answers (whole allowMalformed
        (decoded allowMalformed (.start, 0) (skipBomSingle bytes))) r := by
  have hrest : ∀ b ∈ skipBomSingle bytes, b < 256 := fun b hb => hbytes b (skipBomSingle_sub b hb)
  have hagrees : Agrees (fresh allowMalformed) (.start, 0) := ⟨rfl, fun h => absurd rfl h⟩
  rw [convertSingle]
  generalize skipBomSingle bytes = rest at *
  by_cases hne : rest = []
  · subst hne
    refine ⟨_, _, if_pos rfl, ?_⟩
    rw [decoded_nil]
    rfl
  dsimp only
  rw [if_neg hne, scanSize_eq hrest]
  by_cases hascii : scanFlags rest = 0
  · obtain ⟨-, hsmall⟩ := ascii_of_flags hrest (show scanFlags rest ||| 0 = 0 by rw [hascii]; rfl)
    obtain ⟨y, hy⟩ := run_ascii hsmall 0
    refine ⟨_, _, if_pos hascii, ?_⟩
    rw [decoded_of_run (congrArg Prod.fst hy), hy]
    change Except.ok rest = Except.ok (utf16 rest)
    rw [utf16_ascii hsmall]
  have hchosen := (chosen_spec hagrees (s := (.start, 0)) trivial hne hrest (size_suffices hrest)).1
  have hflag : scanFlags rest ||| carryFlag (.start, 0) = scanFlags rest := Nat.or_zero _
  rw [hflag] at hchosen
  rw [if_neg hascii]
  by_cases hdone : ∃ y, (run (.start, 0) rest).1 = some (.start, y)
  · obtain ⟨y, hrun⟩ := hdone
    have hbalance := run_balance (s := (.start, 0)) trivial hrest hrun
    have hnil : pending (.start, 0) = [] ∧ pending (.start, y) = [] := ⟨rfl, rfl⟩
    rw [hnil.1, hnil.2, sizeOfBytes_nil, Nat.zero_add, Nat.add_zero] at hbalance
    obtain ⟨d, hresult, hstate, -⟩ := hrun ▸ hchosen
    rw [hbalance, Nat.sub_self, filled_zero] at hresult
    refine ⟨d, .ok (utf16 (run (.start, 0) rest).2), ?_, ?_⟩
    · rw [hbalance, hresult, Lib.some_bind]
      exact if_pos hstate.1
    · rw [decoded_of_run hrun]
      rfl
  -- the fast decoder comes to an error, or to the end inside a character
  obtain ⟨d, text, hresult, hstate, hsame⟩ : ∃ d text,
      decodeByFlags (fresh allowMalformed) (scanFlags rest) rest (sizeOfBytes rest) =
        some (d, text) ∧ d.state ≠ IA ∧ SameInput (fresh allowMalformed) d := by
    cases hrun : (run (.start, 0) rest).1 with
    | some s =>
      obtain ⟨d, hresult, hstate, hsame⟩ := hrun ▸ hchosen
      refine ⟨d, _, hresult, fun hIA => ?_, hsame⟩
      obtain ⟨p, y⟩ := s
      rw [hstate.1] at hIA
      exact hdone ⟨y, by rw [hrun, show p = .start from code_eq_IA.1 hIA]⟩
    | none =>
      obtain ⟨d, hresult, hstate, hsame⟩ := hrun ▸ hchosen
      refine ⟨d, _, hresult, fun hIA => ?_, hsame⟩
      rw [hIA] at hstate
      exact absurd hstate (by decide)
  rw [hresult, Lib.some_bind]
  rw [if_neg hstate]
  cases allowMalformed with
  | false =>
    have hnone : whole false (decoded false (.start, 0) rest) = none := by
      change (run (.start, 0) rest).1.bind _ = none
      cases hrun : (run (.start, 0) rest).1 with
      | none => rfl
      | some s =>
        obtain ⟨p, y⟩ := s
        have hp : p ≠ .start := fun hp => hdone ⟨y, by rw [hrun, hp]⟩
        simp [hp]
    rw [hnone]
    exact ⟨_, _, rfl, _, rfl⟩
  | true =>
    obtain ⟨d', hgeneral, -⟩ := decodeGeneral_spec (d := { d with state := IA }) hsame.1
      (s := (.start, 0)) ⟨rfl, fun h => absurd rfl h⟩ trivial hne hrest true
    refine ⟨d', .ok (utf16 (finish (replaceRun (.start, 0) rest))), ?_, ?_⟩
    · simp only [fresh, Bool.not_true, Bool.false_eq_true, if_false, hgeneral]
      rfl
    · rw [whole_of_replaceRun]
      rfl

/-! ## The byte order mark in slices -/

/-- How much of a byte order mark has been seen, if it can still come. -/
def bomIndexOf : List Nat → Int
  | [] => 0
  | [0xEF] => 1
  | [0xEF, 0xBB] => 2
  | _ => -1

theorem skipBomSingle_of_ne
    (h : ∀ rest, bytes ≠ 0xEF :: 0xBB :: 0xBF :: rest) : skipBomSingle bytes = bytes := by
  unfold skipBomSingle
  split
  · exact absurd rfl (h _)
  · rfl

/-- The three ways a byte order mark can go on. -/
inductive BomStep (d : Decoder) (seen bytes : List Nat) : Decoder × List Nat → Prop
  | complete {rest : List Nat} (h : seen ++ bytes = 0xEF :: 0xBB :: 0xBF :: rest)
      (hsub : ∀ b ∈ rest, b ∈ bytes) :
      BomStep d seen bytes ({ d with bomIndex := -1, state := IA }, rest)
  | partly (h : seen ++ bytes = [] ∨ seen ++ bytes = [0xEF] ∨ seen ++ bytes = [0xEF, 0xBB]) :
      BomStep d seen bytes ({ d with bomIndex := bomIndexOf (seen ++ bytes) }, bytes)
  | none (h : ∀ rest, seen ++ bytes ≠ 0xEF :: 0xBB :: 0xBF :: rest)
      (hindex : bomIndexOf (seen ++ bytes) = -1) :
      BomStep d seen bytes ({ d with bomIndex := -1 }, bytes)

theorem BomStep.of_mismatch (h : ∀ rest, seen ++ bytes ≠ 0xEF :: 0xBB :: 0xBF :: rest)
    (hindex : bomIndexOf (seen ++ bytes) = -1) {r : Decoder × List Nat}
    (hr : r = ({ d with bomIndex := -1 }, bytes)) : BomStep d seen bytes r := by
  rw [hr]
  exact BomStep.none h hindex

theorem bomStep_two (hseen : seen ++ bytes = 0xEF :: 0xBB :: rest)
    (hsub : ∀ b ∈ rest, b ∈ bytes) : BomStep d seen bytes (skipBomLoop d bytes rest 2) := by
  match rest with
  | [] =>
    have hloop : skipBomLoop d bytes [] 2 =
        ({ d with bomIndex := bomIndexOf (seen ++ bytes) }, bytes) := by rw [hseen]; rfl
    rw [hloop]
    exact BomStep.partly (.inr (.inr hseen))
  | b :: rest =>
    by_cases hb : b = 0xBF
    · subst hb
      have hloop : skipBomLoop d bytes (0xBF :: rest) 2 =
          ({ d with bomIndex := -1, state := IA }, rest) := by simp [skipBomLoop]
      rw [hloop]
      exact BomStep.complete hseen (fun x hx => hsub x (by simp [hx]))
    · refine BomStep.of_mismatch (fun rest' h => hb ?_) (by rw [hseen]; rfl) (if_pos hb)
      rw [hseen] at h
      simp only [cons.injEq, true_and] at h
      exact h.1

theorem bomStep_one (hseen : seen ++ bytes = 0xEF :: rest)
    (hsub : ∀ b ∈ rest, b ∈ bytes) : BomStep d seen bytes (skipBomLoop d bytes rest 1) := by
  match rest with
  | [] =>
    have hloop : skipBomLoop d bytes [] 1 =
        ({ d with bomIndex := bomIndexOf (seen ++ bytes) }, bytes) := by rw [hseen]; rfl
    rw [hloop]
    exact BomStep.partly (.inr (.inl hseen))
  | b :: rest =>
    by_cases hb : b = 0xBB
    · subst hb
      exact bomStep_two hseen (fun x hx => hsub x (by simp [hx]))
    · refine BomStep.of_mismatch (fun rest' h => hb ?_) ?_ (if_pos hb)
      · rw [hseen] at h
        simp only [cons.injEq, true_and] at h
        exact h.1
      · rw [hseen, bomIndexOf]
        all_goals simp [hb]

theorem bomStep_zero : BomStep d [] bytes (skipBomLoop d bytes bytes 0) := by
  match bytes with
  | [] => exact BomStep.partly (.inl rfl)
  | b :: rest =>
    by_cases hb : b = 0xEF
    · subst hb
      exact bomStep_one rfl (fun x hx => by simp [hx])
    · refine BomStep.of_mismatch (fun rest' h => hb ?_) ?_ (if_pos hb)
      · simp only [nil_append, cons.injEq] at h
        exact h.1
      · rw [nil_append, bomIndexOf]
        all_goals simp [hb]

/-- The decoder after all the bytes so far. -/
structure Follows (allowMalformed : Bool) (bytes : List Nat) (d : Decoder) (s : Config)
    (out : List Nat) : Prop where
  decoded : decoded allowMalformed (.start, 0) (skipBomSingle bytes) = (some s, out)
  agrees : Agrees d s
  fits : Fits s
  malformed : d.allowMalformed = allowMalformed
  index : d.bomIndex = bomIndexOf bytes

theorem follows_fresh (allowMalformed : Bool) :
    Follows allowMalformed [] (fresh allowMalformed) (.start, 0) [] where
  decoded := decoded_nil allowMalformed (.start, 0)
  agrees := ⟨rfl, fun h => absurd rfl h⟩
  fits := trivial
  malformed := rfl
  index := rfl

theorem bomIndexOf_cases (bytes : List Nat) :
    bomIndexOf bytes = 0 ∧ bytes = [] ∨ bomIndexOf bytes = 1 ∧ bytes = [0xEF] ∨
      bomIndexOf bytes = 2 ∧ bytes = [0xEF, 0xBB] ∨ bomIndexOf bytes = -1 := by
  unfold bomIndexOf
  split <;> simp

theorem skipBomSingle_append (h : bomIndexOf bytes = -1) (slice : List Nat) :
    skipBomSingle (bytes ++ slice) = skipBomSingle bytes ++ slice := by
  by_cases hbom : ∃ rest, bytes = 0xEF :: 0xBB :: 0xBF :: rest
  · obtain ⟨rest, rfl⟩ := hbom
    rfl
  have hne : ∀ rest, bytes ≠ 0xEF :: 0xBB :: 0xBF :: rest := fun rest hrest => hbom ⟨rest, hrest⟩
  rw [skipBomSingle_of_ne hne, skipBomSingle_of_ne]
  intro rest happend
  match bytes with
  | [] => cases h
  | [a] =>
    obtain rfl : a = 0xEF := (cons.inj happend).1
    cases h
  | [a, b] =>
    obtain ⟨rfl, hb⟩ := cons.inj happend
    obtain rfl : b = 0xBB := (cons.inj hb).1
    cases h
  | a :: b :: c :: tail =>
    obtain ⟨rfl, rfl, rfl, -⟩ := happend
    exact hne tail rfl

theorem bomIndexOf_append (h : bomIndexOf bytes = -1) (slice : List Nat) :
    bomIndexOf (bytes ++ slice) = -1 := by
  -- a beginning of the mark has only beginnings before it
  have hsplit : ∀ {l : List Nat}, bytes ++ slice = l → l <+: [0xEF, 0xBB] →
      bytes = [] ∨ bytes = [0xEF] ∨ bytes = [0xEF, 0xBB] := by
    intro l hl hprefix
    have hbytes : bytes <+: [0xEF, 0xBB] := (prefix_append bytes slice).trans (hl ▸ hprefix)
    have hcases : bytes = [] ∨ ∃ t, bytes = 0xEF :: t ∧ (t = [] ∨ t = [0xBB]) := by
      simpa [prefix_cons_iff] using hbytes
    rcases hcases with hnil | ⟨t, hcons, rfl | rfl⟩
    · exact .inl hnil
    · exact .inr (.inl hcons)
    · exact .inr (.inr hcons)
  have hno : ¬ (bytes = [] ∨ bytes = [0xEF] ∨ bytes = [0xEF, 0xBB]) := by
    rintro (rfl | rfl | rfl) <;> cases h
  rcases bomIndexOf_cases (bytes ++ slice) with ⟨-, hc⟩ | ⟨-, hc⟩ | ⟨-, hc⟩ | hc
  · exact absurd (hsplit hc (by simp)) hno
  · exact absurd (hsplit hc (by simp)) hno
  · exact absurd (hsplit hc (by simp)) hno
  · exact hc

/-- Skipping the byte order mark of a slice leaves what continues the run. -/
theorem skipBomChunked_spec (h : Follows allowMalformed bytes d s out) (slice : List Nat) :
    ∃ d' rest t, skipBomChunked d slice = (d', rest) ∧ d'.allowMalformed = allowMalformed ∧
      d'.bomIndex = bomIndexOf (bytes ++ slice) ∧ Agrees d' t ∧ Fits t ∧
      (∀ b ∈ rest, b ∈ slice) ∧
      decoded allowMalformed (.start, 0) (skipBomSingle (bytes ++ slice)) =
        ((decoded allowMalformed t rest).1, out ++ (decoded allowMalformed t rest).2) := by
  by_cases hindex : bomIndexOf bytes = -1
  · refine ⟨d, slice, s, if_pos (h.index.trans hindex), h.malformed, ?_, h.agrees, h.fits,
      fun b hb => hb, ?_⟩
    · rw [h.index, hindex, bomIndexOf_append hindex]
    · rw [skipBomSingle_append hindex]
      exact decoded_append h.decoded slice
  -- until now there was only a beginning of the mark, and no text
  obtain ⟨hstep, hsingle, hout⟩ : BomStep d bytes slice (skipBomChunked d slice) ∧
      skipBomSingle bytes = bytes ∧ out = [] := by
    have hfollows := h.decoded
    rw [skipBomChunked, h.index, if_neg hindex]
    rcases bomIndexOf_cases bytes with ⟨hc, rfl⟩ | ⟨hc, rfl⟩ | ⟨hc, rfl⟩ | hc
    · refine ⟨bomStep_zero, rfl, ?_⟩
      cases allowMalformed <;> exact (congrArg Prod.snd hfollows).symm
    · refine ⟨bomStep_one rfl (fun b hb => hb), rfl, ?_⟩
      cases allowMalformed <;> exact (congrArg Prod.snd hfollows).symm
    · refine ⟨bomStep_two rfl (fun b hb => hb), rfl, ?_⟩
      cases allowMalformed <;> exact (congrArg Prod.snd hfollows).symm
    · exact absurd hc hindex
  have happend : ∀ rest, skipBomSingle (bytes ++ slice) = bytes ++ slice → rest = slice →
      decoded allowMalformed (.start, 0) (skipBomSingle (bytes ++ slice)) =
        ((decoded allowMalformed s rest).1, out ++ (decoded allowMalformed s rest).2) := by
    rintro rest hskip rfl
    rw [hskip]
    exact decoded_append (hsingle ▸ h.decoded) rest
  generalize skipBomChunked d slice = r at hstep
  cases hstep with
  | @complete rest hbom hsub =>
    refine ⟨_, rest, (.start, 0), rfl, h.malformed, ?_, ⟨rfl, fun hne => absurd rfl hne⟩, trivial,
      hsub, ?_⟩
    · rw [hbom]
      rfl
    · rw [hbom, hout]
      rfl
  | partly hpart =>
    refine ⟨_, slice, s, rfl, h.malformed, rfl, h.agrees, h.fits, fun b hb => hb,
      happend slice ?_ rfl⟩
    rcases hpart with hp | hp | hp <;> rw [hp] <;> rfl
  | none hne hnone =>
    exact ⟨_, slice, s, rfl, h.malformed, hnone.symm, h.agrees, h.fits, fun b hb => hb,
      happend slice (skipBomSingle_of_ne hne) rfl⟩

/-- A slice continues the run, or comes to an error. -/
theorem convertChunked_follows {slice : List Nat}
    (h : Follows allowMalformed bytes d s out) (hslice : ∀ b ∈ slice, b < 256) :
    (∃ d' t more, convertChunked d slice = some (d', .ok (utf16 more)) ∧
      Follows allowMalformed (bytes ++ slice) d' t (out ++ more)) ∨
    (∃ d' e, convertChunked d slice = some (d', .error e) ∧
      (decoded allowMalformed (.start, 0) (skipBomSingle (bytes ++ slice))).1 = none) := by
  obtain ⟨d', rest, t, hskip, hmalformed, hindex, hagrees, hfits, hsub, hdecoded⟩ :=
    skipBomChunked_spec h slice
  have hrest : ∀ b ∈ rest, b < 256 := fun b hb => hslice b (hsub b hb)
  have hconvert := convertChunked_spec hskip hagrees hfits hrest
  rw [hmalformed] at hconvert
  cases hrun : (decoded allowMalformed t rest).1 with
  | some t' =>
    rw [Converts, hrun] at hconvert
    obtain ⟨d'', hresult, hagrees', hsame⟩ := hconvert
    refine .inl ⟨d'', t', _, hresult, ?_, hagrees', decoded_fits hfits hrest hrun,
      hsame.1.trans hmalformed, hsame.2.trans hindex⟩
    rw [hdecoded, hrun]
  | none =>
    rw [Converts, hrun] at hconvert
    obtain ⟨d'', e, hresult⟩ := hconvert
    exact .inr ⟨d'', e, hresult, by rw [hdecoded]; exact hrun⟩

/-! ## The writes of a slice -/

/-- The string holds the writes, and without an error state each position is written once. -/
def Allocation.Exact (a : Allocation) (converted : Option (Decoder × Converted)) : Prop :=
  (∀ w ∈ a.writes, w.2 < a.size ∧ w.1 < 2 ^ a.width) ∧
    ∃ d text, a.result = some (d, if isErrorState d.state then [] else text) ∧
      doWrites a.writes (List.replicate a.size 0) = some text ∧
      (isErrorState d.state = false →
        a.writes.map Prod.snd = List.range a.size ∧ converted = some (d, .ok text))

/-- A decoder between two slices. -/
def Carries (d : Decoder) : Prop := ∃ s, Agrees d s ∧ Fits s

theorem carries_of_IA (h : d.state = IA) : Carries d :=
  ⟨(.start, 0), ⟨h, fun hne => absurd rfl hne⟩, trivial⟩

theorem skipBomLoop_carries (hd : Carries d) (hrest : ∀ b ∈ rest, b ∈ bytes) (k : Nat) :
    Carries (skipBomLoop d bytes rest k).1 ∧ ∀ b ∈ (skipBomLoop d bytes rest k).2, b ∈ bytes := by
  fun_induction skipBomLoop with
  | case1 => exact ⟨carries_of_IA rfl, hrest⟩
  | case2 | case3 => exact ⟨hd, fun _ hb => hb⟩
  | case4 byte rest k _ _ ih => exact ih (fun b hb => hrest b (by simp [hb]))

theorem skipBomChunked_carries (hd : Carries d) (hskip : skipBomChunked d bytes = (d', rest)) :
    Carries d' ∧ ∀ b ∈ rest, b ∈ bytes := by
  rw [skipBomChunked] at hskip
  split_ifs at hskip
  · cases hskip
    exact ⟨hd, fun _ hb => hb⟩
  · have hloop := skipBomLoop_carries hd (fun b (hb : b ∈ bytes) => hb) d.bomIndex.toNat
    rw [hskip] at hloop
    exact hloop

theorem convertChunked_error {e : FormatException}
    (h : convertChunked d bytes = some (d', .error e)) : d'.state = IA := by
  rw [convertChunked] at h
  dsimp only at h
  split at h
  · cases h
  split at h
  · cases h
  obtain ⟨⟨d₁, text⟩, -, h⟩ := Option.bind_eq_some_iff.1 h
  split at h
  · cases h
  split at h
  · cases h
    rfl
  · obtain ⟨⟨d₂, text'⟩, -, h⟩ := Option.bind_eq_some_iff.1 h
    cases h

/-- The decoders that slices lead to; a decoder takes more slices after an exception. -/
inductive Reachable : Decoder → Prop
  | fresh (allowMalformed : Bool) : Reachable (fresh allowMalformed)
  | convert {d d' : Decoder} {slice : List Nat} {r : Converted} (hd : Reachable d)
      (hslice : ∀ b ∈ slice, b < 256) (h : convertChunked d slice = some (d', r)) : Reachable d'

theorem Reachable.carries (h : Reachable d) : Carries d := by
  induction h with
  | fresh => exact carries_of_IA rfl
  | @convert d d' slice r hd hslice h ih =>
    obtain ⟨d₁, rest, hskip⟩ : ∃ d₁ rest, skipBomChunked d slice = (d₁, rest) := ⟨_, _, rfl⟩
    obtain ⟨⟨s, hagrees, hfits⟩, hrest⟩ := skipBomChunked_carries ih hskip
    have hbytes : ∀ b ∈ rest, b < 256 := fun b hb => hslice b (hrest b hb)
    have hconvert := convertChunked_spec hskip hagrees hfits hbytes
    rw [Converts, h] at hconvert
    split at hconvert
    · obtain ⟨_, heq, hagrees', -⟩ := hconvert
      cases heq
      exact ⟨_, hagrees', decoded_fits hfits hbytes ‹_›⟩
    · obtain ⟨_, e, heq⟩ := hconvert
      cases heq
      exact carries_of_IA (convertChunked_error h)

/-- Decoding a slice writes exactly the string that was allocated. -/
theorem allocate_exact {d d₁ : Decoder} {slice rest : List Nat} (hd : Reachable d)
    (hslice : ∀ b ∈ slice, b < 256) (hskip : skipBomChunked d slice = (d₁, rest))
    (hne : rest ≠ []) :
    (allocate d₁ rest).Exact (convertChunked d slice) := by
  obtain ⟨⟨s, hagrees, hfits⟩, hrest⟩ := skipBomChunked_carries hd.carries hskip
  have hbytes : ∀ b ∈ rest, b < 256 := fun b hb => hslice b (hrest b hb)
  rw [convertChunked, hskip, allocate]
  dsimp only
  rw [if_neg hne, carryOver_eq hagrees hfits, scanSize_eq hbytes]
  by_cases hzero : scanFlags rest ||| carryFlag s = 0
  · obtain ⟨hcarry, hsmall⟩ := ascii_of_flags hbytes hzero
    obtain ⟨p, c⟩ := s
    obtain rfl : p = .start := start_of_carryFlag hcarry
    obtain ⟨y, hy⟩ := run_ascii hsmall c
    have hrun := congrArg Prod.fst hy
    have hsize := room_of_some hfits hbytes hrun
    have hdone : unfinishedSize rest.reverse 0 = 0 :=
      (unfinishedSize_run hfits hbytes hrun 0).trans (if_neg fun h => Nat.lt_irrefl 0 h.2)
    rw [hy, utf16_ascii hsmall, chunkSize, hdone, Nat.sub_zero] at hsize
    rw [if_pos hzero, if_pos hzero, ← hsize, take_length]
    have hdo := doWrites_filled rest [] (Nat.le_refl _)
    refine ⟨fun w hw => ⟨?_, hbytes _ (fst_mem_of_mem_zipIdx hw)⟩, d₁, rest, ?_, ?_,
      fun _ => ⟨?_, rfl⟩⟩
    · simpa using snd_lt_of_mem_zipIdx hw
    · rw [hagrees.1, isErrorState_code]
      rfl
    · simpa [filled] using hdo
    · rw [zipIdx_map_snd, range_eq_range']
  have hroom := room_le hfits hbytes
  obtain ⟨hresult, hwrites, hwidth⟩ := chosen_spec hagrees hfits hne hbytes hroom
  have hdo := doWrites_filled (utf16 (run s rest).2) [] hroom
  rw [length_nil, ← hwrites, nil_append] at hdo
  rw [if_neg hzero, if_neg hzero]
  refine ⟨fun w hw => ⟨?_, hwidth w hw⟩, ?_⟩
  · dsimp only at hw
    rw [hwrites] at hw
    exact Nat.lt_of_lt_of_le (by simpa using snd_lt_of_mem_zipIdx hw) hroom
  cases hrun : (run s rest).1 with
  | none =>
    rw [hrun] at hresult
    obtain ⟨d', hd', hstate, -⟩ := hresult
    exact ⟨d', _, by rw [if_pos hstate]; exact hd', hdo, fun h => by simp [hstate] at h⟩
  | some s' =>
    rw [hrun] at hresult
    obtain ⟨d', hd', hagrees', -⟩ := hresult
    have hstate : isErrorState d'.state = false := by rw [hagrees'.1, isErrorState_code]
    refine ⟨d', _, by rw [hstate]; exact hd', hdo, fun _ => ⟨?_, ?_⟩⟩
    · dsimp only
      rw [hwrites, zipIdx_map_snd, room_of_some hfits hbytes hrun, range_eq_range']
      rfl
    · rw [chunkSize] at hd'
      simp [hd', hstate, chunkSize]

/-- The first slice ends in the middle of a character, and so does the second. -/
theorem allocate_exact_carried : ∃ d r d', convertChunked (fresh false) [0x61, 0xC3] = some (d, r) ∧
    d.state ≠ IA ∧ skipBomChunked d [0xA9, 0x62, 0xE2, 0x82] = (d, [0xA9, 0x62, 0xE2, 0x82]) ∧
      convertChunked d [0xA9, 0x62, 0xE2, 0x82] = some (d', .ok [0xE9, 0x62]) ∧
        (allocate d [0xA9, 0x62, 0xE2, 0x82]).Exact
          (convertChunked d [0xA9, 0x62, 0xE2, 0x82]) := by
  have hslice : ∀ b ∈ [0x61, 0xC3], b < 256 := by decide
  have hd : Reachable _ := .convert (.fresh false) hslice rfl
  exact ⟨_, _, _, rfl, by decide, rfl, rfl, allocate_exact hd (by decide) rfl (by decide)⟩

end Dart2Wasm.Utf8
