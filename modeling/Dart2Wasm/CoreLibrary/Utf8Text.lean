import Dart2Wasm.CoreLibrary.Utf8Automaton

/-!
# Utf8Text — what the automaton reads

`encode` is the UTF-8 encoding of a character, and `pending` are the bytes of the character that a
configuration has begun. A run reads the encoding of the characters it comes by and leaves what is
pending: `run_reads`. So it ends between two characters exactly if the bytes are well-formed.

`Mends` says what replacing ill-formed bytes means, without the automaton: a part without a single
encoded character, up to the next encoded character or the end, becomes some replacement characters.
-/

namespace Dart2Wasm.Utf8

open Phase List

variable {c a : Nat} {bs cs : List Nat}

/-! ## Characters and their encoding -/

/-- A code point that is not a surrogate. -/
def Scalar (c : Nat) : Prop := c < 0xD800 ∨ 0xDFFF < c ∧ c ≤ 0x10FFFF

instance : DecidablePred Scalar := fun _ => inferInstanceAs (Decidable (_ ∨ _))

def encode (c : Nat) : List Nat :=
  if c < 0x80 then [c]
  else if c < 0x800 then [0xC0 + c / 64, 0x80 + c % 64]
  else if c < 0x10000 then [0xE0 + c / 4096, 0x80 + c / 64 % 64, 0x80 + c % 64]
  else [0xF0 + c / 262144, 0x80 + c / 4096 % 64, 0x80 + c / 64 % 64, 0x80 + c % 64]

/-- The bytes encode the characters, which are none of the surrogates. -/
def Encodes (cs bytes : List Nat) : Prop :=
  (∀ c ∈ cs, Scalar c) ∧ bytes = cs.flatMap encode

/-- The bytes of the character that has been begun. -/
def pending : Config → List Nat
  | (.start, _) => []
  | (.one, c) =>
    if c < 0x20 then [0xC0 + c]
    else if c < 0x400 then [0xE0 + c / 64, 0x80 + c % 64]
    else [0xF0 + c / 4096, 0x80 + c / 64 % 64, 0x80 + c % 64]
  | (.two, c) => if c < 0x10 then [0xE0 + c] else [0xF0 + c / 64, 0x80 + c % 64]
  | (.threeLow, c) => [0xE0 + c]
  | (.threeHigh, c) => [0xE0 + c]
  | (.three, c) => [0xF0 + c]
  | (.fourLow, c) => [0xF0 + c]
  | (.fourHigh, c) => [0xF0 + c]

/-- The value bits that occur in a phase. -/
def Fits : Config → Prop
  | (.start, _) => True
  | (.one, c) => 2 ≤ c ∧ c < 0x4400 ∧ ¬ (0x360 ≤ c ∧ c < 0x380)
  | (.two, c) => 1 ≤ c ∧ c < 0x110 ∧ c ≠ 0xD
  | (.threeLow, c) => c = 0
  | (.threeHigh, c) => c = 0xD
  | (.three, c) => 1 ≤ c ∧ c < 4
  | (.fourLow, c) => c = 0
  | (.fourHigh, c) => c = 4

instance : DecidablePred Fits
  | (.start, _) => inferInstanceAs (Decidable True)
  | (.one, _) => inferInstanceAs (Decidable (_ ∧ _))
  | (.two, _) => inferInstanceAs (Decidable (_ ∧ _))
  | (.threeLow, _) => inferInstanceAs (Decidable (_ = _))
  | (.threeHigh, _) => inferInstanceAs (Decidable (_ = _))
  | (.three, _) => inferInstanceAs (Decidable (_ ∧ _))
  | (.fourLow, _) => inferInstanceAs (Decidable (_ = _))
  | (.fourHigh, _) => inferInstanceAs (Decidable (_ = _))

/-- How many extension bytes are missing. -/
def Phase.missing : Phase → Nat
  | .start => 0
  | .one => 1
  | .two => 2
  | .threeLow => 2
  | .threeHigh => 2
  | .three => 3
  | .fourLow => 3
  | .fourHigh => 3

variable {p : Phase}

theorem missing_eq_zero : p.missing = 0 ↔ p = .start := by
  cases p <;> simp [missing]

/-- The extension bytes that a first byte asks for. -/
def leadMissing (b : Nat) : Nat :=
  if b < 0xC0 then 0 else if b < 0xE0 then 1 else if b < 0xF0 then 2 else 3

/-! ## One byte -/

/-- What is read when a byte leads to a phase with the value bits `c`. -/
def Reads (s : Config) (b : Nat) (p : Phase) (c : Nat) : Prop :=
  Fits (p, c) ∧
    (p = .start → Scalar c ∧ encode c = pending s ++ [b]) ∧
    (p ≠ .start → pending (p, c) = pending s ++ [b])

/-- A first byte: its range, what is read and the missing bytes. -/
def StartsWell (b : Nat) (p : Phase) : Prop :=
  (b < 0x80 ∨ 0xC2 ≤ b ∧ b < 0xF5) ∧ p.missing = leadMissing b ∧
    Reads (.start, 0) b p (leadValue b)

instance (b : Nat) : DecidablePred (StartsWell b) := fun _ =>
  inferInstanceAs (Decidable (_ ∧ _ ∧ _ ∧ (_ → _ ∧ _) ∧ (_ → _)))

def startsWell (b : Nat) : Bool :=
  match Phase.start.step b with
  | .ok p => StartsWell b p
  | .error _ => true

variable {b b : Nat}

theorem start_step (hb : b < 256) (h : start.step b = .ok p) : StartsWell b p := by
  have htable : ∀ b < 256, startsWell b = true := forall_byte (by decide +kernel)
  have hwell := htable b hb
  rw [startsWell, h] at hwell
  exact of_decide_eq_true hwell

theorem encode_extend (hb : 0x80 ≤ b ∧ b < 0xC0) (hfits : Fits (.one, c)) :
    Scalar (c * 64 + (b - 0x80)) ∧ encode (c * 64 + (b - 0x80)) = pending (.one, c) ++ [b] := by
  simp only [Fits] at hfits
  obtain ⟨x, rfl⟩ : ∃ x, b = 0x80 + x := ⟨b - 0x80, by omega⟩
  refine ⟨by unfold Scalar; omega, ?_⟩
  simp only [encode, pending]
  split_ifs <;> first | omega | (simp only [cons_append, nil_append, cons.injEq, and_true]; omega)

variable {s : Config} {bytes : List Nat}

/-- An extension byte: what is read and the missing bytes. -/
theorem ext_step (hs : s.1 ≠ .start) (hfits : Fits s) (h : s.1.step b = .ok p) :
    (0x80 ≤ b ∧ b < 0xC0) ∧ p.missing + 1 = s.1.missing ∧ Reads s b p (extendChar s b) := by
  obtain ⟨q, c⟩ := s
  have hchar : extendChar (q, c) b = c * 64 + (b - 0x80) := if_neg hs
  cases q with
  | start => exact absurd rfl hs
  | one =>
    simp only [step] at h
    split at h <;> cases h
    next hb => exact ⟨hb, rfl, trivial, fun _ => encode_extend hb hfits, fun h => absurd rfl h⟩
  | _ =>
    simp only [step] at h
    simp only [Fits] at hfits
    (repeat' split at h) <;> cases h
    all_goals refine ⟨by omega, rfl, ?_, by rintro ⟨⟩, fun _ => ?_⟩
    all_goals simp only [Fits, pending]
    all_goals try split_ifs
    all_goals first
      | omega
      | (simp only [cons_append, nil_append, cons.injEq, and_true]; omega)

theorem step_reads (hb : b < 256) (hfits : Fits s)
    (h : s.1.step b = .ok p) : Reads s b p (extendChar s b) := by
  by_cases hs : s.1 = .start
  · obtain ⟨q, c⟩ := s
    cases hs
    exact (start_step hb h).2.2
  · exact (ext_step hs hfits h).2.2

/-! ## Runs -/

theorem run_cons (h : s.1.step b = .ok p) (bs : List Nat) :
    run s (b :: bs) =
      ((run (p, extendChar s b) bs).1,
        (if p = .start then [extendChar s b] else []) ++ (run (p, extendChar s b) bs).2) := by
  rw [run, h]

/-- A run reads the characters that it comes by, and what is pending. -/
theorem run_reads {s s' : Config} (hfits : Fits s) (hbytes : ∀ b ∈ bs, b < 256)
    (h : (run s bs).1 = some s') :
    Fits s' ∧ (∀ c ∈ (run s bs).2, Scalar c) ∧
      pending s ++ bs = (run s bs).2.flatMap encode ++ pending s' := by
  induction bs generalizing s with
  | nil =>
    cases h
    exact ⟨hfits, nofun, by simp [run]⟩
  | cons b bs ih =>
    cases hstep : s.1.step b with
    | error e =>
      rw [run, hstep] at h
      cases h
    | ok p =>
      rw [run_cons hstep] at h ⊢
      obtain ⟨hfits', hdone, hgoes⟩ := step_reads (hbytes b (by simp)) hfits hstep
      obtain ⟨hlast, hscalar, htext⟩ := ih hfits' (fun x hx => hbytes x (by simp [hx])) h
      refine ⟨hlast, ?_, ?_⟩
      · intro c hc
        rcases mem_append.1 hc with hc | hc
        · split at hc
          next hp =>
            rw [mem_singleton.1 hc]
            exact (hdone hp).1
          · cases hc
        · exact hscalar c hc
      · by_cases hp : p = .start
        · subst hp
          have htext' : bs = _ := htext
          rw [if_pos rfl, singleton_append, flatMap_cons, (hdone rfl).2, append_assoc, ← htext']
          simp
        · rw [if_neg hp, nil_append, ← htext, hgoes hp]
          simp

/-- A run with an error reads up to a byte that has no place there. -/
theorem run_error (h : (run s bs).1 = none) :
    ∃ pre b post s' e, bs = pre ++ b :: post ∧ run s pre = (some s', (run s bs).2) ∧
      s'.1.step b = .error e := by
  induction bs generalizing s with
  | nil => cases h
  | cons b bs ih =>
    cases hstep : s.1.step b with
    | error e => exact ⟨[], b, bs, s, e, rfl, by simp [run, hstep], hstep⟩
    | ok p =>
      rw [run_cons hstep] at h
      obtain ⟨pre, x, post, s', e, hbs, hrun, herror⟩ := ih h
      refine ⟨b :: pre, x, post, s', e, by rw [hbs]; rfl, ?_, herror⟩
      rw [run_cons hstep, run_cons hstep, hrun]

theorem run_inner {q p : Phase} (c : Nat) (hq : q ≠ .start) (hp : p ≠ .start) (h : q.step b = .ok p)
    (bs : List Nat) : run (q, c) (b :: bs) = run (p, c * 64 + (b - 0x80)) bs := by
  have hchar : extendChar (q, c) b = c * 64 + (b - 0x80) := if_neg hq
  rw [run_cons (s := (q, c)) h, hchar, if_neg hp, nil_append]

theorem run_last (c : Nat) (hb : 0x80 ≤ b ∧ b < 0xC0) (bs : List Nat) :
    run (.one, c) (b :: bs) =
      ((run (.start, c * 64 + (b - 0x80)) bs).1,
        (c * 64 + (b - 0x80)) :: (run (.start, c * 64 + (b - 0x80)) bs).2) := by
  have hstep : one.step b = .ok .start := if_pos hb
  have hchar : extendChar (.one, c) b = c * 64 + (b - 0x80) := if_neg nofun
  rw [run_cons (s := (.one, c)) hstep, hchar, if_pos rfl, singleton_append]

theorem run_lead (x : Nat) (hp : p ≠ .start) (h : start.step b = .ok p) (bs : List Nat) :
    run (.start, x) (b :: bs) = run (p, leadValue b) bs := by
  rw [run_cons (s := (.start, x)) h, extendChar_start, if_neg hp, nil_append]

theorem start_one (hlow : 0xC2 ≤ b) (hhigh : b < 0xE0) : start.step b = .ok .one := by
  rw [step, if_neg (by omega), if_neg (by omega), if_neg (by omega), if_pos hhigh]

theorem start_two (hlow : 0xE0 < b) (hhigh : b < 0xF0) (hne : b ≠ 0xED) :
    start.step b = .ok .two := by
  rw [step, if_neg (by omega), if_neg (by omega), if_neg (by omega), if_neg (by omega),
    if_neg (by omega), if_neg hne, if_pos hhigh]

theorem start_three (hlow : 0xF0 < b) (hhigh : b < 0xF4) : start.step b = .ok .three := by
  rw [step, if_neg (by omega), if_neg (by omega), if_neg (by omega), if_neg (by omega),
    if_neg (by omega), if_neg (by omega), if_neg (by omega), if_neg (by omega), if_pos hhigh]

theorem exists_threeBytes (ha : a < 0x10) (hb : b < 64) (hlow : a = 0 → 0x20 ≤ b)
    (hhigh : a = 0xD → b < 0x20) :
    ∃ p : Phase, p ≠ .start ∧ start.step (0xE0 + a) = .ok p ∧
      p.step (0x80 + b) = .ok .one := by
  by_cases hzero : a = 0
  · refine ⟨.threeLow, by decide, by rw [hzero]; rfl, ?_⟩
    rw [step, if_pos (by omega), if_neg (by omega)]
  by_cases hsurrogate : a = 0xD
  · refine ⟨.threeHigh, by decide, by rw [hsurrogate]; rfl, ?_⟩
    rw [step, if_pos (by omega), if_pos (by omega)]
  · exact ⟨.two, by decide, start_two (by omega) (by omega) (by omega), if_pos (by omega)⟩

theorem exists_fourBytes (ha : a ≤ 4) (hb : b < 64) (hlow : a = 0 → 0x10 ≤ b)
    (hhigh : a = 4 → b < 0x10) :
    ∃ p : Phase, p ≠ .start ∧ start.step (0xF0 + a) = .ok p ∧
      p.step (0x80 + b) = .ok .two := by
  by_cases hzero : a = 0
  · refine ⟨.fourLow, by decide, by rw [hzero]; rfl, ?_⟩
    rw [step, if_pos (by omega), if_neg (by omega)]
  by_cases hfour : a = 4
  · refine ⟨.fourHigh, by decide, by rw [hfour]; rfl, ?_⟩
    rw [step, if_pos (by omega), if_pos (by omega)]
  · exact ⟨.three, by decide, start_three (by omega) (by omega), if_pos (by omega)⟩

/-- A run reads the encoding of a character. -/
theorem run_encode (hc : Scalar c) (x : Nat) (bs : List Nat) :
    run (.start, x) (encode c ++ bs) =
      ((run (.start, c) bs).1, c :: (run (.start, c) bs).2) := by
  unfold Scalar at hc
  have hlast : c / 64 * 64 + (0x80 + c % 64 - 0x80) = c := by omega
  have hext : 0x80 ≤ 0x80 + c % 64 ∧ 0x80 + c % 64 < 0xC0 := by omega
  by_cases h1 : c < 0x80
  · have hstep : start.step c = .ok .start := if_pos h1
    have hvalue : leadValue c = c := if_pos h1
    rw [encode, if_pos h1, singleton_append, run_cons (s := (.start, x)) hstep,
      extendChar_start, hvalue, if_pos rfl, singleton_append]
  by_cases h2 : c < 0x800
  · have hstep : start.step (0xC0 + c / 64) = .ok .one := start_one (by omega) (by omega)
    have hvalue : leadValue (0xC0 + c / 64) = c / 64 := by
      rw [leadValue, if_neg (by omega), if_pos (by omega), Nat.add_sub_cancel_left]
    rw [encode, if_neg h1, if_pos h2]
    simp only [cons_append, nil_append]
    rw [run_lead x (by decide) hstep, hvalue, run_last _ hext, hlast]
  by_cases h3 : c < 0x10000
  · have hvalue : leadValue (0xE0 + c / 4096) = c / 4096 := by
      rw [leadValue, if_neg (by omega), if_neg (by omega), if_pos (by omega),
        Nat.add_sub_cancel_left]
    have hmid : c / 4096 * 64 + (0x80 + c / 64 % 64 - 0x80) = c / 64 := by omega
    obtain ⟨p, hp, hlead, hnext⟩ := exists_threeBytes (a := c / 4096) (b := c / 64 % 64)
      (by omega) (by omega) (by omega) (by omega)
    rw [encode, if_neg h1, if_neg h2, if_pos h3]
    simp only [cons_append, nil_append]
    rw [run_lead x hp hlead, hvalue, run_inner _ hp (by decide) hnext, hmid, run_last _ hext, hlast]
  · have hvalue : leadValue (0xF0 + c / 262144) = c / 262144 := by
      rw [leadValue, if_neg (by omega), if_neg (by omega), if_neg (by omega),
        Nat.add_sub_cancel_left]
    have hsecond : c / 262144 * 64 + (0x80 + c / 4096 % 64 - 0x80) = c / 4096 := by omega
    have hthird : c / 4096 * 64 + (0x80 + c / 64 % 64 - 0x80) = c / 64 := by omega
    obtain ⟨p, hp, hlead, hnext⟩ := exists_fourBytes (a := c / 262144) (b := c / 4096 % 64)
      (by omega) (by omega) (by omega) (by omega)
    have htwo : two.step (0x80 + c / 64 % 64) = .ok .one := if_pos (by omega)
    rw [encode, if_neg h1, if_neg h2, if_neg h3]
    simp only [cons_append, nil_append]
    rw [run_lead x hp hlead, hvalue, run_inner _ hp (by decide) hnext, hsecond,
      run_inner _ (by decide) (by decide) htwo, hthird, run_last _ hext, hlast]

theorem run_encodes (hcs : ∀ c ∈ cs, Scalar c) (x : Nat) :
    ∃ y, run (.start, x) (cs.flatMap encode) = (some (.start, y), cs) := by
  induction cs generalizing x with
  | nil => exact ⟨x, rfl⟩
  | cons c cs ih =>
    obtain ⟨y, hy⟩ := ih (fun c' hc' => hcs c' (by simp [hc'])) c
    exact ⟨y, by rw [flatMap_cons, run_encode (hcs c (by simp)), hy]⟩

/-- A run ends between two characters exactly on well-formed bytes. -/
theorem run_wellFormed (hbytes : ∀ b ∈ bs, b < 256) :
    (∃ y, run (.start, 0) bs = (some (.start, y), cs)) ↔ Encodes cs bs := by
  constructor
  · rintro ⟨y, h⟩
    obtain ⟨-, hscalar, htext⟩ := run_reads (s := (.start, 0)) trivial hbytes (congrArg Prod.fst h)
    rw [h] at hscalar htext
    simp only [pending, nil_append, append_nil] at htext
    exact ⟨hscalar, htext⟩
  · rintro ⟨hscalar, rfl⟩
    exact run_encodes hscalar 0

/-! ## Replacing what is ill-formed -/

/-- An encoded character comes next. -/
def Begins (bytes : List Nat) : Prop := ∃ c, Scalar c ∧ encode c <+: bytes

/-- No part of the bytes is an encoded character. -/
def IllFormed (bytes : List Nat) : Prop := ∀ c, Scalar c → ¬ encode c <:+: bytes

/-- The bytes read with replacements: encoded characters stay, and an ill-formed part, up to the
next encoded character or the end, becomes one or more replacement characters. -/
inductive Mends : List Nat → List Nat → Prop
  | nil : Mends [] []
  | char {c : Nat} {bytes cs : List Nat} (hc : Scalar c) (h : Mends bytes cs) :
      Mends (encode c ++ bytes) (c :: cs)
  | replaced {part bytes cs : List Nat} {k : Nat} (hpart : part ≠ []) (hill : IllFormed part)
      (hend : bytes = [] ∨ Begins bytes) (hk : 0 < k) (h : Mends bytes cs) :
      Mends (part ++ bytes) (List.replicate k replacement ++ cs)

/-- The end of the input inside a character is a replacement. -/
def ended (s : Config) : List Nat := if s.1 = .start then [] else [replacement]

/-- The characters of a whole input. -/
def finish (r : Config × List Nat) : List Nat := r.2 ++ ended r.1

theorem IllFormed.of_infix {l l' : List Nat} (h : IllFormed l) (hl : l' <:+: l) : IllFormed l' :=
  fun c hc hin => h c hc (hin.trans hl)

theorem encode_ne_nil (c : Nat) : encode c ≠ [] := by
  rw [encode]
  split_ifs <;> simp

/-- Replaced bytes go through the first phase. -/
theorem replaceRun_cons (s : Config) (b : Nat) (bs : List Nat) :
    replaceRun s (b :: bs) =
      ((replaceRun (replaceStep s b).1 bs).1,
        (replaceStep s b).2 ++ (replaceRun (replaceStep s b).1 bs).2) := rfl

theorem replaceStep_start (x y b : Nat) :
    replaceStep (.start, x) b = replaceStep (.start, y) b := by
  rw [replaceStep, replaceStep, extendChar_start, extendChar_start]

theorem finish_start (x y : Nat) (bs : List Nat) :
    finish (replaceRun (.start, x) bs) = finish (replaceRun (.start, y) bs) := by
  cases bs with
  | nil => rfl
  | cons b bs => rw [replaceRun_cons, replaceRun_cons, replaceStep_start x y]

/-- Inside a character every byte but an extension byte is an error, and is read again. -/
theorem step_not_ext (hp : p ≠ .start) (hb : ¬ (0x80 ≤ b ∧ b < 0xC0)) : p.step b = .error E1 := by
  cases p with
  | start => exact absurd rfl hp
  | _ => rw [step, if_neg hb]

theorem start_error {e : Nat} (h : start.step b = .error e) : e = E3 ∨ e = E2 := by
  simp only [step] at h
  (repeat' split at h) <;> cases h <;> simp

/-- A step replaces what was begun, or the byte, or both, or goes on from what is not replaced. -/
theorem replaceStep_cases (s : Config) (b : Nat) :
    (∃ k, replaceStep s b = ((.start, 0), replicate (k + 1) replacement)) ∨
    ∃ k t p, (k = 0 ∧ t = s ∨ k = 1 ∧ t = (.start, 0)) ∧ t.1.step b = .ok p ∧
      replaceStep s b = ((p, extendChar t b),
        replicate k replacement ++ if p = .start then [extendChar t b] else []) := by
  rw [replaceStep]
  cases hstep : s.1.step b with
  | ok p => exact .inr ⟨0, s, p, .inl ⟨rfl, rfl⟩, hstep, rfl⟩
  | error e =>
    dsimp only
    split_ifs
    · cases hagain : start.step b with
      | ok p => exact .inr ⟨1, (.start, 0), p, .inr ⟨rfl, rfl⟩, hagain, rfl⟩
      | error e => exact .inl ⟨1, rfl⟩
    · exact .inl ⟨0, rfl⟩
    · exact .inl ⟨1, rfl⟩

theorem replaceStep_again (h : s.1.step b = .error E1) :
    replaceStep s b = ((replaceStep (.start, 0) b).1,
      replacement :: (replaceStep (.start, 0) b).2) := by
  rw [replaceStep, h, replaceStep]
  cases hstep : start.step b with
  | ok p => simp only [if_true, extendChar_start]
  | error e =>
    have hne : e ≠ E1 := by
      rcases start_error hstep with rfl | rfl <;> decide
    simp only [if_true, if_neg hne, if_pos (start_error hstep)]

theorem encode_head (hc : Scalar c) : ∃ b tail, encode c = b :: tail ∧ ¬ (0x80 ≤ b ∧ b < 0xC0) := by
  obtain ⟨b, tail, hcode⟩ := exists_cons_of_ne_nil (encode_ne_nil c)
  have hrun := run_encode hc 0 []
  rw [hcode, append_nil] at hrun
  cases hstep : start.step b with
  | error e =>
    have hnone : run (.start, 0) (b :: tail) = (none, []) := by rw [run, hstep]
    rw [hnone] at hrun
    cases hrun
  | ok p =>
    refine ⟨b, tail, hcode, fun hb => ?_⟩
    rw [step, if_neg (by omega), if_pos hb.2] at hstep
    cases hstep

/-- Where an encoded character begins, a run goes on as from the first phase. -/
theorem finish_resume (h : bytes = [] ∨ Begins bytes) (s : Config) :
    finish (replaceRun s bytes) = ended s ++ finish (replaceRun (.start, 0) bytes) := by
  rcases h with rfl | ⟨c, hc, rest, rfl⟩
  · exact (append_nil _).symm
  obtain ⟨p, x⟩ := s
  by_cases hs : p = .start
  · subst hs
    rw [finish_start x 0]
    rfl
  · obtain ⟨b, tail, hcode, hb⟩ := encode_head hc
    rw [hcode, cons_append, replaceRun_cons, replaceRun_cons,
      replaceStep_again (s := (p, x)) (step_not_ext hs hb), ended, if_neg hs]
    rfl

/-- Without an encoded character there are only replacements. -/
theorem replaceRun_illFormed (hfits : Fits s) (hbytes : ∀ b ∈ bs, b < 256)
    (hill : IllFormed (pending s ++ bs)) : ∀ c ∈ (replaceRun s bs).2, c = replacement := by
  induction bs generalizing s with
  | nil => nofun
  | cons b bs ih =>
    obtain ⟨hb, htail⟩ := forall_mem_cons.1 hbytes
    -- a character that is completed here would be an encoded one
    have hnot : ∀ {t : Config} {p : Phase} {c : Nat}, pending t <:+ pending s →
        Reads t b p c → p ≠ .start := by
      rintro t p c ⟨l, hl⟩ ⟨-, hdone, -⟩ hp
      refine hill c (hdone hp).1 ⟨l, bs, ?_⟩
      rw [(hdone hp).2, ← hl]
      simp
    -- the rest is as before, from what is still pending
    have hrest : ∀ {t : Config} {l : List Nat}, Fits t → pending s ++ [b] = l ++ pending t →
        ∀ c ∈ (replaceRun t bs).2, c = replacement := by
      intro t l ht hl
      refine ih ht htail (hill.of_infix ⟨l, [], ?_⟩)
      rw [append_nil, ← append_assoc, ← hl]
      simp
    rw [replaceRun_cons]
    intro c hc
    rcases replaceStep_cases s b with ⟨k, hout⟩ | ⟨k, t, p, ht, hstep, hout⟩
    · rw [hout] at hc
      rcases mem_append.1 hc with hc | hc
      · exact eq_of_mem_replicate hc
      · exact hrest (t := (.start, 0)) trivial (append_nil _).symm c hc
    · have hsuffix : Fits t ∧ pending t <:+ pending s := by
        rcases ht with ⟨-, rfl⟩ | ⟨-, rfl⟩
        · exact ⟨hfits, suffix_rfl⟩
        · exact ⟨trivial, nil_suffix⟩
      obtain ⟨ht, l, hl⟩ := hsuffix
      have hreads := step_reads hb ht hstep
      have hp : p ≠ .start := hnot ⟨l, hl⟩ hreads
      rw [hout, if_neg hp, append_nil] at hc
      rcases mem_append.1 hc with hc | hc
      · exact eq_of_mem_replicate hc
      · refine hrest (l := l) hreads.1 ?_ c hc
        rw [hreads.2.2 hp, ← hl, append_assoc]

theorem replaceStep_silent (h : (replaceStep s b).2 = []) : (replaceStep s b).1.1 ≠ .start := by
  rcases replaceStep_cases s b with ⟨k, hout⟩ | ⟨k, t, p, -, -, hout⟩
  · rw [hout] at h
    cases h
  · rw [hout] at h ⊢
    intro hp
    rw [if_pos hp] at h
    simp at h

theorem finish_ne_nil (h : s.1 ≠ .start ∨ bs ≠ []) : finish (replaceRun s bs) ≠ [] := by
  induction bs generalizing s with
  | nil =>
    have hs : s.1 ≠ .start := h.resolve_right (fun hne => hne rfl)
    rw [replaceRun, finish, ended, if_neg hs]
    exact cons_ne_nil _ _
  | cons b bs ih =>
    rw [replaceRun_cons, finish, append_assoc]
    intro hnil
    obtain ⟨hout, hrest⟩ := append_eq_nil_iff.1 hnil
    exact ih (Or.inl (replaceStep_silent hout)) hrest

/-- The first place after which an encoded character begins, or the end. -/
theorem exists_cut (hne : bytes ≠ []) :
    ∃ part rest, part ≠ [] ∧ bytes = part ++ rest ∧ (rest = [] ∨ Begins rest) ∧
      ∀ l r, part = l ++ r → l ≠ [] → r ≠ [] → ¬ Begins (r ++ rest) := by
  induction bytes with
  | nil => exact absurd rfl hne
  | cons b bytes ih =>
    by_cases hend : bytes = [] ∨ Begins bytes
    · refine ⟨[b], bytes, cons_ne_nil _ _, rfl, hend, fun l r hlr hl hr => ?_⟩
      have hlength := congrArg length hlr
      have := length_pos_iff.2 hl
      have := length_pos_iff.2 hr
      simp at hlength
      omega
    · obtain ⟨hnil, hnot⟩ := not_or.1 hend
      obtain ⟨part, rest, hpart, hbytes, hrest, hinner⟩ := ih hnil
      refine ⟨b :: part, rest, cons_ne_nil _ _, by rw [hbytes]; rfl, hrest, ?_⟩
      intro l r hlr hl hr
      obtain ⟨x, l', rfl⟩ := exists_cons_of_ne_nil hl
      rw [cons_append, cons.injEq] at hlr
      by_cases hl' : l' = []
      · subst hl'
        rw [← nil_append r, ← hlr.2, ← hbytes]
        exact hnot
      · exact hinner l' r hlr.2 hl' hr

/-- A run with replacements mends its input. -/
theorem mends_replaceRun (hbytes : ∀ b ∈ bytes, b < 256) :
    Mends bytes (finish (replaceRun (.start, 0) bytes)) := by
  induction hn : bytes.length using Nat.strongRecOn generalizing bytes with
  | ind n ih =>
    by_cases hne : bytes = []
    · subst hne
      exact Mends.nil
    by_cases hbegins : Begins bytes
    · obtain ⟨c, hc, rest, rfl⟩ := hbegins
      have hpos := length_pos_iff.2 (encode_ne_nil c)
      have hrest : Mends rest (finish (replaceRun (.start, 0) rest)) :=
        ih rest.length (by rw [← hn, length_append]; omega)
          (fun b hb => hbytes b (by simp [hb])) rfl
      have hchar : replaceRun (.start, 0) (encode c) = ((.start, c), [c]) := by
        have hrun := run_encode hc 0 []
        rw [append_nil] at hrun
        have hsome : (run (.start, 0) (encode c)).1 = some (.start, c) := congrArg Prod.fst hrun
        rw [replaceRun_of_run hsome, hrun]
        rfl
      have htext : finish (replaceRun (.start, 0) (encode c ++ rest)) =
          c :: finish (replaceRun (.start, 0) rest) := by
        rw [replaceRun_append, hchar, ← finish_start c 0]
        rfl
      rw [htext]
      exact Mends.char hc hrest
    · obtain ⟨part, rest, hpart, rfl, hrest, hinner⟩ := exists_cut hne
      have hill : IllFormed part := by
        rintro c hc ⟨l, r, hlr⟩
        by_cases hl : l = []
        · refine hbegins ⟨c, hc, r ++ rest, ?_⟩
          rw [← hlr, hl]
          simp
        · refine hinner l (encode c ++ r) (by rw [← hlr]; simp) hl ?_ ⟨c, hc, r ++ rest, ?_⟩
          · exact fun hnil => encode_ne_nil c (append_eq_nil_iff.1 hnil).1
          · simp
      have hpos := length_pos_iff.2 hpart
      have hmends : Mends rest (finish (replaceRun (.start, 0) rest)) :=
        ih rest.length (by rw [← hn, length_append]; omega)
          (fun b hb => hbytes b (by simp [hb])) rfl
      have hall : ∀ c ∈ finish (replaceRun (.start, 0) part), c = replacement := by
        intro c hc
        rcases mem_append.1 hc with hc | hc
        · exact replaceRun_illFormed (s := (.start, 0)) trivial
            (fun b hb => hbytes b (by simp [hb])) hill c hc
        · rw [ended] at hc
          split at hc
          · cases hc
          · exact mem_singleton.1 hc
      have htext : finish (replaceRun (.start, 0) (part ++ rest)) =
          finish (replaceRun (.start, 0) part) ++ finish (replaceRun (.start, 0) rest) := by
        rw [replaceRun_append, finish, append_assoc, ← finish, finish_resume hrest, ← append_assoc]
        rfl
      rw [htext, eq_replicate_of_mem hall]
      exact Mends.replaced hpart hill hrest
        (length_pos_iff.2 (finish_ne_nil (Or.inr hpart))) hmends

end Dart2Wasm.Utf8
