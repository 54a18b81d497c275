import Dart2Wasm.CoreLibrary.Utf8Decoder

/-!
# Utf8Automaton — what the tables of the UTF-8 decoder compute

`Phase` names the states of the automaton that occur, `step` says by ranges of bytes where each of
them goes. The transition table with its overlapping rows and the table of byte types agree with it
on all bytes. `run` is the automaton on a list of bytes with the characters it comes by;
`replaceRun` replaces what is malformed.
-/

namespace Dart2Wasm.Utf8

/-! ## Phases -/

inductive Phase
  | start
  | one
  | two
  | three
  | threeLow
  | threeHigh
  | fourLow
  | fourHigh
  deriving DecidableEq

def Phase.code : Phase → Nat
  | .start => IA
  | .one => X1
  | .two => X2
  | .three => X3
  | .threeLow => TO
  | .threeHigh => TS
  | .fourLow => QO
  | .fourHigh => QR

def Phase.step : Phase → Nat → Except Nat Phase
  | .start, b =>
    if b < 0x80 then .ok .start
    else if b < 0xC0 then .error E2
    else if b < 0xC2 then .error E3
    else if b < 0xE0 then .ok .one
    else if b = 0xE0 then .ok .threeLow
    else if b = 0xED then .ok .threeHigh
    else if b < 0xF0 then .ok .two
    else if b = 0xF0 then .ok .fourLow
    else if b < 0xF4 then .ok .three
    else if b = 0xF4 then .ok .fourHigh
    else .error E3
  | .one, b => if 0x80 ≤ b ∧ b < 0xC0 then .ok .start else .error E1
  | .two, b => if 0x80 ≤ b ∧ b < 0xC0 then .ok .one else .error E1
  | .three, b => if 0x80 ≤ b ∧ b < 0xC0 then .ok .two else .error E1
  | .threeLow, b =>
    if 0x80 ≤ b ∧ b < 0xC0 then (if b < 0xA0 then .error E4 else .ok .one) else .error E1
  | .threeHigh, b =>
    if 0x80 ≤ b ∧ b < 0xC0 then (if b < 0xA0 then .ok .one else .error E6) else .error E1
  | .fourLow, b =>
    if 0x80 ≤ b ∧ b < 0xC0 then (if b < 0x90 then .error E4 else .ok .two) else .error E1
  | .fourHigh, b =>
    if 0x80 ≤ b ∧ b < 0xC0 then (if b < 0x90 then .ok .two else .error E5) else .error E1

def codeOf : Except Nat Phase → Nat
  | .ok p => p.code
  | .error e => e

/-- The value bits of a first byte. -/
def leadValue (b : Nat) : Nat :=
  if b < 0x80 then b else if b < 0xE0 then b - 0xC0 else if b < 0xF0 then b - 0xE0 else b - 0xF0

theorem forall_byte {P : Nat → Prop} [DecidablePred P]
    (h : (List.range 256).all (fun b => decide (P b)) = true) : ∀ b < 256, P b := by
  intro b hb
  exact of_decide_eq_true (List.all_eq_true.1 h b (List.mem_range.2 hb))

theorem transition_eq (p : Phase) :
    ∀ b < 256, transition p.code (typeOf b) = codeOf (p.step b) := by
  cases p <;> exact forall_byte (by decide +kernel)

theorem lead_eq : ∀ b < 256, (b < 0x80 ∨ 0xC2 ≤ b ∧ b < 0xF5) →
    b &&& (0xF0FE >>> typeOf b) = leadValue b :=
  forall_byte (by decide +kernel)

theorem flags_eq : ∀ b < 256, scanTable.getD b 0 &&& 0x3C =
    if b < 0x80 then 0 else if b < 0xC0 then 4 else if b < 0xC2 then 32 else if b < 0xC4 then 8
      else if b < 0xF5 then 16 else 32 :=
  forall_byte (by decide +kernel)

theorem extension_iff : ∀ b < 256, (b &&& 0xC0 = 0x80 ↔ 0x80 ≤ b ∧ b < 0xC0) :=
  forall_byte (by decide +kernel)

theorem xor_eq : ∀ b < 256, (b ^^^ 0x80 ≥ 0x40 ↔ ¬ (0x80 ≤ b ∧ b < 0xC0)) ∧
    (0x80 ≤ b ∧ b < 0xC0 → b ^^^ 0x80 = b - 0x80) :=
  forall_byte (by decide +kernel)

theorem extend_eq (c : Nat) {b : Nat} (hb : 0x80 ≤ b ∧ b < 0xC0) :
    (b &&& 0x3F) ||| (c <<< 6) = c * 64 + (b - 0x80) := by
  have hlow : b &&& 0x3F = b % 64 := Nat.and_two_pow_sub_one_eq_mod b 6
  have hlt : b % 64 < 2 ^ 6 := Nat.mod_lt _ (by decide)
  rw [hlow, Nat.or_comm, ← Nat.shiftLeft_add_eq_or_of_lt hlt, Nat.shiftLeft_eq]
  omega

@[simp]
theorem isErrorState_code (p : Phase) : isErrorState p.code = false := by
  cases p <;> rfl

theorem step_error {p : Phase} {b e : Nat} (h : p.step b = .error e) :
    isErrorState e = true ∧ e ≠ IA := by
  cases p <;> simp only [Phase.step] at h <;> (repeat' split at h) <;> cases h <;> decide

theorem code_eq_IA {p : Phase} : p.code = IA ↔ p = .start := by
  cases p <;> decide

/-! ## Runs -/

/-- The phase and the value bits read so far; they do not matter in the first phase. -/
abbrev Config := Phase × Nat

def extendChar (s : Config) (b : Nat) : Nat :=
  if s.1 = .start then leadValue b else s.2 * 64 + (b - 0x80)

theorem extendChar_start (c b : Nat) : extendChar (.start, c) b = leadValue b :=
  if_pos rfl

/-- Runs to the end or to an error, with the characters that are completed on the way. -/
def run : Config → List Nat → Option Config × List Nat
  | s, [] => (some s, [])
  | s, b :: bs =>
    match s.1.step b with
    | .error _ => (none, [])
    | .ok p =>
      ((run (p, extendChar s b) bs).1,
        (if p = .start then [extendChar s b] else []) ++ (run (p, extendChar s b) bs).2)

/-- A step that replaces malformed input. -/
def replaceStep (s : Config) (b : Nat) : Config × List Nat :=
  match s.1.step b with
  | .ok p => ((p, extendChar s b), if p = .start then [extendChar s b] else [])
  | .error e =>
    if e = E1 then
      match Phase.start.step b with
      | .ok p =>
        ((p, leadValue b), replacement :: (if p = .start then [leadValue b] else []))
      | .error _ => ((.start, 0), [replacement, replacement])
    else if e = E3 ∨ e = E2 then ((.start, 0), [replacement])
    else ((.start, 0), [replacement, replacement])

def replaceRun : Config → List Nat → Config × List Nat
  | s, [] => (s, [])
  | s, b :: bs =>
    ((replaceRun (replaceStep s b).1 bs).1,
      (replaceStep s b).2 ++ (replaceRun (replaceStep s b).1 bs).2)

theorem run_append (s : Config) (bs bs' : List Nat) :
    run s (bs ++ bs') =
      match (run s bs).1 with
      | none => (none, (run s bs).2)
      | some s' => ((run s' bs').1, (run s bs).2 ++ (run s' bs').2) := by
  induction bs generalizing s with
  | nil => simp [run]
  | cons b bs ih =>
    rw [List.cons_append, run, run]
    split
    · rfl
    · rw [ih]
      cases h : (run (_, extendChar s b) bs).1 <;> simp

theorem replaceRun_append (s : Config) (bs bs' : List Nat) :
    replaceRun s (bs ++ bs') =
      ((replaceRun (replaceRun s bs).1 bs').1,
        (replaceRun s bs).2 ++ (replaceRun (replaceRun s bs).1 bs').2) := by
  induction bs generalizing s with
  | nil => simp [replaceRun]
  | cons b bs ih => simp [replaceRun, ih]

/-- Without an error there is nothing to replace. -/
theorem replaceRun_of_run {s s' : Config} {bs : List Nat} (h : (run s bs).1 = some s') :
    replaceRun s bs = (s', (run s bs).2) := by
  induction bs generalizing s with
  | nil =>
    cases h
    rfl
  | cons b bs ih =>
    rw [run] at h ⊢
    rw [replaceRun, replaceStep]
    cases hstep : s.1.step b with
    | error e =>
      rw [hstep] at h
      cases h
    | ok p =>
      rw [hstep] at h
      dsimp only at h ⊢
      rw [ih h]

end Dart2Wasm.Utf8
