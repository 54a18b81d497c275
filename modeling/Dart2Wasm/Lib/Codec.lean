/-!
# Codec — parsers and the relation "these tokens read back as this value"

A binary format is described twice: by a writer, which produces a list of tokens, and by a parser,
which consumes a prefix of its input. `Reads p ts a` says that the parser `p` consumes exactly the
tokens `ts`, whatever follows them, and returns `a`. The rules of this module compose such facts
along the combinators of a parser in the way in which a writer appends its pieces, so a round trip
is proved by following the writer.
-/

namespace Dart2Wasm.Lib

open List

/-- A parser consumes a prefix of its input and returns a value with the rest, or rejects. -/
def Parser (τ α : Type) : Type :=
  List τ → Option (α × List τ)

namespace Parser

variable {τ α β : Type}

instance : Monad (Parser τ) where
  pure a := fun s => some (a, s)
  bind p f := fun s =>
    match p s with
    | some (a, s') => f a s'
    | none => none

/-! ## Primitive parsers -/

def fail : Parser τ α :=
  fun _ => none

def token : Parser τ τ
  | [] => none
  | t :: ts => some (t, ts)

/-- Look at the next token without consuming it; `none` at the end of the input. -/
def peek : Parser τ (Option τ) :=
  fun ts => some (ts.head?, ts)

def expect [DecidableEq τ] (t : τ) : Parser τ Unit := do
  let t' ← token
  if t' = t then pure () else fail

def count (p : Parser τ α) : Nat → Parser τ (List α)
  | 0 => pure []
  | n + 1 => do
    let a ← p
    let as ← count p n
    pure (a :: as)

/-- Run a parser on the next `n` tokens, all of which it has to consume. -/
def region (n : Nat) (p : Parser τ α) : Parser τ α :=
  fun ts =>
    if ts.length < n then none
    else
      match p (ts.take n) with
      | some (a, []) => some (a, ts.drop n)
      | _ => none

/-- The result of a parser that consumes its whole input. -/
def parseAll (p : Parser τ α) (ts : List τ) : Option α :=
  match p ts with
  | some (a, []) => some a
  | _ => none

/-- Read values until the input ends, at most `fuel` of them. -/
def untilEnd (p : Parser τ α) : Nat → List τ → Option (List α)
  | _, [] => some []
  | 0, _ :: _ => none
  | fuel + 1, t :: ts =>
    match p (t :: ts) with
    | none => none
    | some (a, rest) => (untilEnd p fuel rest).map (a :: ·)

end Parser

/-- There are at least as many tokens as values, if every value has a token. -/
theorem length_le_flatMap {τ α : Type} {enc : α → List τ} {as : List α}
    (hne : ∀ a ∈ as, enc a ≠ []) : as.length ≤ (as.flatMap enc).length := by
  induction as with
  | nil => exact Nat.le_refl 0
  | cons a as ih =>
    have hpos : 0 < (enc a).length := length_pos_iff.2 (hne a (by simp))
    have hrest := ih fun a' ha' => hne a' (by simp [ha'])
    rw [flatMap_cons, length_append, length_cons, Nat.add_comm]
    exact Nat.add_le_add hpos hrest

/-! ## Reading back -/

/-- The parser consumes exactly these tokens, whatever follows them, and returns the value. -/
def Reads {τ α : Type} (p : Parser τ α) (ts : List τ) (a : α) : Prop :=
  ∀ rest, p (ts ++ rest) = some (a, rest)

namespace Reads

variable {τ α β : Type} {p : Parser τ α} {f : α → Parser τ β}

theorem pure (a : α) : Reads (Pure.pure a : Parser τ α) [] a := by
  intro rest
  rfl

theorem bind {ts us : List τ} {a : α} {b : β} (hp : Reads p ts a) (hf : Reads (f a) us b) :
    Reads (p >>= f) (ts ++ us) b := by
  intro rest
  have h₁ : p (ts ++ (us ++ rest)) = some (a, us ++ rest) := hp (us ++ rest)
  have h₂ : f a (us ++ rest) = some (b, rest) := hf rest
  show (match p (ts ++ us ++ rest) with
    | some (a, s') => f a s'
    | none => none) = some (b, rest)
  rw [append_assoc, h₁]
  exact h₂

variable {ts : List τ}

/-- A parser whose value determines the rest of the computation without reading further. -/
theorem bind_pure {a : α} {b : β} (hp : Reads p ts a)
    (hf : f a = Pure.pure b) : Reads (p >>= f) ts b := by
  have h := bind hp (hf ▸ pure b : Reads (f a) [] b)
  simpa using h

/-- A value whose tokens start those of another is that value. -/
theorem unique {us : List τ} {a b : α} (ha : Reads p ts a) (hb : Reads p us b) (h : ts <+: us) :
    a = b := by
  obtain ⟨rest, rfl⟩ := h
  have hsame := (ha (rest ++ [])).symm.trans (append_assoc ts rest [] ▸ hb [])
  exact congrArg Prod.fst (Option.some.inj hsame)

theorem token (t : τ) : Reads Parser.token [t] t := by
  intro rest
  rfl

theorem token_bind {g : τ → Parser τ β} {t : τ} {b : β} (h : Reads (g t) ts b) :
    Reads (Parser.token >>= g) (t :: ts) b := by
  intro rest
  exact h rest

theorem cons_bind {t : τ} {a : α} {b : β} (hp : Reads p [t] a)
    (hf : Reads (f a) ts b) : Reads (p >>= f) (t :: ts) b :=
  bind hp hf

theorem expect [DecidableEq τ] (t : τ) : Reads (Parser.expect t) [t] () := by
  refine bind_pure (token t) ?_
  simp

/-- Peeking at a nonempty piece sees its first token. -/
theorem peek_bind {g : Option τ → Parser τ β} {t : τ} {b : β}
    (h : Reads (g (some t)) (t :: ts) b) : Reads (Parser.peek >>= g) (t :: ts) b := by
  intro rest
  exact h rest

/-- Objects that are written one after the other and each read back as their image. -/
theorem count_map {γ : Type} {enc : γ → List τ} {g : γ → α} {cs : List γ}
    (h : ∀ c ∈ cs, Reads p (enc c) (g c)) :
    Reads (p.count cs.length) (cs.flatMap enc) (cs.map g) := by
  induction cs with
  | nil =>
    exact pure []
  | cons c cs ih =>
    have hc : Reads p (enc c) (g c) := h c (by simp)
    have hcs : Reads (p.count cs.length) (cs.flatMap enc) (cs.map g) :=
      ih (fun c' hc' => h c' (by simp [hc']))
    have hcons : Reads (p.count (cs.length + 1)) (enc c ++ cs.flatMap enc) (g c :: cs.map g) :=
      bind hc (bind_pure hcs rfl)
    simpa using hcons

theorem count {enc : α → List τ} {as : List α} (h : ∀ a ∈ as, Reads p (enc a) a) :
    Reads (p.count as.length) (as.flatMap enc) as := by
  have hmap := count_map (g := id) h
  rwa [map_id] at hmap

theorem region {a : α} (h : Reads p ts a) : Reads (Parser.region ts.length p) ts a := by
  intro rest
  have h₀ : p ts = some (a, []) := by simpa using h []
  simp [Parser.region, h₀]

theorem parseAll {a : α} (h : Reads p ts a) : p.parseAll ts = some a := by
  have h₀ : p ts = some (a, []) := by simpa using h []
  simp [Parser.parseAll, h₀]

theorem untilEnd {enc : α → List τ} {as : List α} {fuel : Nat} (hfuel : as.length ≤ fuel)
    (hne : ∀ a ∈ as, enc a ≠ []) (h : ∀ a ∈ as, Reads p (enc a) a) :
    p.untilEnd fuel (as.flatMap enc) = some as := by
  induction as generalizing fuel with
  | nil => cases fuel <;> rfl
  | cons a as ih =>
    cases fuel with
    | zero => simp at hfuel
    | succ fuel =>
      have hrest : p.untilEnd fuel (as.flatMap enc) = some as :=
        ih (Nat.le_of_succ_le_succ hfuel) (fun a' ha' => hne a' (by simp [ha']))
          (fun a' ha' => h a' (by simp [ha']))
      have ha : p (enc a ++ as.flatMap enc) = some (a, as.flatMap enc) := h a (by simp) _
      rw [flatMap_cons]
      cases hcons : enc a ++ as.flatMap enc with
      | nil => exact absurd (append_eq_nil_iff.1 hcons).1 (hne a (by simp))
      | cons t ts =>
        rw [hcons] at ha
        simp [Parser.untilEnd, ha, hrest]

theorem ite_true {c : Prop} [Decidable c] {q r : Parser τ α} {a : α} (hc : c)
    (h : Reads q ts a) : Reads (if c then q else r) ts a := by
  simpa [hc] using h

theorem ite_false {c : Prop} [Decidable c] {q r : Parser τ α} {a : α} (hc : ¬ c)
    (h : Reads r ts a) : Reads (if c then q else r) ts a := by
  simpa [hc] using h

end Reads

end Dart2Wasm.Lib
