import Mathlib.Data.Set.Finite.Basic
import Mathlib.Order.WellFounded

/-!
# Questions — a recursive test that asks in order

What the test of an object does is a list of items, each of them decided at once or a question about
another object; the test goes through the list and stops at the first item that fails. Objects may
lead back to themselves, so the test runs on fuel. It returns exactly if the questions that are
asked, which are those in front of which everything holds, neither lead into a cycle nor to an
object without a list.
-/

namespace Dart2Wasm.Lib

open List Relation

variable {α β : Type} {r : Bool} {l : List (Bool ⊕ α)}

/-! ## Loops that stop at the first failure -/

/-- A loop that returns at the first element which fails the test. -/
def checkAll (f : α → Option Bool) : List α → Option Bool
  | [] => some true
  | a :: as =>
    match f a with
    | some true => checkAll f as
    | r => r

section CheckAll

variable {f g : α → Option Bool} {as : List α}

theorem checkAll_true : checkAll f as = some true ↔ ∀ a ∈ as, f a = some true := by
  induction as with
  | nil =>
    simp [checkAll]
  | cons a as ih =>
    rw [checkAll]
    split
    · rename_i h
      simp [h, ih]
    · rename_i h
      constructor
      · intro hr
        exact (h hr).elim
      · intro hall
        exact hall a (by simp)

theorem checkAll_singleton (f : α → Option Bool) (a : α) : checkAll f [a] = f a := by
  rw [checkAll]
  rcases f a with _ | _ | _ <;> rfl

theorem checkAll_append (as bs : List α) :
    checkAll f (as ++ bs) =
      match checkAll f as with
      | some true => checkAll f bs
      | r => r := by
  induction as with
  | nil => rfl
  | cons a as ih =>
    rw [cons_append, checkAll, checkAll]
    cases f a with
    | none => rfl
    | some b =>
      cases b with
      | true => exact ih
      | false => rfl

theorem checkAll_map (h : β → α) (bs : List β) :
    checkAll f (bs.map h) = checkAll (fun b => f (h b)) bs := by
  induction bs with
  | nil => rfl
  | cons b bs ih => rw [map_cons, checkAll, checkAll, ih]

theorem checkAll_extends (h : ∀ a ∈ as, ∀ r, f a = some r → g a = some r)
    (hr : checkAll f as = some r) : checkAll g as = some r := by
  induction as with
  | nil => exact hr
  | cons a as ih =>
    have ih := ih fun b hb => h b (mem_cons_of_mem _ hb)
    rw [checkAll] at hr ⊢
    cases hf : f a with
    | none => simp [hf] at hr
    | some b =>
      rw [h a mem_cons_self b hf]
      cases b <;> simp_all

end CheckAll

namespace Questions

/-! ## The test -/

/-- Whether an item holds, given the test of the objects. -/
def answer (f : α → Option Bool) : Bool ⊕ α → Option Bool
  | .inl b => some b
  | .inr a => f a

theorem answer_inl (f : α → Option Bool) (b : Bool) : answer f (.inl b) = some b := rfl

variable (items : α → Option (List (Bool ⊕ α)))

def test : Nat → α → Option Bool
  | 0, _ => none
  | fuel + 1, a => (items a).bind (checkAll (answer (test fuel)))

/-- What the test decides, without the order in which it asks. -/
inductive Holds : α → Prop
  | intro {a : α} {l : List (Bool ⊕ α)} (hitems : items a = some l) (hdecided : .inl false ∉ l)
      (hasked : ∀ b, .inr b ∈ l → Holds b) : Holds a

/-- Everything in front of the question holds. -/
def Asks (a b : α) : Prop :=
  ∃ before after, items a = some (before ++ .inr b :: after) ∧ .inl false ∉ before ∧
    ∀ c, .inr c ∈ before → Holds items c

variable {items} {a b : α} {fuel : Nat}

theorem answer_extends {f g : α → Option Bool} (h : ∀ a r, f a = some r → g a = some r)
    (item : Bool ⊕ α) (hr : answer f item = some r) : answer g item = some r := by
  cases item with
  | inl b => exact hr
  | inr a => exact h a r hr

theorem test_succ (h : test items fuel a = some r) : test items (fuel + 1) a = some r := by
  induction fuel generalizing a r with
  | zero => cases h
  | succ fuel ih =>
    obtain ⟨l, hl, hcheck⟩ := Option.bind_eq_some_iff.1 h
    exact Option.bind_eq_some_iff.2 ⟨l, hl,
      checkAll_extends (fun item _ _ => answer_extends (fun _ _ => ih) item) hcheck⟩

theorem test_mono {m n : Nat} (hle : m ≤ n) (h : test items m a = some r) :
    test items n a = some r := by
  induction hle with
  | refl => exact h
  | step _ ih => exact test_succ ih

theorem checkAll_mono {m n : Nat} (hle : m ≤ n) (h : checkAll (answer (test items m)) l = some r) :
    checkAll (answer (test items n)) l = some r :=
  checkAll_extends (fun item _ _ => answer_extends (fun _ _ => test_mono hle) item) h

/-- Items that hold one by one hold with some fuel together. -/
theorem exists_checkAll (hdecided : .inl false ∉ l)
    (hasked : ∀ b, .inr b ∈ l → ∃ n, test items n b = some true) :
    ∃ n, checkAll (answer (test items n)) l = some true := by
  induction l with
  | nil => exact ⟨0, rfl⟩
  | cons item l ih =>
    obtain ⟨n, hn⟩ := ih (fun h => hdecided (mem_cons_of_mem _ h))
      fun b hb => hasked b (mem_cons_of_mem _ hb)
    rw [checkAll_true] at hn
    cases item with
    | inl b =>
      cases b with
      | false => exact absurd mem_cons_self hdecided
      | true => exact ⟨n, checkAll_true.2 (forall_mem_cons.2 ⟨rfl, hn⟩)⟩
    | inr b =>
      obtain ⟨m, hm⟩ := hasked b mem_cons_self
      have hn := checkAll_true.1 (checkAll_mono (le_max_right m n) (checkAll_true.2 hn))
      exact ⟨max m n, checkAll_true.2
        (forall_mem_cons.2 ⟨test_mono (le_max_left m n) hm, hn⟩)⟩

theorem holds_iff : Holds items a ↔ ∃ fuel, test items fuel a = some true := by
  constructor
  · intro h
    induction h with
    | intro hitems hdecided _ ih =>
      obtain ⟨n, hn⟩ := exists_checkAll hdecided ih
      exact ⟨n + 1, Option.bind_eq_some_iff.2 ⟨_, hitems, hn⟩⟩
  · rintro ⟨fuel, h⟩
    induction fuel generalizing a with
    | zero => cases h
    | succ fuel ih =>
      obtain ⟨l, hl, hcheck⟩ := Option.bind_eq_some_iff.1 h
      rw [checkAll_true] at hcheck
      exact .intro hl (fun hfalse => by cases hcheck _ hfalse) fun b hb => ih (hcheck _ hb)

/-! ## When the test returns -/

/-- A question that is asked is answered if the test returns. -/
theorem asked_returns (h : test items (fuel + 1) a = some r) (hasks : Asks items a b) :
    ∃ r', test items fuel b = some r' := by
  obtain ⟨before, after, hitems, hdecided, hholds⟩ := hasks
  obtain ⟨l, hl, hcheck⟩ := Option.bind_eq_some_iff.1 h
  obtain rfl := Option.some.inj (hl.symm.trans hitems)
  rw [checkAll_append] at hcheck
  cases hbefore : checkAll (answer (test items fuel)) before with
  | none => simp [hbefore] at hcheck
  | some r₁ =>
    obtain ⟨n, hn⟩ := exists_checkAll hdecided fun c hc => holds_iff.1 (hholds c hc)
    obtain rfl : r₁ = true := Option.some.inj
      ((checkAll_mono (le_max_left fuel n) hbefore).symm.trans
        (checkAll_mono (le_max_right fuel n) hn))
    cases hb : test items fuel b with
    | none => simp [hbefore, checkAll, answer, hb] at hcheck
    | some r' => exact ⟨r', rfl⟩

/-- The test returns if every question that is asked is answered. -/
theorem exists_checkAll_of_asked {before after : List (Bool ⊕ α)} (hl : items a = some l)
    (hasked : ∀ b, Asks items a b → ∃ n r, test items n b = some r) (hsplit : l = before ++ after)
    (hdecided : .inl false ∉ before) (hholds : ∀ c, .inr c ∈ before → Holds items c) :
    ∃ n r, checkAll (answer (test items n)) after = some r := by
  induction after generalizing before with
  | nil => exact ⟨0, true, rfl⟩
  | cons item after ih =>
    have hnext : l = before ++ [item] ++ after := by rw [hsplit, append_assoc]; rfl
    cases item with
    | inl b =>
      cases b with
      | false => exact ⟨0, false, rfl⟩
      | true =>
        refine ih hnext ?_ fun c hc => hholds c ?_
        · simpa using hdecided
        · simpa using hc
    | inr b =>
      obtain ⟨m, r, hm⟩ := hasked b ⟨before, after, hl.trans (congrArg some hsplit), hdecided,
        hholds⟩
      cases r with
      | false => exact ⟨m, false, by rw [checkAll, answer, hm]⟩
      | true =>
        obtain ⟨n, r, hn⟩ := ih hnext (by simpa using hdecided) fun c hc => by
          rcases mem_append.1 hc with hc | hc
          · exact hholds c hc
          · cases mem_singleton.1 hc
            exact holds_iff.2 ⟨m, hm⟩
        refine ⟨max m n, r, ?_⟩
        rw [checkAll, answer, test_mono (le_max_left m n) hm]
        exact checkAll_mono (le_max_right m n) hn

/-- The questions end and every object that is come by has a list. -/
theorem returns_iff_acc : (∃ fuel r, test items fuel a = some r) ↔
    Acc (flip (Asks items)) a ∧ ∀ b, ReflTransGen (Asks items) a b → items b ≠ none := by
  constructor
  · rintro ⟨fuel, r, h⟩
    induction fuel generalizing a r with
    | zero => cases h
    | succ fuel ih =>
      have hasked : ∀ b, Asks items a b → Acc (flip (Asks items)) b ∧
          ∀ c, ReflTransGen (Asks items) b c → items c ≠ none := fun b hb => by
        obtain ⟨r', hr'⟩ := asked_returns h hb
        exact ih r' hr'
      refine ⟨.intro a fun b hb => (hasked b hb).1, fun b hb => ?_⟩
      rcases hb.cases_head with rfl | ⟨c, hc, hb⟩
      · intro hnone
        rw [test, hnone] at h
        cases h
      · exact (hasked c hc).2 b hb
  · rintro ⟨hacc, hitems⟩
    induction hacc with
    | intro a _ ih =>
      obtain ⟨l, hl⟩ := Option.ne_none_iff_exists'.1 (hitems a .refl)
      obtain ⟨n, r, hn⟩ := exists_checkAll_of_asked hl
        (fun b hb => ih b hb fun c hc => hitems c (.head hb hc)) (nil_append l).symm not_mem_nil
        fun c hc => absurd hc not_mem_nil
      exact ⟨n + 1, r, Option.bind_eq_some_iff.2 ⟨l, hl, hn⟩⟩

/-- In a finite graph, paths from `a` end if none of them comes to a cycle. -/
theorem acc_iff_no_cycle {R : α → α → Prop} {S : Set α} (hfinite : S.Finite)
    (hclosed : ∀ a b, a ∈ S → R a b → b ∈ S) (ha : a ∈ S) :
    Acc (flip R) a ↔ ∀ b, ReflTransGen R a b → ¬ TransGen R b b := by
  constructor
  · intro hacc
    induction hacc with
    | intro a _ ih =>
      intro b hb hcycle
      rcases hb.cases_head with rfl | ⟨c, hc, hb⟩
      · obtain ⟨c, hc, hb⟩ := TransGen.head'_iff.1 hcycle
        exact ih c hc (hclosed a c ha hc) a hb hcycle
      · exact ih c hc (hclosed a c ha hc) b hb hcycle
  · intro hacyclic
    have hreach : ∀ b, ReflTransGen R a b → b ∈ S := fun b hb => by
      induction hb with
      | refl => exact ha
      | tail _ hstep ih => exact hclosed _ _ ih hstep
    have : Finite {b // ReflTransGen R a b} := (hfinite.subset hreach).to_subtype
    let after : {b // ReflTransGen R a b} → {b // ReflTransGen R a b} → Prop :=
      fun c b => TransGen R b.1 c.1
    have : IsTrans _ after := ⟨fun _ _ _ h h' => h'.trans h⟩
    have : Std.Irrefl after := ⟨fun b => hacyclic b.1 b.2⟩
    have hwf : WellFounded after := Finite.wellFounded_of_trans_of_irrefl after
    suffices hacc : ∀ b : {b // ReflTransGen R a b}, Acc (flip R) b.1 from hacc ⟨a, .refl⟩
    intro b
    induction b using hwf.induction with
    | h b ih => exact .intro _ fun c hc => ih ⟨c, b.2.tail hc⟩ (.single hc)

end Questions

end Dart2Wasm.Lib
