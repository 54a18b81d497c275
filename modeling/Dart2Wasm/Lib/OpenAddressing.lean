import Mathlib.Data.Nat.Find

/-!
# OpenAddressing — linear probing with tombstones

A table of slots is searched from a home slot onwards, round the end of the table, until an unused
slot is met. Entries that are deleted leave a tombstone behind, so that the search goes on past
them.

1. `probe` is the search loop, on fuel.
2. `Holds` says that a table holds exactly the entries of `live`, each where a search from its home
   comes past it.
3. `Holds.probe_cases` is what a search of such a table can find; `Holds.take` and `Holds.delete`
   are the two ways to change it.
-/

namespace Dart2Wasm.Lib.OpenAddressing

open List Nat

variable {ε : Type*}
variable {i k : Nat}

/-- What a slot of the table holds. -/
inductive Slot (ε : Type*)
  | unused
  | deleted
  | taken (e : ε)
  deriving DecidableEq

/-- The slots that stop no search. -/
def Slot.isOccupied : Slot ε → Bool
  | .unused => false
  | .deleted => true
  | .taken _ => true

/-- Where a search ended: at the entry sought, or at the slot a new entry would take. -/
inductive Outcome (ε : Type*)
  | found (i : Nat) (e : ε)
  | vacant (i : Nat)
  deriving DecidableEq

/-- The search loop. `test` tells whether an entry is the one sought, or gives no answer. -/
def probe (slots : List (Slot ε)) (test : ε → Option Bool) :
    Nat → Nat → Option Nat → Option (Outcome ε)
  | 0, _, _ => none
  | fuel + 1, i, firstDeleted =>
    match slots[i]? with
    | none => none
    | some Slot.unused => some (.vacant (firstDeleted.getD i))
    | some Slot.deleted =>
      probe slots test fuel ((i + 1) % slots.length) (some (firstDeleted.getD i))
    | some (Slot.taken e) =>
      match test e with
      | none => none
      | some true => some (.found i e)
      | some false => probe slots test fuel ((i + 1) % slots.length) firstDeleted

/-- A search from `s` that finds nothing on its way comes to slot `i`. -/
def Reaches (slots : List (Slot ε)) (s i : Nat) : Prop :=
  ∃ k < slots.length, i = (s + k) % slots.length ∧
    ∀ j < k, slots[(s + j) % slots.length]? ≠ some Slot.unused

/-- A slot that a new entry may take. -/
def Free (slots : List (Slot ε)) (i : Nat) : Prop :=
  slots[i]? = some Slot.unused ∨ slots[i]? = some Slot.deleted

/-- The table holds exactly the entries of `live`, where `live e s` gives entry `e` the home `s`. -/
structure Holds (slots : List (Slot ε)) (live : ε → Nat → Prop) : Prop where
  taken_live : ∀ (i : Nat) e, slots[i]? = some (Slot.taken e) → ∃ s, live e s
  live_reached : ∀ e s, live e s →
    ∃ i : Nat, slots[i]? = some (Slot.taken e) ∧ Reaches slots s i
  taken_once : ∀ (i j : Nat) e, slots[i]? = some (Slot.taken e) →
    slots[j]? = some (Slot.taken e) → i = j

/-- Number of slots that stop no search. -/
def occupied (slots : List (Slot ε)) : Nat :=
  slots.countP Slot.isOccupied

/-! ## Slots of the table -/

variable {slots : List (Slot ε)}

theorem Free.lt (h : Free slots i) : i < slots.length := by
  rcases h with h | h <;> exact (List.getElem?_eq_some_iff.1 h).1

theorem Free.ne_taken (h : Free slots i) (e : ε) : slots[i]? ≠ some (Slot.taken e) := by
  rcases h with h | h <;> rw [h] <;> simp

theorem exists_unused (h : occupied slots < slots.length) :
    ∃ i : Nat, slots[i]? = some Slot.unused := by
  by_contra hnone
  have hall : occupied slots = slots.length := by
    refine countP_eq_length.2 fun x hx => ?_
    obtain ⟨i, hi, rfl⟩ := getElem_of_mem hx
    cases hslot : slots[i] with
    | unused => exact absurd ⟨i, by rw [getElem?_eq_getElem hi, hslot]⟩ hnone
    | deleted => rfl
    | taken e => rfl
  omega

/-- Writing one slot occupies at most one slot more. -/
theorem occupied_set_le (slots : List (Slot ε)) (i : Nat) (x : Slot ε) :
    occupied (slots.set i x) ≤ occupied slots + 1 := by
  by_cases hi : i < slots.length
  · rw [occupied, countP_set hi, occupied]
    split <;> split <;> omega
  · rw [set_eq_of_length_le (by omega)]
    exact le_succ _

/-- A slot that was occupied may change without occupying another one. -/
theorem occupied_set_of_occupied {y : Slot ε} (h : slots[i]? = some y) (hy : y.isOccupied = true)
    (x : Slot ε) : occupied (slots.set i x) ≤ occupied slots := by
  obtain ⟨hi, rfl⟩ := List.getElem?_eq_some_iff.1 h
  have hpos : 0 < occupied slots := countP_pos_iff.2 ⟨slots[i], getElem_mem hi, hy⟩
  rw [occupied] at hpos ⊢
  rw [countP_set hi, if_pos hy, occupied]
  split <;> omega

/-! ## The search -/

section Probe

variable {slots : List (Slot ε)} {test : ε → Option Bool} {s m : Nat}

theorem probe_deleted (h : slots[(s + k) % slots.length]? = some Slot.deleted)
    (fuel : Nat) (firstDeleted : Option Nat) :
    probe slots test (fuel + 1) ((s + k) % slots.length) firstDeleted =
      probe slots test fuel ((s + (k + 1)) % slots.length)
        (some (firstDeleted.getD ((s + k) % slots.length))) := by
  rw [probe, h]
  simp only [Nat.mod_add_mod, Nat.add_assoc]

theorem probe_hit {e : ε} (h : slots[i]? = some (Slot.taken e))
    (htest : test e = some true) (fuel : Nat) (firstDeleted : Option Nat) :
    probe slots test (fuel + 1) i firstDeleted = some (.found i e) := by
  rw [probe, h]
  simp only [htest]

theorem probe_miss {e : ε} (h : slots[(s + k) % slots.length]? = some (Slot.taken e))
    (htest : test e = some false) (fuel : Nat) (firstDeleted : Option Nat) :
    probe slots test (fuel + 1) ((s + k) % slots.length) firstDeleted =
      probe slots test fuel ((s + (k + 1)) % slots.length) firstDeleted := by
  rw [probe, h]
  simp only [htest, Nat.mod_add_mod, Nat.add_assoc]

/-- The search from place `k` on, where place `m` is the first unused one: either it stops at a hit,
or there is no hit before `m` and it ends at a slot that is free. -/
theorem probe_from (hunused : slots[(s + m) % slots.length]? = some Slot.unused)
    (hbefore : ∀ j < m, slots[(s + j) % slots.length]? ≠ some Slot.unused)
    (hplaces : ∀ j, slots[(s + j) % slots.length]? ≠ none)
    (htest : ∀ (i : Nat) e, slots[i]? = some (Slot.taken e) → test e ≠ none) (r : Nat) :
    ∀ k fuel firstDeleted, k + r = m → r < fuel →
      (∃ j e, slots[(s + j) % slots.length]? = some (Slot.taken e) ∧ test e = some true ∧
        probe slots test fuel ((s + k) % slots.length) firstDeleted =
          some (.found ((s + j) % slots.length) e)) ∨
      ((∀ j, k ≤ j → j < m → ∀ e, slots[(s + j) % slots.length]? = some (Slot.taken e) →
          test e = some false) ∧
        ∃ i, probe slots test fuel ((s + k) % slots.length) firstDeleted = some (.vacant i) ∧
          (firstDeleted = some i ∨ firstDeleted = none ∧ Free slots i ∧
            ∃ j ≤ m, i = (s + j) % slots.length)) := by
  induction r with
  | zero =>
    intro k fuel firstDeleted hk hfuel
    obtain ⟨fuel, rfl⟩ : ∃ f, fuel = f + 1 := ⟨fuel - 1, by omega⟩
    obtain rfl : k = m := by omega
    refine .inr ⟨fun j hj hj' => absurd hj (by omega), _,
      by rw [probe, hunused], ?_⟩
    · cases firstDeleted with
      | none => exact .inr ⟨rfl, .inl hunused, k, le_refl k, rfl⟩
      | some d => exact .inl rfl
  | succ r ih =>
    intro k fuel firstDeleted hk hfuel
    obtain ⟨fuel, rfl⟩ : ∃ f, fuel = f + 1 := ⟨fuel - 1, by omega⟩
    have hkm : k < m := by omega
    have hnext := ih (k + 1) fuel
    cases hslot : slots[(s + k) % slots.length]? with
    | none => exact absurd hslot (hplaces k)
    | some slot =>
      cases slot with
      | unused => exact absurd hslot (hbefore k hkm)
      | deleted =>
        rw [probe_deleted hslot]
        rcases hnext _ (by omega) (by omega) with ⟨j, e, hj⟩ | ⟨hmiss, i, hi, hfirst⟩
        · exact .inl ⟨j, e, hj⟩
        refine .inr ⟨fun j hj hjm e he => ?_, i, hi, ?_⟩
        · -- the tombstone itself is no hit
          rcases lt_or_ge k j with hlt | hge
          · exact hmiss j hlt hjm e he
          · obtain rfl : j = k := by omega
            rw [hslot] at he
            cases he
        · rcases hfirst with hfirst | ⟨hfirst, -⟩
          · cases firstDeleted with
            | none =>
              refine .inr ⟨rfl, ?_⟩
              obtain rfl : (s + k) % slots.length = i := by simpa using hfirst
              exact ⟨.inr hslot, k, by omega, rfl⟩
            | some d => exact .inl (by simpa using hfirst)
          · cases hfirst
      | taken e =>
        cases htrue : test e with
        | none => exact absurd htrue (htest _ e hslot)
        | some hit =>
          cases hit with
          | true =>
            exact .inl ⟨k, e, hslot, htrue, probe_hit hslot htrue fuel firstDeleted⟩
          | false =>
            rw [probe_miss hslot htrue]
            rcases hnext _ (by omega) (by omega) with ⟨j, e', hj⟩ | ⟨hmiss, hvacant⟩
            · exact .inl ⟨j, e', hj⟩
            refine .inr ⟨fun j hj hjm e' he' => ?_, hvacant.imp fun i hi => ?_⟩
            · rcases lt_or_ge k j with hlt | hge
              · exact hmiss j hlt hjm e' he'
              · obtain rfl : j = k := by omega
                rw [hslot] at he'
                cases he'
                exact htrue
            · exact hi

/-- From any home there is a first unused place, if the table has an unused slot at all. -/
theorem exists_first_unused (hunused : ∃ i : Nat, slots[i]? = some (Slot.unused : Slot ε))
    (hs : s < slots.length) :
    ∃ m < slots.length, slots[(s + m) % slots.length]? = some Slot.unused ∧
      ∀ j < m, slots[(s + j) % slots.length]? ≠ some Slot.unused := by
  classical
  obtain ⟨i, hi⟩ := hunused
  have hil : i < slots.length := (List.getElem?_eq_some_iff.1 hi).1
  -- going round from `s`, slot `i` is met after `i + n - s` places
  have hplace : (s + (i + slots.length - s) % slots.length) % slots.length = i := by
    rw [Nat.add_mod_mod, show s + (i + slots.length - s) = i + slots.length by omega,
      Nat.add_mod_right, Nat.mod_eq_of_lt hil]
  have hex : ∃ m, slots[(s + m) % slots.length]? = some Slot.unused := ⟨_, by rw [hplace]; exact hi⟩
  refine ⟨Nat.find hex, ?_, Nat.find_spec hex, fun j hj => Nat.find_min hex hj⟩
  exact Nat.lt_of_le_of_lt (Nat.find_min' hex (by rw [hplace]; exact hi))
    (Nat.mod_lt _ (by omega))

variable {live : ε → Nat → Prop}

/-- What a search can end with: the entry sought, or a free slot on the way from the home while no
entry is the one sought. Fuel for one round of the table is enough. -/
theorem Holds.probe_cases (h : Holds slots live) (hunused : ∃ i : Nat, slots[i]? = some Slot.unused)
    (hs : s < slots.length) (test : ε → Option Bool) (htest : ∀ e s', live e s' → test e ≠ none)
    (hhome : ∀ e s', live e s' → test e = some true → s' = s) (fuel : Nat)
    (hfuel : slots.length ≤ fuel) :
    (∃ (i : Nat) (e : ε), probe slots test fuel s none = some (.found i e) ∧
      slots[i]? = some (Slot.taken e) ∧ test e = some true) ∨
    (∃ i, probe slots test fuel s none = some (.vacant i) ∧ Free slots i ∧ Reaches slots s i ∧
      ∀ e s', live e s' → test e = some false) := by
  obtain ⟨m, hm, hmu, hbefore⟩ := exists_first_unused hunused hs
  have hplaces : ∀ j, slots[(s + j) % slots.length]? ≠ none := fun j => by
    rw [getElem?_eq_getElem (mod_lt _ (by omega))]
    simp
  have htaken : ∀ (i : Nat) e, slots[i]? = some (Slot.taken e) → test e ≠ none := fun i e he =>
    let ⟨s', hlive⟩ := h.taken_live i e he
    htest e s' hlive
  have hstart : (s + 0) % slots.length = s := mod_eq_of_lt hs
  rcases probe_from hmu hbefore hplaces htaken m 0 fuel none (by omega) (by omega) with
    ⟨j, e, hslot, htrue, hprobe⟩ | ⟨hmiss, i, hprobe, hfirst⟩
  · rw [hstart] at hprobe
    exact .inl ⟨_, e, hprobe, hslot, htrue⟩
  rw [hstart] at hprobe
  rcases hfirst with hfirst | ⟨-, hfree, j, hj, rfl⟩
  · cases hfirst
  refine .inr ⟨_, hprobe, hfree, ⟨j, by omega, rfl, fun p hp => hbefore p (by omega)⟩, ?_⟩
  intro e s' hlive
  cases htrue : test e with
  | none => exact absurd htrue (htest e s' hlive)
  | some hit =>
    cases hit with
    | false => rfl
    | true =>
      -- an entry that is sought has this home, so the search came past its slot
      obtain rfl := hhome e s' hlive htrue
      obtain ⟨i', hi', k, hk, rfl, hway⟩ := h.live_reached e s' hlive
      have hkm : k < m := by
        rcases lt_trichotomy k m with hlt | rfl | hgt
        · exact hlt
        · rw [hmu] at hi'
          cases hi'
        · exact absurd hmu (hway m hgt)
      have := hmiss k (zero_le k) hkm e hi'
      rw [htrue] at this
      cases this

end Probe

/-! ## Changing the table -/

section Change

variable {slots : List (Slot ε)} {live live' : ε → Nat → Prop} {i s : Nat} {e : ε}

/-- A slot that comes into use, or stays in use, stops no search that went past it. -/
theorem Reaches.set {x : Slot ε} {t j : Nat} (h : Reaches slots t j) (hx : x ≠ .unused) :
    Reaches (slots.set i x) t j := by
  obtain ⟨k, hk, hj, hway⟩ := h
  rw [Reaches, length_set]
  refine ⟨k, hk, hj, fun p hp => ?_⟩
  rw [getElem?_set]
  split
  · split
    · simpa using hx
    · simp
  · exact hway p hp

theorem Holds.congr (h : Holds slots live) (hlive : ∀ e s, live e s ↔ live' e s) :
    Holds slots live' where
  taken_live i e he := (h.taken_live i e he).imp fun s hs => (hlive e s).1 hs
  live_reached e s hs := h.live_reached e s ((hlive e s).2 hs)
  taken_once := h.taken_once

theorem Holds.empty (n : Nat) :
    Holds (List.replicate n (Slot.unused : Slot ε)) fun _ _ => False where
  taken_live i e he := by
    rw [getElem?_replicate] at he
    split at he <;> cases he
  live_reached _ _ h := h.elim
  taken_once i j e he := by
    rw [getElem?_replicate] at he
    split at he <;> cases he

/-- A new entry takes a free slot on the way from its home. -/
theorem Holds.take (h : Holds slots live) (hfree : Free slots i) (hreach : Reaches slots s i)
    (hnew : ∀ s', ¬ live e s') :
    Holds (slots.set i (.taken e)) fun e' s' => live e' s' ∨ e' = e ∧ s' = s where
  taken_live j e' he' := by
    rw [getElem?_set] at he'
    split at he'
    · split at he'
      · cases he'
        exact ⟨s, .inr ⟨rfl, rfl⟩⟩
      · cases he'
    · exact (h.taken_live j e' he').imp fun _ => .inl
  live_reached e' s' hlive := by
    rcases hlive with hlive | ⟨rfl, rfl⟩
    · obtain ⟨j, hj, hr⟩ := h.live_reached e' s' hlive
      have hij : i ≠ j := by
        rintro rfl
        exact hfree.ne_taken e' hj
      exact ⟨j, by rw [getElem?_set_ne hij, hj], hr.set (by simp)⟩
    · exact ⟨i, getElem?_set_self hfree.lt, hreach.set (by simp)⟩
  taken_once j j' e' hj hj' := by
    -- a slot other than `i` cannot hold the new entry, which was not in the table
    have hother : ∀ p, i ≠ p → (slots.set i (.taken e))[p]? = some (Slot.taken e') →
        slots[p]? = some (Slot.taken e') ∧ e' ≠ e := by
      intro p hp he'
      rw [getElem?_set_ne hp] at he'
      refine ⟨he', ?_⟩
      rintro rfl
      obtain ⟨s', hs'⟩ := h.taken_live p e' he'
      exact hnew s' hs'
    by_cases hij : i = j
    · by_cases hij' : i = j'
      · exact hij.symm.trans hij'
      · subst hij
        rw [getElem?_set_self hfree.lt] at hj
        cases hj
        exact absurd rfl (hother j' hij' hj').2
    · by_cases hij' : i = j'
      · subst hij'
        rw [getElem?_set_self hfree.lt] at hj'
        cases hj'
        exact absurd rfl (hother j hij hj).2
      · exact h.taken_once j j' e' (hother j hij hj).1 (hother j' hij' hj').1

/-- A deleted entry leaves a tombstone. -/
theorem Holds.delete (h : Holds slots live) (htaken : slots[i]? = some (Slot.taken e)) :
    Holds (slots.set i .deleted) fun e' s' => live e' s' ∧ e' ≠ e where
  taken_live j e' he' := by
    rw [getElem?_set] at he'
    split at he'
    · split at he' <;> cases he'
    · rename_i hij
      obtain ⟨s', hs'⟩ := h.taken_live j e' he'
      refine ⟨s', hs', ?_⟩
      rintro rfl
      exact hij (h.taken_once i j e' htaken he')
  live_reached e' s' hlive := by
    obtain ⟨hlive, hne⟩ := hlive
    obtain ⟨j, hj, hr⟩ := h.live_reached e' s' hlive
    have hij : i ≠ j := by
      rintro rfl
      rw [htaken] at hj
      cases hj
      exact hne rfl
    exact ⟨j, by rw [getElem?_set_ne hij, hj], hr.set (by simp)⟩
  taken_once j j' e' hj hj' := by
    have hother : ∀ p : Nat, (slots.set i .deleted)[p]? = some (Slot.taken e') →
        slots[p]? = some (Slot.taken e') := by
      intro p he'
      rw [getElem?_set] at he'
      split at he'
      · split at he' <;> cases he'
      · exact he'
    exact h.taken_once j j' e' (hother j hj) (hother j' hj')

end Change

end Dart2Wasm.Lib.OpenAddressing
