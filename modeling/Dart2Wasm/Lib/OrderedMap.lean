import Mathlib.Data.List.Nodup

/-!
# OrderedMap — maps that remember the order of insertion

The keys of a map in the order in which they were first set, each with its current value.
-/

namespace Dart2Wasm.Lib

/-- A map from `K` to `V`, with its entries in the order of insertion. -/
structure OrderedMap (K V : Type) where
  entries : List (K × V)
  nodup : (entries.map Prod.fst).Nodup
  deriving DecidableEq

namespace OrderedMap

variable {K V : Type} [DecidableEq K] {m : OrderedMap K V} {key : K}

theorem lookup_cons (key : K) (e : K × V) (entries : List (K × V)) :
    (e :: entries).lookup key = if key = e.1 then some e.2 else entries.lookup key := by
  rcases e with ⟨d, u⟩
  by_cases h : key = d
  · simp [h]
  · have hbeq : (key == d) = false := by simpa using h
    simp [List.lookup_cons, hbeq, h]

def empty : OrderedMap K V := ⟨[], List.nodup_nil⟩

def keys (m : OrderedMap K V) : List K := m.entries.map Prod.fst

def get (m : OrderedMap K V) (key : K) : Option V := m.entries.lookup key

def replaceIn (key : K) (value : V) (entries : List (K × V)) : List (K × V) :=
  entries.map fun e => if e.1 = key then (key, value) else e

theorem map_fst_replaceIn (key : K) (value : V) (entries : List (K × V)) :
    (replaceIn key value entries).map Prod.fst = entries.map Prod.fst := by
  induction entries with
  | nil => rfl
  | cons e entries ih =>
    by_cases h : e.1 = key <;> simp_all [replaceIn]

/-- `m[key] = value`: a new key comes last. -/
def set (m : OrderedMap K V) (key : K) (value : V) : OrderedMap K V :=
  if h : key ∈ m.keys then
    ⟨replaceIn key value m.entries, by rw [map_fst_replaceIn]; exact m.nodup⟩
  else
    ⟨m.entries ++ [(key, value)], by
      rw [List.map_append, List.nodup_append]
      refine ⟨m.nodup, by simp, ?_⟩
      rintro a ha b hb rfl
      obtain rfl : a = key := List.mem_singleton.1 hb
      exact h ha⟩

theorem get_eq_none_iff : m.get key = none ↔ key ∉ m.keys := by
  unfold get keys
  induction m.entries with
  | nil => simp
  | cons e entries ih =>
    rw [lookup_cons, List.map_cons, List.mem_cons, not_or]
    by_cases h : key = e.1
    · simp [h]
    · rw [if_neg h, ih]
      exact ⟨fun htail => ⟨h, htail⟩, fun hboth => hboth.2⟩

theorem get_eq_some_iff {v : V} : m.get key = some v ↔ (key, v) ∈ m.entries := by
  rcases m with ⟨entries, hnodup⟩
  unfold get
  induction entries with
  | nil => simp
  | cons e entries ih =>
    obtain ⟨hnot, hnodup⟩ := List.nodup_cons.1 hnodup
    rw [lookup_cons, List.mem_cons]
    by_cases h : key = e.1
    · have hmem : (e.1, v) ∉ entries := fun hmem =>
        hnot (List.mem_map.2 ⟨_, hmem, rfl⟩)
      simp [h, hmem, Prod.ext_iff, eq_comm]
    · rw [if_neg h, ih hnodup]
      simp [h, Prod.ext_iff]

theorem eq_of_mem {v w : V} (hv : (key, v) ∈ m.entries) (hw : (key, w) ∈ m.entries) : v = w :=
  Option.some.inj ((get_eq_some_iff.2 hv).symm.trans (get_eq_some_iff.2 hw))

def mapValues {W : Type} (f : V → W) (m : OrderedMap K V) : OrderedMap K W where
  entries := m.entries.map fun e => (e.1, f e.2)
  nodup := by
    rw [List.map_map]
    exact m.nodup

theorem get_mapValues {W : Type} (f : V → W) (m : OrderedMap K V) (key : K) :
    (m.mapValues f).get key = (m.get key).map f := by
  show (m.entries.map fun e => (e.1, f e.2)).lookup key = (m.entries.lookup key).map f
  induction m.entries with
  | nil => rfl
  | cons e entries ih =>
    rw [List.map_cons, lookup_cons, lookup_cons, ih]
    split <;> rfl

theorem mem_keys_iff : key ∈ m.keys ↔ ∃ v, m.get key = some v := by
  rw [← not_iff_not, ← get_eq_none_iff]
  cases m.get key <;> simp

theorem lookup_replaceIn_self {value : V} {entries : List (K × V)}
    (h : key ∈ entries.map Prod.fst) : (replaceIn key value entries).lookup key = some value := by
  induction entries with
  | nil => cases h
  | cons e entries ih =>
    rw [replaceIn, List.map_cons, lookup_cons]
    by_cases he : e.1 = key
    · simp [he]
    · have hne : key ≠ e.1 := fun heq => he heq.symm
      rw [if_neg he, if_neg hne]
      exact ih ((List.mem_cons.1 h).resolve_left hne)

theorem lookup_replaceIn_of_ne {key' : K} (value : V) (entries : List (K × V))
    (h : key' ≠ key) : (replaceIn key value entries).lookup key' = entries.lookup key' := by
  induction entries with
  | nil => rfl
  | cons e entries ih =>
    rw [replaceIn, List.map_cons, lookup_cons, lookup_cons]
    by_cases he : e.1 = key
    · rw [if_pos he, he, if_neg h, if_neg h]
      exact ih
    · rw [if_neg he]
      split
      · rfl
      · exact ih

@[simp] theorem get_set_self (m : OrderedMap K V) (key : K) (value : V) :
    (m.set key value).get key = some value := by
  unfold set
  split
  · exact lookup_replaceIn_self ‹_›
  · rename_i h
    have hnone : m.entries.lookup key = none := get_eq_none_iff.2 h
    simp [get, List.lookup_append, hnone]

theorem get_set_of_ne (m : OrderedMap K V) {key' : K} (value : V) (h : key' ≠ key) :
    (m.set key value).get key' = m.get key' := by
  unfold set
  split
  · exact lookup_replaceIn_of_ne value m.entries h
  · have hbeq : (key' == key) = false := by simpa using h
    simp [get, List.lookup_append, List.lookup_cons, hbeq]

theorem get_set (m : OrderedMap K V) (key key' : K) (value : V) :
    (m.set key value).get key' = if key' = key then some value else m.get key' := by
  by_cases h : key' = key
  · rw [h, get_set_self, if_pos rfl]
  · rw [get_set_of_ne m value h, if_neg h]

theorem get_empty (key : K) : (empty : OrderedMap K V).get key = none := rfl

end OrderedMap

end Dart2Wasm.Lib
