import Mathlib.Data.List.Sort
import Dart2Wasm.Lib.OrderedMap

/-!
# ParamInfo — the parameters of an override group

`ParameterInfo` of `dart2wasm/lib/param_info.dart`. The members of an override group are merged into
one `ParameterInfo`: as many positional parameters as the longest member has, the names of all
members, and for each parameter the default value of a member that has one. A required parameter has
no default value.
-/

namespace Dart2Wasm

open Lib List

/-! ## Members -/

/-- A parameter; `initializer` is its default value, if it has one. -/
structure Parameter (N κ τ : Type) where
  name : N
  type : τ
  initializer : Option κ

/-- What a `FunctionNode` says about its parameters. -/
structure FunctionNode (N κ τ : Type) where
  typeParameters : Nat
  positionalParameters : List (Parameter N κ τ)
  requiredParameterCount : Nat
  namedParameters : List (Parameter N κ τ)
  nodup : (namedParameters.map Parameter.name).Nodup

/-- What a reference refers to: a function with its type parameters (for a constructor, those of its
class), the tear-off of a procedure, or the implicit getter or setter of a field. -/
inductive ReferenceTarget (N κ τ : Type)
  | function (node : FunctionNode N κ τ)
  | tearOff
  | implicitGetter
  | implicitSetter

structure ParameterInfo (N κ : Type) where
  typeParamCount : Nat
  positional : List (Option κ)
  named : OrderedMap N (Option κ)

namespace ParameterInfo

variable {N κ τ : Type}

def namedDefaults (params : List (Parameter N κ τ)) (h : (params.map Parameter.name).Nodup) :
    OrderedMap N (Option κ) where
  entries := params.map fun p => (p.name, p.initializer)
  nodup := by simpa [List.map_map, Function.comp_def] using h

def fromMember : ReferenceTarget N κ τ → ParameterInfo N κ
  | .tearOff => ⟨0, [], .empty⟩
  | .function node =>
    ⟨node.typeParameters,
      -- A required parameter has no default value.
      node.positionalParameters.mapIdx fun i p =>
        if i < node.requiredParameterCount then none else p.initializer,
      namedDefaults node.namedParameters node.nodup⟩
  | .implicitGetter => ⟨0, [], .empty⟩
  | .implicitSetter => ⟨0, [none], .empty⟩

/-- The positional parameters after `merge`. -/
def mergePositional : List (Option κ) → List (Option κ) → List (Option κ)
  | [], others => others
  | positional, [] => positional
  | value :: positional, other :: others => value.or other :: mergePositional positional others

variable [DecidableEq N] {cells : List (Option (Option κ))} {r : Option (Option κ)}

/-- One named parameter of the other member in `merge`. -/
def mergeName (named : OrderedMap N (Option κ)) (other : N × Option κ) : OrderedMap N (Option κ) :=
  match named.get other.1 with
  | some (some _) => named
  | _ => named.set other.1 other.2

/-- `merge`; its assertion is in `mergeAsserts`. -/
def merge (info other : ParameterInfo N κ) : ParameterInfo N κ where
  typeParamCount := info.typeParamCount
  positional := mergePositional info.positional other.positional
  named := other.named.entries.foldl mergeName info.named

/-- The parameters of a selector whose first member has the parameters `first`. -/
def mergeAll (first : ParameterInfo N κ) (others : List (ParameterInfo N κ)) : ParameterInfo N κ :=
  others.foldl merge first

/-- The assertion of `merge`, that both have as many type parameters, holds at every merge. -/
def mergeAsserts : ParameterInfo N κ → List (ParameterInfo N κ) → Bool
  | _, [] => true
  | info, other :: others =>
    info.typeParamCount == other.typeParamCount && mergeAsserts (info.merge other) others

section Names

variable [LinearOrder N]

omit [DecidableEq N]

def names (info : ParameterInfo N κ) : List N :=
  info.named.keys.insertionSort (· ≤ ·)

def nameIndex (info : ParameterInfo N κ) (name : N) : Option Nat :=
  if name ∈ info.names then some (info.positional.length + info.names.idxOf name) else none

end Names

def paramCount (info : ParameterInfo N κ) : Nat :=
  info.positional.length + info.named.entries.length

/-! ## Merging parameter by parameter -/

/-- A parameter of a member: missing, without default value, or with one. A missing parameter is
added, a missing default value is filled in. -/
def mergeCell : Option (Option κ) → Option (Option κ) → Option (Option κ)
  | none, other => other
  | some none, none => some none
  | some none, some other => some other
  | some (some value), _ => some (some value)

theorem getElem?_mergePositional (ps qs : List (Option κ)) (i : Nat) :
    (mergePositional ps qs)[i]? = mergeCell ps[i]? qs[i]? := by
  induction ps generalizing qs i with
  | nil => simp [mergePositional, mergeCell]
  | cons p ps ih =>
    cases qs with
    | nil =>
      cases h : (p :: ps)[i]? with
      | none => simp [mergePositional, mergeCell, h]
      | some o => cases o <;> simp [mergePositional, mergeCell, h]
    | cons q qs =>
      cases i with
      | zero => cases p <;> simp [mergePositional, mergeCell]
      | succ i => simpa [mergePositional] using ih qs i

theorem get_mergeName (named : OrderedMap N (Option κ)) (other : N × Option κ) (name : N) :
    (mergeName named other).get name =
      if name = other.1 then mergeCell (named.get name) (some other.2) else named.get name := by
  unfold mergeName
  by_cases h : name = other.1
  · subst h
    rw [if_pos rfl]
    rcases hget : named.get other.1 with _ | _ | value
    · simp [mergeCell]
    · simp [mergeCell]
    · simp [mergeCell, hget]
  · rw [if_neg h]
    split
    · rfl
    · exact named.get_set_of_ne _ h

theorem get_foldl_mergeName (named : OrderedMap N (Option κ)) (entries : List (N × Option κ))
    (hnodup : (entries.map Prod.fst).Nodup) (name : N) :
    (entries.foldl mergeName named).get name =
      mergeCell (named.get name) (entries.lookup name) := by
  induction entries generalizing named with
  | nil =>
    show named.get name = mergeCell (named.get name) none
    rcases named.get name with _ | _ | value <;> rfl
  | cons e entries ih =>
    rcases nodup_cons.1 hnodup with ⟨hout, htail⟩
    rw [foldl_cons, ih _ htail, get_mergeName, OrderedMap.lookup_cons]
    by_cases h : name = e.1
    · have hnone : entries.lookup name = none := by
        refine (OrderedMap.get_eq_none_iff (m := ⟨entries, htail⟩)).2 ?_
        rw [h]
        exact hout
      rw [if_pos h, if_pos h, hnone]
      rcases named.get name with _ | _ | value <;> rcases e.2 with _ | _ <;> rfl
    · rw [if_neg h, if_neg h]

/-- A parameter of an info: a position or a name. -/
def cell (info : ParameterInfo N κ) : Nat ⊕ N → Option (Option κ)
  | .inl i => info.positional[i]?
  | .inr name => info.named.get name

theorem cell_merge (info other : ParameterInfo N κ) (p : Nat ⊕ N) :
    (info.merge other).cell p = mergeCell (info.cell p) (other.cell p) := by
  cases p with
  | inl i => exact getElem?_mergePositional _ _ i
  | inr name => exact get_foldl_mergeName _ _ other.named.nodup name

theorem cell_mergeAll (first : ParameterInfo N κ) (others : List (ParameterInfo N κ))
    (p : Nat ⊕ N) :
    (mergeAll first others).cell p =
      (others.map fun o => o.cell p).foldl mergeCell (first.cell p) := by
  induction others generalizing first with
  | nil => rfl
  | cons o others ih =>
    refine (ih (first.merge o)).trans ?_
    rw [cell_merge]
    rfl

/-! ## The order of the members -/

/-- The members agree on the default values of a parameter. -/
def Agree (cells : List (Option (Option κ))) : Prop :=
  ∀ x y, some (some x) ∈ cells → some (some y) ∈ cells → x = y

/-- What the merged parameter is, whatever the order: present if a member has it, with the default
value of any member that has one. -/
structure Merged (cells : List (Option (Option κ))) (r : Option (Option κ)) : Prop where
  missing : r = none ↔ ∀ c ∈ cells, c = none
  value : ∀ x, r = some (some x) ↔ some (some x) ∈ cells

omit [DecidableEq N] in
theorem Merged.unique {cells' : List (Option (Option κ))} {r' : Option (Option κ)}
    (h : Merged cells r) (h' : Merged cells' r') (hmem : ∀ c, c ∈ cells ↔ c ∈ cells') : r = r' := by
  have hmissing : r = none ↔ r' = none := by
    rw [h.missing, h'.missing]
    simp only [hmem]
  have hvalue : ∀ x, r = some (some x) ↔ r' = some (some x) := fun x => by
    rw [h.value, h'.value, hmem]
  rcases r with _ | _ | x
  · exact (hmissing.1 rfl).symm
  · rcases r' with _ | _ | y
    · exact hmissing.2 rfl
    · rfl
    · exact (hvalue y).2 rfl
  · exact ((hvalue x).1 rfl).symm

theorem merged_mergeCell (h : Merged cells r) (c : Option (Option κ))
    (hagree : Agree (cells ++ [c])) : Merged (cells ++ [c]) (mergeCell r c) := by
  rcases r with _ | _ | x
  · have hnone := h.missing.1 rfl
    have hno : ∀ x, some (some x) ∉ cells := fun x hx => by
      have := hnone _ hx
      cases this
    refine ⟨⟨fun hc c' hc' => ?_, fun hall => hall c (by simp)⟩,
      fun x => by simp [mergeCell, hno, eq_comm]⟩
    rcases mem_append.1 hc' with hc' | hc'
    · exact hnone c' hc'
    · rw [mem_singleton.1 hc']
      exact hc
  · have hno : ∀ x, some (some x) ∉ cells := fun x hx => by
      have := (h.value x).2 hx
      cases this
    have hsome : ¬ ∀ c ∈ cells, c = none := fun hall => by
      have := h.missing.2 hall
      cases this
    rcases c with _ | c
    · refine ⟨?_, fun x => by simp [mergeCell, hno]⟩
      simpa [mergeCell] using hsome
    · refine ⟨?_, fun x => by simp [mergeCell, hno, eq_comm]⟩
      simp [mergeCell]
  · have hx : some (some x) ∈ cells := (h.value x).1 rfl
    refine ⟨?_, fun y => ?_⟩
    · simp only [mergeCell, reduceCtorEq, false_iff]
      intro hall
      have := hall _ (mem_append_left _ hx)
      cases this
    · constructor
      · intro heq
        cases heq
        exact mem_append_left _ hx
      · intro hy
        rw [hagree x y (mem_append_left _ hx) hy]
        rfl

theorem merged_foldl {rest : List (Option (Option κ))} (h : Merged cells r)
    (hagree : Agree (cells ++ rest)) : Merged (cells ++ rest) (rest.foldl mergeCell r) := by
  induction rest generalizing cells r with
  | nil => simpa using h
  | cons c rest ih =>
    have happend : cells ++ c :: rest = (cells ++ [c]) ++ rest := by simp
    rw [happend] at hagree ⊢
    refine ih (merged_mergeCell h c ?_) hagree
    exact fun x y hx hy => hagree x y (mem_append_left _ hx) (mem_append_left _ hy)

omit [DecidableEq N] in
theorem merged_single (c : Option (Option κ)) : Merged [c] c :=
  ⟨by simp, fun x => by simp [eq_comm]⟩

/-- The members of a group agree on their default values and have as many type parameters. -/
structure Group (members : List (ParameterInfo N κ)) : Prop where
  defaults : ∀ p, Agree (members.map fun m => m.cell p)
  typeParams : ∀ a ∈ members, ∀ b ∈ members, a.typeParamCount = b.typeParamCount

theorem Group.perm {members members' : List (ParameterInfo N κ)} (h : Group members)
    (hperm : members.Perm members') : Group members' :=
  ⟨fun p x y hx hy => h.defaults p x y ((hperm.map _).mem_iff.2 hx) ((hperm.map _).mem_iff.2 hy),
    fun a ha b hb => h.typeParams a (hperm.mem_iff.2 ha) b (hperm.mem_iff.2 hb)⟩

theorem mergeAsserts_of_count {info : ParameterInfo N κ} {others : List (ParameterInfo N κ)}
    (h : ∀ other ∈ others, info.typeParamCount = other.typeParamCount) :
    mergeAsserts info others := by
  induction others generalizing info with
  | nil => rfl
  | cons other others ih =>
    have hrest : mergeAsserts (info.merge other) others :=
      ih fun o ho => h o (mem_cons_of_mem _ ho)
    simp only [mergeAsserts, h other mem_cons_self, beq_self_eq_true, hrest, Bool.and_true]

theorem mergeAsserts_of_group {first : ParameterInfo N κ} {others : List (ParameterInfo N κ)}
    (h : Group (first :: others)) : mergeAsserts first others :=
  mergeAsserts_of_count fun other hother =>
    h.typeParams first mem_cons_self other (mem_cons_of_mem _ hother)

theorem merged_mergeAll {first : ParameterInfo N κ} {others : List (ParameterInfo N κ)}
    (h : Group (first :: others)) (p : Nat ⊕ N) :
    Merged ((first :: others).map fun m => m.cell p) ((mergeAll first others).cell p) := by
  rw [cell_mergeAll]
  exact merged_foldl (merged_single (first.cell p)) (h.defaults p)

theorem typeParamCount_mergeAll (first : ParameterInfo N κ) (others : List (ParameterInfo N κ)) :
    (mergeAll first others).typeParamCount = first.typeParamCount := by
  induction others generalizing first with
  | nil => rfl
  | cons o others ih => exact ih (first.merge o)

section Order

variable {N : Type} [LinearOrder N]

theorem nodup_names (info : ParameterInfo N κ) : info.names.Nodup :=
  (perm_insertionSort _ _).nodup_iff.2 info.named.nodup

theorem mem_names {info : ParameterInfo N κ} {name : N} :
    name ∈ info.names ↔ ∃ d, info.named.get name = some d := by
  rw [names, (perm_insertionSort _ _).mem_iff]
  exact OrderedMap.mem_keys_iff

/-- Infos with the same parameters have the same names in the same order. -/
theorem names_eq {info info' : ParameterInfo N κ}
    (h : ∀ name, info.named.get name = info'.named.get name) : info.names = info'.names := by
  have hperm : info.names.Perm info'.names := by
    rw [perm_ext_iff_of_nodup (nodup_names info) (nodup_names info')]
    intro name
    rw [mem_names, mem_names, h name]
  exact hperm.eq_of_pairwise (fun a b _ _ => le_antisymm) (pairwise_insertionSort _ _)
    (pairwise_insertionSort _ _)

/-- Merging the members of a group in another order gives the same parameters. -/
theorem mergeAll_perm {first first' : ParameterInfo N κ} {others others' : List (ParameterInfo N κ)}
    (hgroup : Group (first :: others)) (hperm : (first :: others).Perm (first' :: others')) :
    (mergeAll first others).typeParamCount = (mergeAll first' others').typeParamCount ∧
      (mergeAll first others).positional = (mergeAll first' others').positional ∧
      (∀ name, (mergeAll first others).named.get name = (mergeAll first' others').named.get name) ∧
      (mergeAll first others).names = (mergeAll first' others').names ∧
      ∀ name, (mergeAll first others).nameIndex name =
        (mergeAll first' others').nameIndex name := by
  have hgroup' : Group (first' :: others') := hgroup.perm hperm
  have hcell : ∀ p, (mergeAll first others).cell p = (mergeAll first' others').cell p := fun p =>
    (merged_mergeAll hgroup p).unique (merged_mergeAll hgroup' p) fun c => (hperm.map _).mem_iff
  have hpositional : (mergeAll first others).positional = (mergeAll first' others').positional :=
    ext_getElem? fun i => hcell (.inl i)
  have hnamed : ∀ name, (mergeAll first others).named.get name =
      (mergeAll first' others').named.get name := fun name => hcell (.inr name)
  have hnames := names_eq hnamed
  refine ⟨?_, hpositional, hnamed, hnames, fun name => ?_⟩
  · rw [typeParamCount_mergeAll, typeParamCount_mergeAll]
    exact hgroup.typeParams _ mem_cons_self _ (hperm.mem_iff.2 mem_cons_self)
  · rw [nameIndex, nameIndex, hpositional, hnames]

end Order

end ParameterInfo
end Dart2Wasm
