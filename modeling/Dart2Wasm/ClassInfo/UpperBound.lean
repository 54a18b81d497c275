import Mathlib.Data.List.Dedup
import Dart2Wasm.Lib.Pointwise

/-!
# ClassInfo.UpperBound — class infos and their least common ancestor

A `ClassInfo` of `dart2wasm/lib/class_info.dart` is a node of the Wasm type hierarchy: the `#Top`
struct, or a Dart class below the class info that is its `superInfo`. `upperBound` walks a set of
class infos upwards until a single one is left.

The list of implementers that a class info also carries grows while classes are processed; it is
part of the collector's state.
-/

namespace Dart2Wasm

open List

variable {k d : Nat}

/-- A class info over Dart classes `κ`: the class, its class id and the info it sits below. -/
inductive ClassInfo (κ : Type)
  | top
  | sub (cls : κ) (classId : Nat) (superInfo : ClassInfo κ)
  deriving DecidableEq

namespace ClassInfo

variable {κ : Type} {c a : ClassInfo κ}

/-! ## Depth and ancestors -/

def depth : ClassInfo κ → Nat
  | .top => 0
  | .sub _ _ superInfo => superInfo.depth + 1

/-- The first class info is the second one or one of its ancestors along `superInfo`. -/
def AboveEq (a : ClassInfo κ) : ClassInfo κ → Prop
  | .top => a = .top
  | .sub cls classId superInfo => a = .sub cls classId superInfo ∨ a.AboveEq superInfo

theorem aboveEq_refl (a : ClassInfo κ) : a.AboveEq a := by
  cases a with
  | top => exact rfl
  | sub cls classId superInfo => exact Or.inl rfl

theorem top_aboveEq (a : ClassInfo κ) : (top : ClassInfo κ).AboveEq a := by
  induction a with
  | top => exact rfl
  | sub cls classId superInfo ih => exact Or.inr ih

theorem aboveEq_trans {b : ClassInfo κ} (hab : a.AboveEq b) (hbc : b.AboveEq c) : a.AboveEq c := by
  induction c with
  | top =>
    have : b = .top := hbc
    exact this ▸ hab
  | sub cls classId superInfo ih =>
    rcases hbc with rfl | hbc
    · exact hab
    · exact Or.inr (ih hbc)

theorem aboveEq_depth_le (h : a.AboveEq c) : a.depth ≤ c.depth := by
  induction c with
  | top =>
    have : a = .top := h
    exact this ▸ Nat.le_refl _
  | sub cls classId superInfo ih =>
    rcases h with rfl | h
    · exact Nat.le_refl _
    · exact Nat.le_succ_of_le (ih h)

theorem eq_of_aboveEq_of_depth_le (h : a.AboveEq c) (hd : c.depth ≤ a.depth) : a = c := by
  cases c with
  | top => exact h
  | sub cls classId superInfo =>
    rcases h with rfl | h
    · rfl
    · have hle : a.depth ≤ superInfo.depth := aboveEq_depth_le h
      exact absurd (Nat.le_trans hd hle) (Nat.not_succ_le_self _)

theorem eq_top_of_depth_zero (h : a.depth = 0) : a = .top := by
  cases a with
  | top => rfl
  | sub cls classId superInfo => exact absurd h (Nat.succ_ne_zero _)

/-! ## The walk upwards -/

/-- `while (info.depth > targetDepth) info = info.superInfo!`; there is nothing above `#Top`. -/
def raiseTo (targetDepth : Int) : ClassInfo κ → Option (ClassInfo κ)
  | .top => if targetDepth < 0 then none else some .top
  | .sub cls classId superInfo =>
    if targetDepth < (ClassInfo.sub cls classId superInfo).depth then
      superInfo.raiseTo targetDepth
    else some (.sub cls classId superInfo)

/-- The walk ends at an ancestor that every ancestor of small enough depth is above. -/
theorem raiseTo_spec {targetDepth : Int} (ht : 0 ≤ targetDepth) (info : ClassInfo κ) :
    ∃ r, info.raiseTo targetDepth = some r ∧ r.AboveEq info ∧ (r.depth : Int) ≤ targetDepth ∧
      ∀ a : ClassInfo κ, a.AboveEq info → (a.depth : Int) ≤ targetDepth → a.AboveEq r := by
  induction info with
  | top =>
    refine ⟨.top, if_neg (by omega), rfl, ?_, fun _ ha _ => ha⟩
    simpa [depth] using ht
  | sub cls classId superInfo ih =>
    by_cases hdeep : targetDepth < (ClassInfo.sub cls classId superInfo).depth
    · rcases ih with ⟨r, hr, habove, hdepth, hmax⟩
      refine ⟨r, by rw [raiseTo, if_pos hdeep, hr], Or.inr habove, hdepth, ?_⟩
      rintro a (rfl | ha) hle
      · omega
      · exact hmax a ha hle
    · refine ⟨_, by rw [raiseTo, if_neg hdeep], aboveEq_refl _, by omega, fun _ ha _ => ha⟩

/-! ## Depths of a list of class infos -/

def minDepth (classes : List (ClassInfo κ)) : Nat :=
  classes.foldl (fun d info => min d info.depth) 999999999

def maxDepth (classes : List (ClassInfo κ)) : Nat :=
  classes.foldl (fun d info => max d info.depth) 0

def targetDepth (classes : List (ClassInfo κ)) : Int :=
  if minDepth classes = maxDepth classes then (minDepth classes : Int) - 1
  else minDepth classes

theorem foldl_min_le (classes : List (ClassInfo κ)) (d : Nat) :
    classes.foldl (fun d info => min d info.depth) d ≤ d ∧
      ∀ c ∈ classes, classes.foldl (fun d info => min d info.depth) d ≤ c.depth := by
  induction classes generalizing d with
  | nil =>
    simp
  | cons c classes ih =>
    rcases ih (min d c.depth) with ⟨hinit, hmem⟩
    refine ⟨Nat.le_trans hinit (Nat.min_le_left _ _), ?_⟩
    intro c' hc'
    rcases mem_cons.1 hc' with rfl | hc'
    · exact Nat.le_trans hinit (Nat.min_le_right _ _)
    · exact hmem c' hc'

variable {classes : List (ClassInfo κ)}

theorem le_foldl_min (hd : k ≤ d) (h : ∀ c ∈ classes, k ≤ c.depth) :
    k ≤ classes.foldl (fun d info => min d info.depth) d := by
  induction classes generalizing d with
  | nil =>
    exact hd
  | cons c classes ih =>
    exact ih (Nat.le_min.2 ⟨hd, h c (by simp)⟩) (fun c' hc' => h c' (by simp [hc']))

theorem minDepth_le (hc : c ∈ classes) : minDepth classes ≤ c.depth :=
  (foldl_min_le classes _).2 c hc

theorem le_foldl_max (classes : List (ClassInfo κ)) (d : Nat) :
    d ≤ classes.foldl (fun d info => max d info.depth) d ∧
      ∀ c ∈ classes, c.depth ≤ classes.foldl (fun d info => max d info.depth) d := by
  induction classes generalizing d with
  | nil =>
    simp
  | cons c classes ih =>
    rcases ih (max d c.depth) with ⟨hinit, hmem⟩
    refine ⟨Nat.le_trans (Nat.le_max_left _ _) hinit, ?_⟩
    intro c' hc'
    rcases mem_cons.1 hc' with rfl | hc'
    · exact Nat.le_trans (Nat.le_max_right _ _) hinit
    · exact hmem c' hc'

theorem foldl_max_lt (hd : d < k) (h : ∀ c ∈ classes, c.depth < k) :
    classes.foldl (fun d info => max d info.depth) d < k := by
  induction classes generalizing d with
  | nil =>
    exact hd
  | cons c classes ih =>
    exact ih (Nat.max_lt.2 ⟨hd, h c (by simp)⟩) (fun c' hc' => h c' (by simp [hc']))

theorem le_maxDepth (hc : c ∈ classes) : c.depth ≤ maxDepth classes :=
  (le_foldl_max classes _).2 c hc

/-- In a list with two different class infos, the target depth is not negative, smaller than the
greatest depth and within the initial `minDepth`, and it bounds the depth of every common ancestor
within that value. -/
theorem targetDepth_spec {x y : ClassInfo κ} (hx : x ∈ classes) (hy : y ∈ classes) (hxy : x ≠ y) :
    0 ≤ targetDepth classes ∧ targetDepth classes < maxDepth classes ∧
      targetDepth classes ≤ 999999999 ∧
      ∀ a : ClassInfo κ, (∀ c ∈ classes, a.AboveEq c) → a.depth ≤ 999999999 →
        (a.depth : Int) ≤ targetDepth classes := by
  have hmin : minDepth classes ≤ maxDepth classes := Nat.le_trans (minDepth_le hx) (le_maxDepth hx)
  have hbound : ∀ a : ClassInfo κ, (∀ c ∈ classes, a.AboveEq c) → a.depth ≤ 999999999 →
      a.depth ≤ minDepth classes := by
    intro a ha hcap
    exact le_foldl_min hcap (fun c hc => aboveEq_depth_le (ha c hc))
  have hcap₀ : minDepth classes ≤ 999999999 := (foldl_min_le classes _).1
  unfold targetDepth
  split
  · rename_i heq
    -- All depths are equal, so the two class infos are not `#Top` and have no common ancestor at
    -- their own depth.
    have hdx : x.depth = minDepth classes := Nat.le_antisymm (heq ▸ le_maxDepth hx) (minDepth_le hx)
    have hdy : y.depth = minDepth classes := Nat.le_antisymm (heq ▸ le_maxDepth hy) (minDepth_le hy)
    have hpos : 0 < minDepth classes := by
      by_contra hzero
      have hx0 : x = .top := eq_top_of_depth_zero (by omega)
      have hy0 : y = .top := eq_top_of_depth_zero (by omega)
      exact hxy (hx0.trans hy0.symm)
    refine ⟨by omega, by omega, by omega, ?_⟩
    intro a ha hcap
    have hle := hbound a ha hcap
    have hne : a.depth ≠ minDepth classes := by
      intro hda
      have hax : a = x := eq_of_aboveEq_of_depth_le (ha x hx) (by omega)
      have hay : a = y := eq_of_aboveEq_of_depth_le (ha y hy) (by omega)
      exact hxy (hax.symm.trans hay)
    omega
  · rename_i hne
    refine ⟨by omega, by omega, by omega, ?_⟩
    intro a ha hcap
    have := hbound a ha hcap
    omega

/-! ## The upper bound -/

/-- `upperBound`, on fuel for the outer loop. `newClasses` is a set. -/
def upperBound [DecidableEq κ] : Nat → List (ClassInfo κ) → Option (ClassInfo κ)
  | 0, _ => none
  -- `single` of an empty iterable throws.
  | _ + 1, [] => none
  | _ + 1, [info] => some info
  | fuel + 1, classes => do
    let newClasses ← classes.mapM (raiseTo (targetDepth classes))
    upperBound fuel newClasses.dedup

/-- One round of the loop: every class info is raised to an ancestor. -/
theorem mapM_raiseTo_spec {targetDepth : Int} (ht : 0 ≤ targetDepth)
    (classes : List (ClassInfo κ)) :
    ∃ raised, classes.mapM (raiseTo targetDepth) = some raised ∧
      (∀ c ∈ classes, ∃ r ∈ raised, r.AboveEq c) ∧
      ∀ r ∈ raised, (r.depth : Int) ≤ targetDepth ∧
        ∃ c ∈ classes, ∀ a : ClassInfo κ, a.AboveEq c → (a.depth : Int) ≤ targetDepth →
          a.AboveEq r := by
  obtain ⟨raised, hraised, hall⟩ := Lib.exists_mapM fun c (_ : c ∈ classes) => raiseTo_spec ht c
  refine ⟨raised, hraised, fun c hc => ?_, fun r hr => ?_⟩
  · obtain ⟨r, hr, habove, -⟩ := Lib.forall₂_exists_mem hall hc
    exact ⟨r, hr, habove⟩
  · obtain ⟨c, hc, -, hdepth, hancestor⟩ := Lib.forall₂_exists_mem hall.flip hr
    exact ⟨hdepth, c, hc, hancestor⟩

theorem exists_ne_of_nodup {α : Type} {as : List α} (h : as.Nodup) (hlen : 1 < as.length) :
    ∃ x ∈ as, ∃ y ∈ as, x ≠ y := by
  match as, h, hlen with
  | a :: b :: rest, h, _ =>
    refine ⟨a, by simp, b, by simp, ?_⟩
    rintro rfl
    simp at h

/-- The loop ends, and its result is the deepest common ancestor among those within the initial
value of `minDepth`. -/
theorem upperBound_spec [DecidableEq κ] {n : Nat} (hne : classes ≠ [])
    (hdistinct : 1 < classes.length → ∃ x ∈ classes, ∃ y ∈ classes, x ≠ y)
    (hdepth : ∀ c ∈ classes, c.depth < n) {fuel : Nat} (hfuel : n ≤ fuel) :
    ∃ r, upperBound fuel classes = some r ∧ (∀ c ∈ classes, r.AboveEq c) ∧
      (r.depth ≤ 999999999 ∨ classes.length = 1) ∧
      ∀ a : ClassInfo κ, (∀ c ∈ classes, a.AboveEq c) →
        a.depth ≤ 999999999 ∨ classes.length = 1 → a.AboveEq r := by
  -- The greatest depth decreases in every round.
  induction n generalizing classes fuel with
  | zero =>
    rcases exists_mem_of_ne_nil classes hne with ⟨c, hc⟩
    exact absurd (hdepth c hc) (Nat.not_lt_zero _)
  | succ n ih =>
    cases fuel with
    | zero => exact absurd hfuel (Nat.not_succ_le_zero _)
    | succ fuel =>
      match classes, hne with
      | [info], _ =>
        refine ⟨info, rfl, ?_, Or.inr rfl, ?_⟩
        · intro c hc
          have : c = info := by simpa using hc
          exact this ▸ aboveEq_refl c
        · intro a ha _
          exact ha info (by simp)
      | c₁ :: c₂ :: rest, _ =>
        generalize hcs : c₁ :: c₂ :: rest = classes at *
        have hlen : 1 < classes.length := by simp [← hcs]
        rcases hdistinct hlen with ⟨x, hx, y, hy, hxy⟩
        rcases targetDepth_spec hx hy hxy with ⟨hpos, hlt, hcap₀, hmax⟩
        rcases mapM_raiseTo_spec hpos classes with ⟨raised, hmapM, hto, hfrom⟩
        have hunfold : upperBound (fuel + 1) classes = upperBound fuel raised.dedup := by
          subst hcs
          simp [upperBound, hmapM]
        have hraised : raised.dedup ≠ [] := by
          rcases hto x hx with ⟨r, hr, -⟩
          exact ne_nil_of_mem (mem_dedup.2 hr)
        have hbelow : ∀ r ∈ raised.dedup, r.depth < n := by
          intro r hr
          have hle := (hfrom r (mem_dedup.1 hr)).1
          have hmaxlt : maxDepth classes < n + 1 := foldl_max_lt (Nat.succ_pos n) hdepth
          omega
        rcases ih hraised (exists_ne_of_nodup (nodup_dedup _)) hbelow
          (Nat.le_of_succ_le_succ hfuel) with ⟨r, hrun, habove, -, hdeepest⟩
        refine ⟨r, hunfold.trans hrun, ?_, Or.inl ?_, ?_⟩
        · intro c hc
          rcases hto c hc with ⟨r', hr', habove'⟩
          exact aboveEq_trans (habove r' (mem_dedup.2 hr')) habove'
        · rcases hto x hx with ⟨r', hr', -⟩
          have hle := aboveEq_depth_le (habove r' (mem_dedup.2 hr'))
          have hle' := (hfrom r' hr').1
          omega
        · intro a ha hcap
          have hcap' : a.depth ≤ 999999999 := by
            rcases hcap with hcap | hone
            · exact hcap
            · omega
          refine hdeepest a ?_ (Or.inl hcap')
          intro r' hr'
          rcases hfrom r' (mem_dedup.1 hr') with ⟨-, c, hc, hancestor⟩
          exact hancestor a (ha c hc) (hmax a ha hcap')

/-! ## The deepest common ancestor -/

/-- `upperBound` ends with the deepest node that is an ancestor of all class infos or one itself. -/
def FindsDeepest [DecidableEq κ] (classes : List (ClassInfo κ)) : Prop :=
  ∃ n, ∀ fuel, n ≤ fuel → ∃ r, upperBound fuel classes = some r ∧ (∀ c ∈ classes, r.AboveEq c) ∧
    ∀ a : ClassInfo κ, (∀ c ∈ classes, a.AboveEq c) → a.depth ≤ r.depth

/-- The initial value of `minDepth` bounds what is found in a set of several class infos. -/
theorem FindsDeepest.capped [DecidableEq κ] (h : FindsDeepest classes) (hne : classes ≠ [])
    (hset : classes.Nodup) : classes.length = 1 ∨
      ∀ a : ClassInfo κ, (∀ c ∈ classes, a.AboveEq c) → a.depth ≤ 999999999 := by
  obtain ⟨n, hfinds⟩ := h
  obtain ⟨r, hr, -, hdeepest⟩ := hfinds _ (Nat.le_max_left n (maxDepth classes + 1))
  obtain ⟨r', hr', -, hcap, -⟩ := upperBound_spec hne (exists_ne_of_nodup hset)
    (fun c hc => Nat.lt_succ_of_le (le_maxDepth hc)) (Nat.le_max_right n _)
  obtain rfl := Option.some.inj (hr.symm.trans hr')
  exact hcap.symm.imp_right fun hcap a ha => Nat.le_trans (hdeepest a ha) hcap

theorem upperBound_deepest [DecidableEq κ] (hne : classes ≠ []) (hset : classes.Nodup) :
    FindsDeepest classes ↔ classes.length = 1 ∨
      ∀ a : ClassInfo κ, (∀ c ∈ classes, a.AboveEq c) → a.depth ≤ 999999999 := by
  refine ⟨fun h => h.capped hne hset, fun hcap => ⟨maxDepth classes + 1, fun fuel hfuel => ?_⟩⟩
  obtain ⟨r, hr, habove, -, hdeepest⟩ := upperBound_spec hne (exists_ne_of_nodup hset)
    (fun c hc => Nat.lt_succ_of_le (le_maxDepth hc)) hfuel
  refine ⟨r, hr, habove, fun a ha => ?_⟩
  exact aboveEq_depth_le (hdeepest a ha (hcap.symm.imp_left fun hcap => hcap a ha))

theorem upperBound_deepest_siblings :
    FindsDeepest [ClassInfo.sub true 1 .top, .sub false 2 .top] := by
  refine (upperBound_deepest (by simp) (by simp)).2 (Or.inr fun a ha => ?_)
  have hle : a.depth ≤ 1 := aboveEq_depth_le (ha _ mem_cons_self)
  omega

def chain : Nat → ClassInfo Bool
  | 0 => .top
  | n + 1 => .sub true n (chain n)

theorem depth_chain (n : Nat) : (chain n).depth = n := by
  induction n with
  | zero => rfl
  | succ n ih => rw [chain, depth, ih]

/-- Two class infos whose parent is deeper than the initial value of `minDepth`. -/
theorem upperBound_not_deepest :
    ∃ parent : ClassInfo Bool, ¬ FindsDeepest [.sub true 0 parent, .sub false 1 parent] := by
  refine ⟨chain 1000000000, fun h => ?_⟩
  rcases h.capped (by simp) (by simp) with hone | hcap
  · simp at hone
  · have hparent := hcap (chain 1000000000) (by simp [AboveEq, aboveEq_refl])
    rw [depth_chain] at hparent
    omega

end ClassInfo
end Dart2Wasm
