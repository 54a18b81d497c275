import Dart2Wasm.CoreLibrary.SplayTree

/-!
# SplayTreeOrder — the methods of a splay tree on the entries in order

Splaying keeps the entries, and brings a node to the root that cuts them at the key: what is in its
left subtree is before the key and what is in its right subtree is after it. Everything else about
the methods follows from this cut. A tree without the cut, such as `_first` and `_last` leave, is
what makes `_addNewRoot` go wrong.
-/

namespace Dart2Wasm.SplayTree

open Lib SplayTree.Tree List

variable {K V : Type} {compare : K → K → Int} {key : K}
variable {comp : Int}
variable {left right : List (Frame K V)} {f : Frame K V} {value : V}

/-! ## Frames -/

def leftEntries : List (Frame K V) → List (K × V)
  | [] => []
  | f :: left => leftEntries left ++ (f.subtree.entries ++ [(f.key, f.value)])

def rightEntries : List (Frame K V) → List (K × V)
  | [] => []
  | f :: right => (f.key, f.value) :: f.subtree.entries ++ rightEntries right

theorem fillLeft_entries (left : List (Frame K V)) (t : Tree K V) :
    (fillLeft left t).entries = leftEntries left ++ t.entries := by
  induction left generalizing t with
  | nil => rfl
  | cons f left ih => simp [fillLeft, ih, leftEntries, entries]

theorem fillRight_entries (right : List (Frame K V)) (t : Tree K V) :
    (fillRight right t).entries = t.entries ++ rightEntries right := by
  induction right generalizing t with
  | nil => simp [fillRight, rightEntries]
  | cons f right ih => simp [fillRight, ih, rightEntries, entries]

/-! ## Splaying -/

/-- Splaying keeps the entries, whatever the comparator. -/
theorem splayLoop_entries (t : Tree K V) (left right : List (Frame K V)) (moved : Bool)
    (ht : t ≠ .nil) : (splayLoop compare key t left right moved).root.entries =
      leftEntries left ++ t.entries ++ rightEntries right := by
  fun_induction splayLoop compare key t left right moved with
  | case1 => exact absurd rfl ht
  | case4 _ _ _ _ _ _ _ _ _ _ _ _ _ _ _ ih | case5 _ _ _ _ _ _ _ _ _ _ _ _ ih
  | case8 _ _ _ _ _ _ _ _ _ _ _ _ _ _ _ _ ih | case9 _ _ _ _ _ _ _ _ _ _ _ _ _ ih =>
    rw [ih (by rintro ⟨⟩)]
    simp [entries, leftEntries, rightEntries]
  | _ => simp [assemble, entries, fillLeft_entries, fillRight_entries]

/-- The tree holds `total`, and its root cuts it at the key. -/
def CutAt (compare : K → K → Int) (key : K) (total : List (K × V)) (root : Tree K V)
    (comp : Int) : Prop :=
  ∃ l k v r, root = .node l k v r ∧ comp = compare k key ∧
    total = l.entries ++ (k, v) :: r.entries ∧
    AllBefore compare key l.entries ∧ AllAfter compare key r.entries

section

variable (h : LawfulCompare compare) {total : List (K × V)} (hs : Sorted compare total)
include h hs

theorem assemble_cut {l r : Tree K V} {k : K} {v : V} {moved : Bool}
    (htotal : total = leftEntries left ++ (l.entries ++ (k, v) :: r.entries) ++ rightEntries right)
    (hleft : AllBefore compare key (leftEntries left))
    (hright : AllAfter compare key (rightEntries right))
    (hl : 0 < compare k key → l = .nil) (hr : compare k key < 0 → r = .nil) :
    CutAt compare key total (assemble left right l k v r (compare k key) moved).root
      (assemble left right l k v r (compare k key) moved).comp := by
  have hsplit : total =
      (leftEntries left ++ l.entries) ++ (k, v) :: (r.entries ++ rightEntries right) := by
    simp [htotal]
  rw [hsplit] at hs ⊢
  refine ⟨_, k, v, _, rfl, rfl, ?_, ?_, ?_⟩
  · rw [fillLeft_entries, fillRight_entries]
  · rw [fillLeft_entries]
    rcases Int.lt_or_le 0 (compare k key) with hpos | hle
    · rw [hl hpos]
      exact hleft.append fun _ he => nomatch he
    · exact hs.before h hle
  · rw [fillRight_entries]
    rcases Int.lt_or_le (compare k key) 0 with hneg | hge
    · rw [hr hneg]
      exact AllAfter.append (fun _ he => nomatch he) hright
    · exact hs.after h hge

theorem linkRight {a : List (K × V)} (hpos : 0 < compare f.key key)
    (htotal : total = a ++ rightEntries (f :: right)) :
    AllAfter compare key (rightEntries (f :: right)) := by
  rw [htotal] at hs
  exact AllAfter.cons hpos (hs.after h (Int.le_of_lt hpos))

theorem linkLeft {a b : List (K × V)} (hneg : compare f.key key < 0)
    (htotal : total = leftEntries (f :: left) ++ a ++ b) :
    AllBefore compare key (leftEntries (f :: left)) := by
  have hsplit : total =
      (leftEntries left ++ f.subtree.entries) ++ (f.key, f.value) :: (a ++ b) := by
    simp [htotal, leftEntries]
  rw [hsplit] at hs
  have hbefore := hs.before h (Int.le_of_lt hneg)
  have hroot : AllBefore compare key [(f.key, f.value)] := .cons hneg fun _ he => nomatch he
  have hall := hbefore.append hroot
  rwa [append_assoc] at hall

theorem splayLoop_cut (key : K) (t : Tree K V) (left right : List (Frame K V)) (moved : Bool)
    (ht : t ≠ .nil) (htotal : total = leftEntries left ++ t.entries ++ rightEntries right)
    (hleft : AllBefore compare key (leftEntries left))
    (hright : AllAfter compare key (rightEntries right)) :
    CutAt compare key total (splayLoop compare key t left right moved).root
      (splayLoop compare key t left right moved).comp := by
  -- in every case the entries are the same list, whichever way the nodes are linked
  fun_induction splayLoop compare key t left right moved with
  | case1 => exact absurd rfl ht
  | case2 k v r left right moved hpos =>
    exact assemble_cut h hs htotal hleft hright (fun _ => rfl) (fun hneg => by omega)
  | case3 k v r left right moved hpos lk lv lr hpos' =>
    refine assemble_cut h hs ?_ hleft hright (fun _ => rfl) (fun hneg => by omega)
    simp [htotal, entries]
  | case4 k v r left right moved hpos lk lv lr hpos' lll llk llv llr ih =>
    have hsame : total = leftEntries left ++ (node lll llk llv llr).entries ++
        rightEntries (⟨lk, lv, .node lr k v r⟩ :: right) := by
      simp [htotal, entries, rightEntries]
    exact ih (fun heq => nomatch heq) hsame hleft (linkRight h hs hpos' hsame)
  | case5 k v r left right moved hpos ll lk lv lr hle ih =>
    have hsame : total = leftEntries left ++ (node ll lk lv lr).entries ++
        rightEntries (⟨k, v, r⟩ :: right) := by
      simp [htotal, entries, rightEntries]
    exact ih (fun heq => nomatch heq) hsame hleft (linkRight h hs hpos hsame)
  | case6 l k v left right moved hle hneg =>
    exact assemble_cut h hs htotal hleft hright (fun hpos => by omega) (fun _ => rfl)
  | case7 l k v left right moved hle hneg rl rk rv hneg' =>
    refine assemble_cut h hs ?_ hleft hright (fun hpos => by omega) (fun _ => rfl)
    simp [htotal, entries]
  | case8 l k v left right moved hle hneg rl rk rv hneg' rrl rrk rrv rrr ih =>
    have hsame : total = leftEntries (⟨rk, rv, .node l k v rl⟩ :: left) ++
        (node rrl rrk rrv rrr).entries ++ rightEntries right := by
      simp [htotal, entries, leftEntries]
    exact ih (fun heq => nomatch heq) hsame (linkLeft h hs hneg' hsame) hright
  | case9 l k v left right moved hle hneg rl rk rv rr hge ih =>
    have hsame : total = leftEntries (⟨k, v, l⟩ :: left) ++ (node rl rk rv rr).entries ++
        rightEntries right := by
      simp [htotal, entries, leftEntries]
    exact ih (fun heq => nomatch heq) hsame (linkLeft h hs hneg hsame) hright
  | case10 l k v r left right moved hle hge =>
    exact assemble_cut h hs htotal hleft hright (fun hpos => absurd hpos hle)
      (fun hneg => absurd hneg hge)

end

theorem splayLoop_moved (t : Tree K V) (left right : List (Frame K V)) (moved : Bool)
    (hm : moved = true) : (splayLoop compare key t left right moved).moved = true := by
  fun_induction splayLoop compare key t left right moved with
  | case4 _ _ _ _ _ _ _ _ _ _ _ _ _ _ _ ih | case5 _ _ _ _ _ _ _ _ _ _ _ _ ih
  | case8 _ _ _ _ _ _ _ _ _ _ _ _ _ _ _ _ ih | case9 _ _ _ _ _ _ _ _ _ _ _ _ _ ih => exact ih rfl
  | case3 | case7 => rfl
  | _ => exact hm

/-- If the root has not moved, nothing has been written. -/
theorem splayLoop_still (t : Tree K V) (h : (splayLoop compare key t [] [] false).moved = false) :
    (splayLoop compare key t [] [] false).root = t := by
  revert h
  unfold splayLoop
  repeat' split
  all_goals intro h
  all_goals first
    | rfl
    | cases h
    | rw [splayLoop_moved _ _ _ _ rfl] at h
      cases h

/-! ## The ends of the tree -/

theorem splayMin_spec (l : Tree K V) (k : K) (v : V) (r : Tree K V) :
    ∃ mk mv mr, splayMin l k v r = .node .nil mk mv mr ∧
      (mk, mv) :: mr.entries = l.entries ++ (k, v) :: r.entries := by
  induction l generalizing k v r with
  | nil => exact ⟨k, v, r, rfl, rfl⟩
  | node ll lk lv lr ih _ =>
    obtain ⟨mk, mv, mr, hmin, hentries⟩ := ih lk lv (.node lr k v r)
    refine ⟨mk, mv, mr, hmin, ?_⟩
    rw [hentries]
    simp [entries]

theorem splayMax_spec (l : Tree K V) (k : K) (v : V) (r : Tree K V) :
    ∃ ml mk mv, splayMax l k v r = .node ml mk mv .nil ∧
      ml.entries ++ [(mk, mv)] = l.entries ++ (k, v) :: r.entries := by
  induction r generalizing l k v with
  | nil => exact ⟨l, k, v, rfl, rfl⟩
  | node rl rk rv rr _ ih =>
    obtain ⟨ml, mk, mv, hmax, hentries⟩ := ih (.node l k v rl) rk rv
    refine ⟨ml, mk, mv, hmax, ?_⟩
    rw [hentries]
    simp [entries]

theorem lastKey_eq (t : Tree K V) : t.lastKey = t.entries.getLast?.map Prod.fst := by
  fun_induction lastKey t with
  | case1 => rfl
  | case2 l k v => simp [entries]
  | case3 l' k' v' l k v r ih =>
    have hne : (node l k v r).entries ≠ [] := by simp [entries]
    obtain ⟨init, e, he⟩ := eq_nil_or_concat (node l k v r).entries |>.resolve_left hne
    have hlast : l'.entries ++ (k', v') :: (init ++ [e]) =
        (l'.entries ++ (k', v') :: init) ++ [e] := by simp
    rw [concat_eq_append] at he
    rw [ih, entries.eq_2 l', he, hlast, getLast?_concat, getLast?_concat]

theorem firstKey_eq (t : Tree K V) : t.firstKey = t.entries.head?.map Prod.fst := by
  fun_induction firstKey t with
  | case1 => rfl
  | case2 k v r => simp [entries]
  | case3 l k v r k' v' r' ih =>
    have hne : (node l k v r).entries ≠ [] := by simp [entries]
    obtain ⟨e, rest, he⟩ := exists_cons_of_ne_nil hne
    rw [ih, entries.eq_2 (.node l k v r), he]
    rfl

/-! ## The methods -/

/-- The tree holds the entries of a sorted list, and counts them. -/
structure Holds (keys : Keys K) (s : Fields K V) (l : List (K × V)) : Prop where
  entries_eq : s.root.entries = l
  sorted : Sorted keys.compare l
  count_eq : s.count = l.length

section Methods

variable {keys : Keys K} {s : Fields K V} {l : List (K × V)}

theorem Holds.new : Holds keys ({} : Fields K V) [] where
  entries_eq := rfl
  sorted := .nil
  count_eq := rfl

theorem splay_of_nil (hnil : s.root = .nil) (key : K) : splay keys s key = (s, -1) := by
  rw [splay, hnil]

theorem splay_of_ne (hne : s.root ≠ .nil) (key : K) :
    splay keys s key =
      ({ s with
          root := (splayLoop keys.compare key s.root [] [] false).root
          splayCount := if (splayLoop keys.compare key s.root [] [] false).moved
            then s.splayCount + 1 else s.splayCount },
        (splayLoop keys.compare key s.root [] [] false).comp) := by
  rw [splay]
  split
  · rename_i hnil
    exact absurd hnil hne
  · rfl

@[simp]
theorem splay_count (key : K) : (splay keys s key).1.count = s.count := by
  rw [splay]
  split <;> rfl

@[simp]
theorem splay_modificationCount (key : K) :
    (splay keys s key).1.modificationCount = s.modificationCount := by
  rw [splay]
  split <;> rfl

@[simp]
theorem splay_entries (key : K) : (splay keys s key).1.root.entries = s.root.entries := by
  by_cases hne : s.root = .nil
  · rw [splay_of_nil hne]
  · rw [splay_of_ne hne]
    exact (splayLoop_entries s.root [] [] false hne).trans (by simp [leftEntries, rightEntries])

/-- `_first` keeps the entries, and so does `_last`; neither cuts them at any key. -/
theorem first_spec (s : Fields K V) : (first s).2 = s.root.entries.head?.map Prod.fst ∧
    ∃ root, (first s).1 = { s with root := root } ∧ root.entries = s.root.entries := by
  rw [SplayTree.first]
  split
  · rename_i hnil
    rw [hnil]
    exact ⟨rfl, .nil, by rw [← hnil], rfl⟩
  · rename_i tl k v tr hroot
    obtain ⟨mk, mv, mr, hmin, hentries⟩ := splayMin_spec tl k v tr
    rw [hmin, hroot, entries, ← hentries]
    exact ⟨rfl, _, rfl, rfl⟩

theorem last_spec (s : Fields K V) : (last s).2 = s.root.entries.getLast?.map Prod.fst ∧
    ∃ root, (last s).1 = { s with root := root } ∧ root.entries = s.root.entries := by
  rw [SplayTree.last]
  split
  · rename_i hnil
    rw [hnil]
    exact ⟨rfl, .nil, by rw [← hnil], rfl⟩
  · rename_i tl k v tr hroot
    obtain ⟨ml, mk, mv, hmax, hentries⟩ := splayMax_spec tl k v tr
    rw [hmax, hroot, entries, ← hentries, getLast?_concat]
    exact ⟨rfl, _, rfl, rfl⟩

variable {root : Tree K V}

/-- The root cuts the entries at a key that is there. -/
def Present (compare : K → K → Int) (key : K) (l : List (K × V)) (root : Tree K V) : Prop :=
  ∃ tl k v tr, root = .node tl k v tr ∧ compare k key = 0 ∧
    l = tl.entries ++ (k, v) :: tr.entries ∧
    AllBefore compare key tl.entries ∧ AllAfter compare key tr.entries

/-- The key is not there, and a new root with the comparison goes to its place. -/
def Absent (compare : K → K → Int) (key : K) (l : List (K × V)) (root : Tree K V)
    (comp : Int) : Prop :=
  ∃ a b, l = a ++ b ∧ AllBefore compare key a ∧ AllAfter compare key b ∧
    ∀ (s : Fields K V) (value : V), s.root = root →
      (addNewRoot s key value comp).root.entries = a ++ (key, value) :: b

theorem CutAt.present (h : CutAt compare key l root 0) : Present compare key l root := by
  obtain ⟨tl, k, v, tr, hroot, hcomp, hl, hbefore, hafter⟩ := h
  exact ⟨tl, k, v, tr, hroot, hcomp.symm, hl, hbefore, hafter⟩

theorem CutAt.absent (h : CutAt compare key l root comp)
    (hcomp : comp ≠ 0) : Absent compare key l root comp := by
  obtain ⟨tl, k, v, tr, rfl, rfl, rfl, hbefore, hafter⟩ := h
  rcases Int.lt_or_gt_of_ne hcomp with hneg | hpos
  · refine ⟨tl.entries ++ [(k, v)], tr.entries, by simp, ?_, hafter, ?_⟩
    · exact hbefore.append (.cons hneg fun _ he => nomatch he)
    · intro s value hroot
      rw [addNewRoot, hroot]
      simp [entries, hneg]
  · refine ⟨tl.entries, (k, v) :: tr.entries, rfl, hbefore, .cons hpos hafter, ?_⟩
    intro s value hroot
    have hge : ¬ compare k key < 0 := by omega
    rw [addNewRoot, hroot]
    simp [entries, hge]

theorem absent_nil (comp : Int) : Absent compare key ([] : List (K × V)) .nil comp := by
  refine ⟨[], [], rfl, ?_, ?_, fun s value hroot => ?_⟩
  · exact fun _ he => nomatch he
  · exact fun _ he => nomatch he
  · rw [addNewRoot, hroot]
    rfl

theorem Present.lookup (h : Present compare key l root) :
    ∃ k v, lookup compare key l = some (k, v) ∧ root.rootKey = some k ∧
      root.rootValue = some v := by
  obtain ⟨tl, k, v, tr, rfl, hk, rfl, hbefore, -⟩ := h
  exact ⟨k, v, lookup_present hbefore hk, rfl, rfl⟩

theorem Absent.lookup (h : Absent compare key l root comp) : lookup compare key l = none := by
  obtain ⟨a, b, rfl, hbefore, hafter, -⟩ := h
  exact lookup_absent hbefore hafter

theorem Absent.addNewRoot (h : Absent keys.compare key l s.root comp)
    (hs : Holds keys s l) (hlaw : LawfulCompare keys.compare) :
    Holds keys (addNewRoot s key value comp) (put keys.compare key value l) := by
  obtain ⟨a, b, rfl, hbefore, hafter, hroot⟩ := h
  have hput : put keys.compare key value (a ++ b) = _ := put_absent hbefore hafter
  refine ⟨?_, ?_, ?_⟩
  · rw [hroot s value rfl, hput]
  · rw [hput]
    have hab := pairwise_append.1 hs.sorted
    exact (sorted_cut_iff hlaw).2 ⟨hab.1, hab.2.1, hbefore, hafter⟩
  · rw [hput, SplayTree.addNewRoot]
    simp only [hs.count_eq, length_append, length_cons]
    omega

theorem Present.setRootValue (h : Present keys.compare key l s.root)
    (hs : Holds keys s l) (hlaw : LawfulCompare keys.compare) :
    Holds keys (setRootValue s value) (put keys.compare key value l) := by
  obtain ⟨tl, k, v, tr, hroot, hk, rfl, hbefore, hafter⟩ := h
  have hput : put keys.compare key value (tl.entries ++ (k, v) :: tr.entries) = _ :=
    put_present hbefore hk
  refine ⟨?_, ?_, ?_⟩
  · rw [hput, SplayTree.setRootValue, hroot]
    rfl
  · rw [hput]
    exact (sorted_cut_iff hlaw).2 ((sorted_cut_iff hlaw).1 hs.sorted)
  · rw [hput, SplayTree.setRootValue]
    simp only [hs.count_eq, length_append, length_cons]

/-- What `_remove` does after the key has been splayed to the root. -/
theorem Present.erase (h : Present keys.compare key l s.root) (hs : Holds keys s l)
    (hroot : ∀ tl k v tr, s.root = .node tl k v tr → root.entries = tl.entries ++ tr.entries)
    {m : Nat} :
    Holds keys { s with root := root, count := s.count - 1, modificationCount := m }
      (erase keys.compare key l) := by
  obtain ⟨tl, k, v, tr, heq, hk, rfl, hbefore, hafter⟩ := h
  have herase := erase_present (v := v) hbefore hk hafter
  refine ⟨?_, ?_, ?_⟩
  · rw [herase]
    exact hroot tl k v tr heq
  · rw [erase]
    exact hs.sorted.filter _
  · rw [herase, length_append]
    have hcount := hs.count_eq
    rw [length_append, length_cons] at hcount
    simp only [hcount]
    omega

/-- A method left the object and answer `x`: the answer is the given one, and the entries and the
modification count are unchanged. -/
structure Observes {α : Type} (keys : Keys K) (s : Fields K V) (l : List (K × V))
    (x : Fields K V × α) (answer : α) : Prop where
  answer_eq : x.2 = answer
  holds : Holds keys x.1 l
  modification_eq : x.1.modificationCount = s.modificationCount

theorem Holds.eq_nil (h : Holds keys s l) (hnil : s.root = .nil) : l = [] := by
  rw [← h.entries_eq, hnil]
  rfl

theorem Holds.first (h : Holds keys s l) : Observes keys s l (first s) (l.head?.map Prod.fst) := by
  obtain ⟨hkey, root, heq, hentries⟩ := first_spec s
  rw [h.entries_eq] at hkey hentries
  refine ⟨hkey, ?_, ?_⟩ <;> rw [heq]
  exact ⟨hentries, h.sorted, h.count_eq⟩

theorem Holds.last (h : Holds keys s l) : Observes keys s l (last s) (l.getLast?.map Prod.fst) := by
  obtain ⟨hkey, root, heq, hentries⟩ := last_spec s
  rw [h.entries_eq] at hkey hentries
  refine ⟨hkey, ?_, ?_⟩ <;> rw [heq]
  exact ⟨hentries, h.sorted, h.count_eq⟩

theorem CutAt.lastBefore (h : CutAt compare key l root comp) :
    (lastBefore compare key l).map Prod.fst =
      if comp < 0 then root.rootKey else root.left.lastKey := by
  obtain ⟨tl, k, v, tr, rfl, rfl, rfl, hbefore, hafter⟩ := h
  split
  · rename_i hneg
    have hsplit : tl.entries ++ (k, v) :: tr.entries = (tl.entries ++ [(k, v)]) ++ tr.entries := by
      simp
    have hroot : AllBefore compare key [(k, v)] := .cons hneg fun _ he => nomatch he
    rw [lastBefore, hsplit, filter_before (hbefore.append hroot)
      (fun e he => Int.le_of_lt (hafter e he)), getLast?_concat]
    rfl
  · rename_i hge
    rw [lastBefore, filter_before hbefore, left, lastKey_eq]
    intro e he
    rcases mem_cons.1 he with rfl | he
    · exact Int.not_lt.1 hge
    · exact Int.le_of_lt (hafter e he)

theorem CutAt.firstAfter (h : CutAt compare key l root comp) :
    (firstAfter compare key l).map Prod.fst =
      if comp > 0 then root.rootKey else root.right.firstKey := by
  obtain ⟨tl, k, v, tr, rfl, rfl, rfl, hbefore, hafter⟩ := h
  split
  · rename_i hpos
    rw [firstAfter, filter_after (fun e he => Int.le_of_lt (hbefore e he)) (.cons hpos hafter)]
    rfl
  · rename_i hle
    have hsplit : tl.entries ++ (k, v) :: tr.entries = (tl.entries ++ [(k, v)]) ++ tr.entries := by
      simp
    rw [firstAfter, hsplit, filter_after _ hafter, right, firstKey_eq]
    intro e he
    rcases mem_append.1 he with he | he
    · exact Int.le_of_lt (hbefore e he)
    · rw [mem_singleton.1 he]
      exact Int.not_lt.1 hle

theorem holds_clear (s : Fields K V) : Holds keys (clear s) [] where
  entries_eq := rfl
  sorted := .nil
  count_eq := rfl

theorem Holds.after_splay (h : Holds keys s l) (key : K) : Holds keys (splay keys s key).1 l where
  entries_eq := by rw [splay_entries, h.entries_eq]
  sorted := h.sorted
  count_eq := by rw [splay_count, h.count_eq]

section

variable (h : Holds keys s l) (hlaw : LawfulCompare keys.compare)
include h hlaw

theorem Holds.splay_cut (hne : s.root ≠ .nil) (key : K) :
    CutAt keys.compare key l (splay keys s key).1.root (splay keys s key).2 := by
  rw [splay_of_ne hne]
  exact splayLoop_cut hlaw h.sorted key s.root [] [] false hne
    (by simp [leftEntries, rightEntries, h.entries_eq])
    (fun _ he => nomatch he) (fun _ he => nomatch he)

theorem Holds.splay_present (hcomp : (splay keys s key).2 = 0) :
    Present keys.compare key l (splay keys s key).1.root := by
  by_cases hne : s.root = .nil
  · rw [splay_of_nil hne] at hcomp
    cases hcomp
  · have hcut := h.splay_cut hlaw hne key
    rw [hcomp] at hcut
    exact hcut.present

theorem Holds.splay_absent (hcomp : (splay keys s key).2 ≠ 0) :
    Absent keys.compare key l (splay keys s key).1.root
      (splay keys s key).2 := by
  by_cases hne : s.root = .nil
  · have hl := h.entries_eq
    rw [hne] at hl
    rw [splay_of_nil hne, hne, ← hl]
    exact absent_nil _
  · exact (h.splay_cut hlaw hne key).absent hcomp

/-- The comparison that `_splay` returns tells whether the key is there. -/
theorem Holds.comp_eq_zero_iff (key : K) :
    (splay keys s key).2 = 0 ↔ (lookup keys.compare key l).isSome := by
  constructor
  · intro hcomp
    obtain ⟨k, v, hlookup, -⟩ := (h.splay_present hlaw hcomp).lookup
    rw [hlookup]
    rfl
  · intro hsome
    by_contra hcomp
    rw [(h.splay_absent hlaw hcomp).lookup] at hsome
    cases hsome

theorem Holds.removeNode (key : K) :
    (removeNode keys s key).2 = lookup keys.compare key l ∧
      Holds keys (SplayTree.removeNode keys s key).1 (erase keys.compare key l) ∧
      (SplayTree.removeNode keys s key).1.modificationCount =
        s.modificationCount + (if (lookup keys.compare key l).isSome then 1 else 0) := by
  rw [SplayTree.removeNode]
  split
  · rename_i hnil
    obtain rfl := h.eq_nil hnil
    exact ⟨rfl, h, rfl⟩
  by_cases hcomp : (splay keys s key).2 = 0
  · have hpresent := h.splay_present hlaw hcomp
    have hsplay := h.after_splay key
    obtain ⟨k, v, hlookup, hrootKey, hrootValue⟩ := hpresent.lookup
    simp only [if_neg (not_not_intro hcomp), hlookup]
    revert hpresent hsplay hrootKey hrootValue
    generalize hs' : (splay keys s key).1 = s'
    have hmod : s'.modificationCount = s.modificationCount := by
      rw [← hs', splay_modificationCount]
    intro hpresent hsplay hrootKey hrootValue
    split
    · rename_i hroot
      rw [hroot] at hrootKey
      cases hrootKey
    · rename_i k' v' r hroot
      rw [hroot] at hrootKey hrootValue
      cases hrootKey
      cases hrootValue
      refine ⟨rfl, hpresent.erase hsplay ?_, by rw [hmod]; rfl⟩
      intro tl k v tr heq
      rw [hroot] at heq
      cases heq
      rfl
    · rename_i ll lk lv lr k' v' r hroot
      rw [hroot] at hrootKey hrootValue
      cases hrootKey
      cases hrootValue
      refine ⟨rfl, hpresent.erase hsplay ?_, by rw [hmod]; rfl⟩
      intro tl k v tr heq
      rw [hroot] at heq
      cases heq
      obtain ⟨ml, mk, mv, hmax, hentries⟩ := splayMax_spec ll lk lv lr
      rw [hmax, entries.eq_2 ll, ← hentries]
      simp [entries]
  · have habsent := h.splay_absent hlaw hcomp
    have hnone := habsent.lookup
    simp only [if_pos hcomp, hnone, true_and]
    refine ⟨?_, splay_modificationCount key⟩
    obtain ⟨a, b, rfl, hbefore, hafter, -⟩ := habsent
    rw [erase_absent hbefore hafter]
    exact h.after_splay key

variable (key : K)

theorem Holds.lastKeyBefore : Observes keys s l (lastKeyBefore keys s key)
    ((lastBefore keys.compare key l).map Prod.fst) := by
  rw [SplayTree.lastKeyBefore]
  split
  · rename_i hnil
    obtain rfl := h.eq_nil hnil
    exact ⟨rfl, h, rfl⟩
  · rename_i hne
    rw [(h.splay_cut hlaw hne key).lastBefore]
    dsimp only
    split_ifs <;> exact ⟨rfl, h.after_splay key, splay_modificationCount key⟩

theorem Holds.firstKeyAfter : Observes keys s l (firstKeyAfter keys s key)
    ((firstAfter keys.compare key l).map Prod.fst) := by
  rw [SplayTree.firstKeyAfter]
  split
  · rename_i hnil
    obtain rfl := h.eq_nil hnil
    exact ⟨rfl, h, rfl⟩
  · rename_i hne
    rw [(h.splay_cut hlaw hne key).firstAfter]
    dsimp only
    split_ifs <;> exact ⟨rfl, h.after_splay key, splay_modificationCount key⟩

theorem Holds.get : Observes keys s l (get keys s key)
    (if keys.validKey key then (lookup keys.compare key l).map Prod.snd else none) := by
  rw [SplayTree.get]
  split
  · split
    · rename_i hnil
      obtain rfl := h.eq_nil hnil
      exact ⟨rfl, h, rfl⟩
    dsimp only
    split
    · rename_i hcomp
      obtain ⟨k, v, hlookup, -, hvalue⟩ := (h.splay_present hlaw hcomp).lookup
      rw [hlookup]
      exact ⟨hvalue, h.after_splay key, splay_modificationCount key⟩
    · rename_i hcomp
      rw [(h.splay_absent hlaw hcomp).lookup]
      exact ⟨rfl, h.after_splay key, splay_modificationCount key⟩
  · exact ⟨rfl, h, rfl⟩

theorem Holds.containsKey : Observes keys s l (containsKey keys s key)
    (keys.validKey key && (lookup keys.compare key l).isSome) := by
  rw [SplayTree.containsKey]
  split
  · rename_i hvalid
    refine ⟨?_, h.after_splay key, splay_modificationCount key⟩
    rw [hvalid, Bool.true_and, Bool.eq_iff_iff, beq_iff_eq]
    exact h.comp_eq_zero_iff hlaw key
  · rename_i hvalid
    refine ⟨?_, h, rfl⟩
    rw [Bool.not_eq_true] at hvalid
    rw [hvalid, Bool.false_and]

/-- `operator []=`: a key that is not there is counted as a modification. -/
theorem Holds.indexSet (value : V) :
    Holds keys (indexSet keys s key value) (put keys.compare key value l) ∧
      (SplayTree.indexSet keys s key value).modificationCount =
        s.modificationCount + (if (lookup keys.compare key l).isSome then 0 else 1) := by
  have hsplay := h.after_splay key
  rw [SplayTree.indexSet]
  dsimp only
  split
  · rename_i hcomp
    have hpresent := h.splay_present hlaw hcomp
    obtain ⟨k, v, hlookup, -⟩ := hpresent.lookup
    refine ⟨hpresent.setRootValue hsplay hlaw, ?_⟩
    rw [hlookup]
    exact splay_modificationCount key
  · rename_i hcomp
    have habsent := h.splay_absent hlaw hcomp
    refine ⟨habsent.addNewRoot hsplay hlaw, ?_⟩
    rw [habsent.lookup]
    exact congrArg (· + 1) (splay_modificationCount key)

end

end Methods

end Dart2Wasm.SplayTree
