import Mathlib.Algebra.Group.Nat.Defs
import Dart2Wasm.Lib.SortedAssoc

/-!
# SplayTree — `SplayTreeMap` and `SplayTreeSet`

The model of `splay_tree.dart`. A tree is a value here: no node is shared between two trees, so that
writing a link in place and building the tree with the new link are the same. The four dangling link
variables of `_splay` are two stacks of frames, the tree to the left of the hole and the tree to its
right.

A callback of `putIfAbsent` or `update` is the list of calls it makes on the map and what it
returns, or that it throws; for `update` both are functions of the value it is given.
-/

namespace Dart2Wasm.SplayTree

variable {K V : Type}

inductive Tree (K V : Type)
  | nil
  | node (left : Tree K V) (key : K) (value : V) (right : Tree K V)
  deriving DecidableEq

/-- The entries in the order in which an iterator comes by them. -/
def Tree.entries : Tree K V → List (K × V)
  | .nil => []
  | .node left key value right => left.entries ++ (key, value) :: right.entries

/-- What the maps and sets are given: `_compare`, `_validKey`, and which key is `null`. -/
structure Keys (K : Type) where
  compare : K → K → Int
  validKey : K → Bool
  isNull : K → Bool

/-! ## Splaying -/

/-- A linked node with the subtree it keeps. Its other link is the hole. -/
structure Frame (K V : Type) where
  key : K
  value : V
  subtree : Tree K V

/-- The tree on the left, with its hole filled. The last frame linked comes first. -/
def fillLeft : List (Frame K V) → Tree K V → Tree K V
  | [], t => t
  | f :: left, t => fillLeft left (.node f.subtree f.key f.value t)

def fillRight : List (Frame K V) → Tree K V → Tree K V
  | [], t => t
  | f :: right, t => fillRight right (.node t f.key f.value f.subtree)

/-- The tree after `_splay`, the last comparison, and whether the root is another node. -/
structure Splayed (K V : Type) where
  root : Tree K V
  comp : Int
  moved : Bool

def assemble (left right : List (Frame K V)) (l : Tree K V) (k : K) (v : V) (r : Tree K V)
    (comp : Int) (moved : Bool) : Splayed K V :=
  { root := .node (fillLeft left l) k v (fillRight right r), comp := comp, moved := moved }

/-- The loop of `_splay`. The node that was the root is never current again once it is linked. -/
def splayLoop (compare : K → K → Int) (key : K) :
    Tree K V → List (Frame K V) → List (Frame K V) → Bool → Splayed K V
  | .nil, _, _, moved => { root := .nil, comp := -1, moved := moved }
  | .node l k v r, left, right, moved =>
    if compare k key > 0 then
      match l with
      | .nil => assemble left right .nil k v r (compare k key) moved
      | .node ll lk lv lr =>
        if compare lk key > 0 then
          -- rotate right
          match ll with
          | .nil => assemble left right .nil lk lv (.node lr k v r) (compare lk key) true
          | .node lll llk llv llr =>
            splayLoop compare key (.node lll llk llv llr) left
              (⟨lk, lv, .node lr k v r⟩ :: right) true
        else splayLoop compare key (.node ll lk lv lr) left (⟨k, v, r⟩ :: right) true
    else if compare k key < 0 then
      match r with
      | .nil => assemble left right l k v .nil (compare k key) moved
      | .node rl rk rv rr =>
        if compare rk key < 0 then
          -- rotate left
          match rr with
          | .nil => assemble left right (.node l k v rl) rk rv .nil (compare rk key) true
          | .node rrl rrk rrv rrr =>
            splayLoop compare key (.node rrl rrk rrv rrr) (⟨rk, rv, .node l k v rl⟩ :: left)
              right true
        else splayLoop compare key (.node rl rk rv rr) (⟨k, v, l⟩ :: left) right true
    else assemble left right l k v r (compare k key) moved

/-- `_splayMin` of the node with the given parts. -/
def splayMin : Tree K V → K → V → Tree K V → Tree K V
  | .nil, k, v, r => .node .nil k v r
  | .node ll lk lv lr, k, v, r => splayMin ll lk lv (.node lr k v r)

def splayMax : Tree K V → K → V → Tree K V → Tree K V
  | l, k, v, .nil => .node l k v .nil
  | l, k, v, .node rl rk rv rr => splayMax (.node l k v rl) rk rv rr

/-! ## The tree object -/

/-- The fields of a tree. The counters are 64-bit integers in the source; here they go on, and
`SameCount` compares what is left of them in 64 bits. -/
structure Fields (K V : Type) where
  root : Tree K V := .nil
  count : Int := 0
  modificationCount : Nat := 0
  splayCount : Nat := 0

def SameCount (a b : Nat) : Prop := a % 2 ^ 64 = b % 2 ^ 64

instance (a b : Nat) : Decidable (SameCount a b) := inferInstanceAs (Decidable (_ = _))

/-- `_splay`, with the comparison it returns. -/
def splay (keys : Keys K) (s : Fields K V) (key : K) : Fields K V × Int :=
  match s.root with
  | .nil => (s, -1)
  | root =>
    let splayed := splayLoop keys.compare key root [] [] false
    ({ s with
        root := splayed.root
        splayCount := if splayed.moved then s.splayCount + 1 else s.splayCount },
      splayed.comp)

/-- `_remove`, with the removed key and value. -/
def removeNode (keys : Keys K) (s : Fields K V) (key : K) : Fields K V × Option (K × V) :=
  match s.root with
  | .nil => (s, none)
  | _ =>
    let (s, comp) := splay keys s key
    if comp ≠ 0 then (s, none)
    else
      match s.root with
      | .nil => (s, none)
      | .node .nil k v r =>
        ({ s with root := r, count := s.count - 1,
                  modificationCount := s.modificationCount + 1 }, some (k, v))
      | .node (.node ll lk lv lr) k v r =>
        -- the greatest node on the left has no right child
        let root := match splayMax ll lk lv lr with
          | .nil => r
          | .node ml mk mv _ => .node ml mk mv r
        ({ s with root := root, count := s.count - 1,
                  modificationCount := s.modificationCount + 1 }, some (k, v))

def addNewRoot (s : Fields K V) (key : K) (value : V) (comp : Int) : Fields K V :=
  { s with
    root :=
      match s.root with
      | .nil => .node .nil key value .nil
      | .node l k v r =>
        if comp < 0 then .node (.node l k v .nil) key value r
        else .node l key value (.node .nil k v r)
    count := s.count + 1
    modificationCount := s.modificationCount + 1 }

/-- The getter `_first`, which leaves the counters alone. -/
def first (s : Fields K V) : Fields K V × Option K :=
  match s.root with
  | .nil => (s, none)
  | .node l k v r =>
    match splayMin l k v r with
    | .nil => (s, none)
    | .node ml mk mv mr => ({ s with root := .node ml mk mv mr }, some mk)

def last (s : Fields K V) : Fields K V × Option K :=
  match s.root with
  | .nil => (s, none)
  | .node l k v r =>
    match splayMax l k v r with
    | .nil => (s, none)
    | .node ml mk mv mr => ({ s with root := .node ml mk mv mr }, some mk)

def clear (s : Fields K V) : Fields K V :=
  { s with root := .nil, count := 0, modificationCount := s.modificationCount + 1 }

def containsKey (keys : Keys K) (s : Fields K V) (key : K) : Fields K V × Bool :=
  if keys.validKey key then
    let (s, comp) := splay keys s key
    (s, comp == 0)
  else (s, false)

/-- The value at the root, `none` without one. -/
def Tree.rootValue : Tree K V → Option V
  | .nil => none
  | .node _ _ v _ => some v

def Tree.rootKey : Tree K V → Option K
  | .nil => none
  | .node _ k _ _ => some k

def Tree.left : Tree K V → Tree K V
  | .nil => .nil
  | .node l _ _ _ => l

def Tree.right : Tree K V → Tree K V
  | .nil => .nil
  | .node _ _ _ r => r

/-- `_replaceValue` of the root. -/
def Tree.replaceValue (value : V) : Tree K V → Tree K V
  | .nil => .nil
  | .node l k _ r => .node l k value r

/-! ## `SplayTreeMap` -/

/-- `operator []`. -/
def get (keys : Keys K) (s : Fields K V) (key : K) : Fields K V × Option V :=
  if keys.validKey key then
    match s.root with
    | .nil => (s, none)
    | _ =>
      let (s, comp) := splay keys s key
      if comp = 0 then (s, s.root.rootValue) else (s, none)
  else (s, none)

def remove (keys : Keys K) (s : Fields K V) (key : K) : Fields K V × Option V :=
  if keys.validKey key then
    let (s, node) := removeNode keys s key
    (s, node.map Prod.snd)
  else (s, none)

def setRootValue (s : Fields K V) (value : V) : Fields K V :=
  { s with root := s.root.replaceValue value, splayCount := s.splayCount + 1 }

/-- `operator []=`. -/
def indexSet (keys : Keys K) (s : Fields K V) (key : K) (value : V) : Fields K V :=
  let (s, comp) := splay keys s key
  if comp = 0 then setRootValue s value else addNewRoot s key value comp

/-- The key that the search for the last key in a subtree ends with. -/
def Tree.lastKey : Tree K V → Option K
  | .nil => none
  | .node _ k _ .nil => some k
  | .node _ _ _ (.node l k v r) => (Tree.node l k v r).lastKey

def Tree.firstKey : Tree K V → Option K
  | .nil => none
  | .node .nil k _ _ => some k
  | .node (.node l k v r) _ _ _ => (Tree.node l k v r).firstKey

/-- `lastKeyBefore` with a key that is not `null`. -/
def lastKeyBefore (keys : Keys K) (s : Fields K V) (key : K) : Fields K V × Option K :=
  match s.root with
  | .nil => (s, none)
  | _ =>
    let (s, comp) := splay keys s key
    if comp < 0 then (s, s.root.rootKey) else (s, s.root.left.lastKey)

def firstKeyAfter (keys : Keys K) (s : Fields K V) (key : K) : Fields K V × Option K :=
  match s.root with
  | .nil => (s, none)
  | _ =>
    let (s, comp) := splay keys s key
    if comp > 0 then (s, s.root.rootKey) else (s, s.root.right.firstKey)

/-- A call on a map, with the calls that a callback makes and its result unless it throws. The
callback of `update` is given the value of the key. -/
inductive Call (K V : Type)
  | get (key : K)
  | set (key : K) (value : V)
  | remove (key : K)
  | putIfAbsent (key : K) (ifAbsent : List (Call K V)) (result : Option V)
  | update (key : K) (update : V → List (Call K V)) (result : V → Option V)
  | updateOrAdd (key : K) (update : V → List (Call K V)) (result : V → Option V)
      (ifAbsent : List (Call K V)) (added : Option V)
  | containsKey (key : K)
  | firstKey
  | lastKey
  | lastKeyBefore (key : K)
  | firstKeyAfter (key : K)
  | clear
  | length
  | entries

inductive Answer (K V : Type)
  | done
  | value (v : Option V)
  | key (k : Option K)
  | flag (b : Bool)
  | number (n : Int)
  | entries (l : List (K × V))
  | callbackThrew
  | concurrentModification
  | argumentError
  deriving DecidableEq

/-- `putIfAbsent` after the callback; `s` is the state before it. -/
def addAfterCallback (keys : Keys K) (s : Fields K V) (key : K) (comp : Int) (s' : Fields K V)
    (value : V) : Fields K V × Answer K V :=
  if ¬ SameCount s.modificationCount s'.modificationCount then (s', .concurrentModification)
  else if ¬ SameCount s.splayCount s'.splayCount then
    let (s', comp) := splay keys s' key
    (addNewRoot s' key value comp, .value (some value))
  else (addNewRoot s' key value comp, .value (some value))

/-- `update` of a key that is there, after the callback. -/
def updateAfterCallback (keys : Keys K) (s : Fields K V) (key : K) (s' : Fields K V) (value : V) :
    Fields K V × Answer K V :=
  if ¬ SameCount s.modificationCount s'.modificationCount then (s', .concurrentModification)
  else if ¬ SameCount s.splayCount s'.splayCount then
    (setRootValue (splay keys s' key).1 value, .value (some value))
  else (setRootValue s' value, .value (some value))

/-- A method goes on when its callback has made its calls, unless the callback throws. -/
def finish {σ : Type} (x : σ × List (Answer K V)) (result : Option V)
    (after : σ → V → σ × Answer K V) : σ × List (Answer K V) :=
  match result with
  | none => (x.1, x.2 ++ [.callbackThrew])
  | some value => ((after x.1 value).1, x.2 ++ [(after x.1 value).2])

section Exec

variable (keys : Keys K)

mutual

def exec : Call K V → Fields K V → Fields K V × List (Answer K V)
  | .get key, s =>
    let (s, v) := get keys s key
    (s, [.value v])
  | .set key value, s => (indexSet keys s key value, [.done])
  | .remove key, s =>
    let (s, v) := remove keys s key
    (s, [.value v])
  | .putIfAbsent key ifAbsent result, s =>
    let (s, comp) := splay keys s key
    if comp = 0 then (s, [.value s.root.rootValue])
    else finish (execAll ifAbsent s) result (addAfterCallback keys s key comp)
  | .update key update result, s =>
    let (s, comp) := splay keys s key
    if comp = 0 then
      match s.root.rootValue with
      -- not without a root to compare with
      | none => (s, [.argumentError])
      | some value =>
        finish (execAll (update value) s) (result value) (updateAfterCallback keys s key)
    else (s, [.argumentError])
  | .updateOrAdd key update result ifAbsent added, s =>
    let (s, comp) := splay keys s key
    if comp = 0 then
      match s.root.rootValue with
      | none => (s, [.argumentError])
      | some value =>
        finish (execAll (update value) s) (result value) (updateAfterCallback keys s key)
    else finish (execAll ifAbsent s) added (addAfterCallback keys s key comp)
  | .containsKey key, s =>
    let (s, b) := containsKey keys s key
    (s, [.flag b])
  | .firstKey, s =>
    let (s, k) := first s
    (s, [.key k])
  | .lastKey, s =>
    let (s, k) := last s
    (s, [.key k])
  | .lastKeyBefore key, s =>
    if keys.isNull key then (s, [.argumentError])
    else
      let (s, k) := lastKeyBefore keys s key
      (s, [.key k])
  | .firstKeyAfter key, s =>
    if keys.isNull key then (s, [.argumentError])
    else
      let (s, k) := firstKeyAfter keys s key
      (s, [.key k])
  | .clear, s => (clear s, [.done])
  | .length, s => (s, [.number s.count])
  | .entries, s => (s, [.entries s.root.entries])

def execAll : List (Call K V) → Fields K V → Fields K V × List (Answer K V)
  | [], s => (s, [])
  | call :: calls, s =>
    let (s, log) := exec call s
    let (s, log') := execAll calls s
    (s, log ++ log')

end

end Exec

/-! ## `SplayTreeSet` -/

/-- A set is a tree without values. -/
abbrev SetFields (K : Type) := Fields K Unit

def setAdd (keys : Keys K) (s : SetFields K) (element : K) : SetFields K × Bool :=
  let (s, comp) := splay keys s element
  if comp = 0 then (s, false) else (addNewRoot s element () comp, true)

def setLookup (keys : Keys K) (s : SetFields K) (object : K) : SetFields K × Option K :=
  if keys.validKey object then
    let (s, comp) := splay keys s object
    if comp ≠ 0 then (s, none) else (s, s.root.rootKey)
  else (s, none)

def setRemove (keys : Keys K) (s : SetFields K) (object : K) : SetFields K × Bool :=
  if keys.validKey object then
    let (s, node) := removeNode keys s object
    (s, node.isSome)
  else (s, false)

/-- The loop of `retainAll` over elements that another iterable yields. -/
def retainLoop (keys : Keys K) : List K → SetFields K → SetFields K → SetFields K × SetFields K
  | [], s, retained => (s, retained)
  | object :: objects, s, retained =>
    if keys.validKey object then
      let (s, comp) := splay keys s object
      match s.root.rootKey with
      | some k =>
        if comp = 0 then retainLoop keys objects s (setAdd keys retained k).1
        else retainLoop keys objects s retained
      | none => retainLoop keys objects s retained
    else retainLoop keys objects s retained

def retainAll (keys : Keys K) (s : SetFields K) (elements : List K) : SetFields K :=
  let (s, retained) := retainLoop keys elements s {}
  if retained.count ≠ s.count then
    { s with root := retained.root, count := retained.count,
             modificationCount := s.modificationCount + 1 }
  else s

/-- `copyChildren` and `_copyNode`: new nodes with the same keys, linked alike. -/
def copyNode : Tree K V → Tree K Unit
  | .nil => .nil
  | .node l k _ r => .node (copyNode l) k () (copyNode r)

def clone (s : SetFields K) : SetFields K :=
  { root := copyNode s.root, count := s.count }

/-- A call on a set, which is given by its number in the order of creation. -/
inductive SetCall (K : Type)
  | create
  | add (set : Nat) (element : K)
  | contains (set : Nat) (element : K)
  | lookup (set : Nat) (object : K)
  | remove (set : Nat) (object : K)
  | retainAll (set : Nat) (elements : List K)
  | first (set : Nat)
  | last (set : Nat)
  | clear (set : Nat)
  | clone (set : Nat)
  | length (set : Nat)
  | elements (set : Nat)

inductive SetAnswer (K : Type)
  | done
  | flag (b : Bool)
  | element (e : Option K)
  | number (n : Int)
  | elements (l : List K)
  | noElement
  | noSet
  deriving DecidableEq

abbrev SetHeap (K : Type) := List (SetFields K)

/-- What a call does to the set it is made on. -/
def setExecOn (keys : Keys K) : SetCall K → SetFields K → SetFields K × SetAnswer K
  | .create, s => (s, .done)
  | .add _ element, s =>
    let (s, b) := setAdd keys s element
    (s, .flag b)
  | .contains _ element, s =>
    let (s, b) := containsKey keys s element
    (s, .flag b)
  | .lookup _ object, s =>
    let (s, e) := setLookup keys s object
    (s, .element e)
  | .remove _ object, s =>
    let (s, b) := setRemove keys s object
    (s, .flag b)
  | .retainAll _ elements, s => (retainAll keys s elements, .done)
  | .first _, s =>
    if s.count = 0 then (s, .noElement)
    else
      let (s, e) := first s
      (s, .element e)
  | .last _, s =>
    if s.count = 0 then (s, .noElement)
    else
      let (s, e) := last s
      (s, .element e)
  | .clear _, s => (clear s, .done)
  | .clone _, s => (s, .done)
  | .length _, s => (s, .number s.count)
  | .elements _, s => (s, .elements (s.root.entries.map Prod.fst))

/-- The set a call is made on, and whether the call adds a set. -/
def SetCall.target : SetCall K → Option Nat
  | .create => none
  | .add set _ | .contains set _ | .lookup set _ | .remove set _ | .retainAll set _ => some set
  | .first set | .last set | .clear set | .clone set | .length set | .elements set => some set

def SetCall.isClone : SetCall K → Bool
  | .clone _ => true
  | _ => false

def setExec (keys : Keys K) (heap : SetHeap K) (call : SetCall K) : SetHeap K × SetAnswer K :=
  match call.target with
  | none => (heap ++ [{}], .done)
  | some set =>
    match heap[set]? with
    | none => (heap, .noSet)
    | some s =>
      if call.isClone then (heap ++ [clone s], .done)
      else
        let (s, answer) := setExecOn keys call s
        (heap.set set s, answer)

end Dart2Wasm.SplayTree
