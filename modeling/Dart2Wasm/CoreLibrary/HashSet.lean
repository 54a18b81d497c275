import Dart2Wasm.CoreLibrary.HashHeap

/-!
# HashSet — `_LinkedHashSetMixin`

The set keeps its elements in insertion order in `_data`, one cell each; a removed element leaves a
cell that holds the list itself. `_data` has half the length of the index. The model follows
`compact_hash.dart` method by method; `length`, `clear`, `_rehash`, `_init` and the end of `add` are
those of `Kind`. A method gives no result when it would not return or would leave the model.

`add`, `_rehash` and `_init` call each other; `_rehash` and `_init` take the `add` that they call as
an argument, and `add` counts the depth of the calls.
-/

namespace Dart2Wasm.CompactHash.LinkedHashSet

variable {K : Type}

/-- A cell of `_data`: `null` as allocated, the list itself where an element was removed. -/
inductive Cell (K : Type)
  | null
  | deleted
  | element (k : K)
  deriving DecidableEq

abbrev Fields (K : Type) := CompactHash.Fields (Cell K)

def elementAt (data : List (Cell K)) (d : Nat) : Option K :=
  match data[d]? with
  | some (.element k) => some k
  | _ => none

def cell : Option K → Cell K
  | none => .deleted
  | some k => .element k

def kind : Kind K K (Cell K) where
  width := 1
  keyOf := id
  cells e := [cell e]
  null := .null
  toKey
    | .element k => some k
    | _ => none
  read data d :=
    match data[d]? with
    | some .deleted => some none
    | some (.element key) => some (some key)
    | _ => none
  offset d := d
  entryOf usedData := usedData
  dataLength size := size >>> 1
  deletedShift := 1
  width_pos := by decide
  length_cells _ := rfl
  toKey_cells e := by cases e <;> rfl
  toKey_null := rfl
  read_cells pre e post := by cases e <;> simp [cell]
  offset_eq j := (Nat.one_mul j).symm
  entryOf_mul := Nat.one_mul
  dataLength_double n := (shiftRight_one_double n).trans (Nat.one_mul n).symm
  two_pow_deletedShift := rfl

/-! ## Reading -/

def length (m : Fields K) : Int :=
  kind.length m

/-- The element that is stored; `none` stands for `_data`, which is returned without one. -/
def getKeyOrData (hashing : Hashing K) (m : Fields K) (key : K) : Option (Option K) :=
  match kind.find hashing m key with
  | none => none
  | some (.found _ d) => (elementAt m.data d).map some
  | some (.absent _) => some none

def lookup (hashing : Hashing K) (m : Fields K) (key : K) : Option (Option K) :=
  getKeyOrData hashing m key

def contains (hashing : Hashing K) (m : Fields K) (key : K) : Option Bool :=
  (getKeyOrData hashing m key).map Option.isSome

/-- The loop of `first` and `last`; without an element left they throw. -/
def endLoop (data : List (Cell K)) : List Nat → Option (Option K)
  | [] => some none
  | offset :: offsets =>
    match data[offset]? with
    | some .deleted => endLoop data offsets
    | some (.element k) => some (some k)
    | _ => none

def first (m : Fields K) : Option (Option K) :=
  endLoop m.data (List.range m.usedData)

def last (m : Fields K) : Option (Option K) :=
  endLoop m.data (List.range m.usedData).reverse

/-! ## Writing -/

def add (has63BitSmis : Bool) (hashing : Hashing K) :
    Nat → Fields K → K → Option (Fields K × Bool)
  | 0, _, _ => none
  | depth + 1, m, key =>
    match kind.find hashing m key with
    | none => none
    | some (.found _ _) => some (m, false)
    | some (.absent insertionPoint) =>
      (kind.insert has63BitSmis (fun m key => (add has63BitSmis hashing depth m key).map Prod.fst) m
        key (hashPattern (hashing.hashCode key) m.hashMask m.index.length) insertionPoint).map
          fun m => (m, true)

def remove (hashing : Hashing K) (m : Fields K) (key : K) : Option (Fields K × Bool) :=
  match kind.find hashing m key with
  | none => none
  | some (.found i d) => do
    let index ← store m.index i deletedPair
    let data ← store m.data d .deleted
    some ({ m with index := index, data := data, deletedKeys := m.deletedKeys + 1 }, true)
  | some (.absent _) => some (m, false)

def clear (m : Fields K) : Fields K :=
  kind.clear m

/-- `_roundUpToPowerOfTwo`, for a number that is not zero. -/
def roundUpToPowerOfTwo (x : Nat) : Nat :=
  let x := x - 1
  let x := x ||| (x >>> 1)
  let x := x ||| (x >>> 2)
  let x := x ||| (x >>> 4)
  let x := x ||| (x >>> 8)
  let x := x ||| (x >>> 16)
  let x := x ||| (x >>> 32)
  x + 1

def regenerateIndex (has63BitSmis : Bool) (hashing : Hashing K) (depth : Nat) (m : Fields K) :
    Option (Fields K) := do
  let size := roundUpToPowerOfTwo (max m.data.length initialIndexSize)
  let index := if m.data.length = 0 then uninitializedIndex else newIndex size
  let hashMask ← indexSizeToHashMask has63BitSmis index.length
  kind.rehash has63BitSmis (fun m key => (add has63BitSmis hashing depth m key).map Prod.fst)
    { m with index := index, hashMask := hashMask }

/-- A `for` loop over a set, on a state `σ` in which `table` finds the set: `moveNext` checks for a
modification and passes the removed elements. The result tells whether a
`ConcurrentModificationError` ended the loop. Until then `_data` is the list the iterator was
given. -/
def iterLoop {σ : Type} (table : σ → Option (Fields K)) (action : σ → K → Option σ)
    (dataId oldCheckSum : Nat) : List Nat → σ → Option (σ × Bool)
  | [], s => do
    let m ← table s
    some (s, isModifiedSince m dataId oldCheckSum)
  | offset :: offsets, s => do
    let m ← table s
    if isModifiedSince m dataId oldCheckSum then some (s, true)
    else
      match m.data[offset]? with
      | some .deleted => iterLoop table action dataId oldCheckSum offsets s
      | some (.element key) => do
        let s ← action s key
        iterLoop table action dataId oldCheckSum offsets s
      | _ => none

def forIn {σ : Type} (table : σ → Option (Fields K)) (action : σ → K → Option σ) (s : σ) :
    Option (σ × Bool) := do
  let m ← table s
  iterLoop table action m.dataId (checkSum m) (List.range m.usedData) s

def elements (m : Fields K) : Option (List K) := do
  let (seen, _) ← forIn (fun _ => some m) (fun seen k => some (seen ++ [k])) []
  some seen

/-! ## Programs that use several sets -/

/-- The classes that mix in `_LinkedHashSetMixin`; a custom set brings its own functions. -/
inductive SetClass
  | compact
  | identity
  | custom (equality : Nat)
  deriving DecidableEq

structure Runtime (K : Type) where
  has63BitSmis : Bool
  hashing : SetClass → Hashing K
  validKey : Nat → K → Bool

/-- A custom set asks `_validKey` before it looks for an element. -/
def Runtime.accepts (rt : Runtime K) : SetClass → K → Bool
  | .custom equality, key => rt.validKey equality key
  | _, _ => true

abbrev SetObject (K : Type) := Object SetClass (Cell K)

abbrev Heap (K : Type) := List (SetObject K)

/-- Two sets of one of the classes that override `addAll` try the block copy. -/
def SetClass.blockCopies : SetClass → SetClass → Bool
  | .compact, .compact => true
  | .identity, .identity => true
  | _, _ => false

/-- The methods; what is added by `addAll` is a set of the program, or some other iterable. -/
inductive Method (K : Type)
  | add (key : K)
  | remove (key : K)
  | contains (key : K)
  | lookup (key : K)
  | clear
  | addAll (other : Nat)
  | addAllOf (elements : List K)
  | regenerateIndex
  | first
  | last
  | length
  | elements
  deriving DecidableEq

/-- A set is given by its number in the order of creation. -/
inductive Call (K : Type)
  | create (cls : SetClass)
  | on (set : Nat) (method : Method K)
  deriving DecidableEq

inductive Answer (K : Type)
  | done
  | element (k : Option K)
  | flag (b : Bool)
  | number (n : Int)
  | elements (l : List K)
  | noElement
  | concurrentModification
  | noSet
  deriving DecidableEq

/-- What `first` or `last` answers, with a `StateError` when no element is left. -/
def Answer.ofEnd : Option K → Answer K
  | none => .noElement
  | some k => .element (some k)

section Exec

variable (rt : Runtime K) (depth : Nat)

def addAt (set : Nat) : Heap K → K → Option (Heap K) :=
  putAt (fun cls m key => (add rt.has63BitSmis (rt.hashing cls) depth m key).map Prod.fst) set

def mixinAddAll (set other : Nat) : Heap K → Option (Heap K × Bool) :=
  forIn (fun heap => heap[other]?.map Object.fields) (addAt rt depth set)

def addAll (set other : Nat) : Heap K → Option (Heap K × Bool) :=
  kind.addAll SetClass.blockCopies (mixinAddAll rt depth set other) set other

def execOn (heap : Heap K) (set : Nat) (object : SetObject K) :
    Method K → Option (Heap K × Answer K)
  | .add key =>
    (add rt.has63BitSmis (rt.hashing object.cls) depth object.fields key).map
      fun (fields, b) => (heap.set set { object with fields := fields }, .flag b)
  | .remove key =>
    (if rt.accepts object.cls key then remove (rt.hashing object.cls) object.fields key
      else some (object.fields, false)).map
        fun (fields, b) => (heap.set set { object with fields := fields }, .flag b)
  | .contains key =>
    (if rt.accepts object.cls key then contains (rt.hashing object.cls) object.fields key
      else some false).map fun b => (heap, .flag b)
  | .lookup key =>
    (if rt.accepts object.cls key then lookup (rt.hashing object.cls) object.fields key
      else some none).map fun k => (heap, .element k)
  | .clear => some (heap.set set { object with fields := clear object.fields }, .done)
  | .addAll other =>
    match heap[other]? with
    | none => some (heap, .noSet)
    | some _ =>
      (addAll rt depth set other heap).map fun (heap, threw) =>
        (heap, if threw then .concurrentModification else .done)
  | .addAllOf elements =>
    (elements.foldlM (addAt rt depth set) heap).map fun heap => (heap, .done)
  | .regenerateIndex =>
    (regenerateIndex rt.has63BitSmis (rt.hashing object.cls) depth object.fields).map
      fun fields => (heap.set set { object with fields := fields }, .done)
  | .first => (first object.fields).map fun k => (heap, .ofEnd k)
  | .last => (last object.fields).map fun k => (heap, .ofEnd k)
  | .length => some (heap, .number (length object.fields))
  | .elements => (elements object.fields).map fun l => (heap, .elements l)

def exec (heap : Heap K) : Call K → Option (Heap K × Answer K)
  | .create cls => some (heap ++ [{ cls := cls, fields := {} }], .done)
  | .on set method =>
    match heap[set]? with
    | none => some (heap, .noSet)
    | some object => execOn rt depth heap set object method

def execAll : List (Call K) → Heap K → Option (Heap K × List (Answer K))
  | [], heap => some (heap, [])
  | call :: calls, heap => do
    let (heap, answer) ← exec rt depth heap call
    let (heap, answers) ← execAll calls heap
    some (heap, answer :: answers)

end Exec

end Dart2Wasm.CompactHash.LinkedHashSet
