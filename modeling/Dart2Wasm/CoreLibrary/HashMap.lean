import Dart2Wasm.CoreLibrary.HashHeap

/-!
# HashMap — `_LinkedHashMapMixin`

The map keeps its keys and values in insertion order in the cells of `_data`, a key at an even
offset and its value after it; a removed pair leaves two cells that hold the list itself. The model
follows `compact_hash.dart` method by method; `length`, `clear`, `_insert`, `_rehash` and `_init`
are those of `Kind`. A method gives no result when it would not return or would leave the model (an
index out of range, a cell that does not hold what is read).

`[]=`, `_insert`, `_rehash` and `_init` call each other; the three others take the `[]=` that they
call as an argument, and `[]=` counts the depth of the calls.
-/

namespace Dart2Wasm.CompactHash.LinkedHashMap

variable {K V : Type}

/-- A cell of `_data`: `null` as allocated, the list itself where something was removed. -/
inductive Cell (K V : Type)
  | null
  | deleted
  | key (k : K)
  | value (v : V)
  deriving DecidableEq

abbrev Fields (K V : Type) := CompactHash.Fields (Cell K V)

def valueAt (data : List (Cell K V)) (d : Nat) : Option V :=
  match data[d]? with
  | some (.value v) => some v
  | _ => none

def keyCell : Option (K × V) → Cell K V
  | none => .deleted
  | some (k, _) => .key k

def valueCell : Option (K × V) → Cell K V
  | none => .deleted
  | some (_, v) => .value v

def kind : Kind K (K × V) (Cell K V) where
  width := 2
  keyOf := Prod.fst
  cells e := [keyCell e, valueCell e]
  null := .null
  toKey
    | .key k => some k
    | _ => none
  read data d :=
    match data[d]? with
    | some .deleted => some none
    | some (.key key) => (valueAt data (d + 1)).map fun value => some (key, value)
    | _ => none
  offset entry := entry <<< 1
  entryOf usedData := usedData >>> 1
  dataLength size := size
  deletedShift := 2
  width_pos := by decide
  length_cells _ := rfl
  toKey_cells e := by cases e <;> rfl
  toKey_null := rfl
  read_cells pre e post := by cases e <;> simp [keyCell, valueCell, valueAt]
  offset_eq := shiftLeft_one
  entryOf_mul := shiftRight_one_double
  dataLength_double _ := rfl
  two_pow_deletedShift := rfl

/-! ## Reading -/

def length (m : Fields K V) : Int :=
  kind.length m

/-- The index of the value in `_data`, or the negated insertion point in the index. -/
def findValueOrInsertPoint (hashing : Hashing K) (m : Fields K V) (key : K) : Option Int :=
  match kind.find hashing m key with
  | none => none
  | some (.found _ entry) => some ((entry <<< 1 : Nat) + 1)
  | some (.absent insertionPoint) => some (-(insertionPoint : Int))

/-- The value of a key; `none` stands for `_data`, which is what is returned without one. -/
def getValueOrData (hashing : Hashing K) (m : Fields K V) (key : K) : Option (Option V) :=
  match kind.find hashing m key with
  | none => none
  | some (.found _ entry) => (valueAt m.data ((entry <<< 1) + 1)).map some
  | some (.absent _) => some none

def containsKey (hashing : Hashing K) (m : Fields K V) (key : K) : Option Bool :=
  (getValueOrData hashing m key).map Option.isSome

/-- `operator []`. -/
def get (hashing : Hashing K) (m : Fields K V) (key : K) : Option (Option V) :=
  getValueOrData hashing m key

/-! ## Writing -/

/-- `operator []=`. -/
def indexSet (has63BitSmis : Bool) (hashing : Hashing K) :
    Nat → Fields K V → K → V → Option (Fields K V)
  | 0, _, _, _ => none
  | depth + 1, m, key, value =>
    match findValueOrInsertPoint hashing m key with
    | none => none
    | some d =>
      if d > 0 then do
        let data ← store m.data d.toNat (.value value)
        some { m with data := data }
      else
        kind.insert has63BitSmis (fun m e => indexSet has63BitSmis hashing depth m e.1 e.2) m
          (key, value) (hashPattern (hashing.hashCode key) m.hashMask m.index.length) (-d).toNat

/-- The rest of `putIfAbsent`, after `ifAbsent` has left the map as `m`; `old` is the map before. -/
def putAbsent (has63BitSmis : Bool) (hashing : Hashing K) (depth : Nat) (old m : Fields K V)
    (key : K) (value : V) (d : Int) : Option (Fields K V) :=
  if isModifiedSince m old.dataId (checkSum old) then
    indexSet has63BitSmis hashing depth m key value
  else
    kind.insert has63BitSmis (fun m e => indexSet has63BitSmis hashing depth m e.1 e.2) m
      (key, value) (hashPattern (hashing.hashCode key) old.hashMask old.index.length) (-d).toNat

def remove (hashing : Hashing K) (m : Fields K V) (key : K) : Option (Fields K V × Option V) :=
  match kind.find hashing m key with
  | none => none
  | some (.found i entry) => do
    let d := entry <<< 1
    let index ← store m.index i deletedPair
    let data ← store m.data d .deleted
    let value ← valueAt data (d + 1)
    let data ← store data (d + 1) .deleted
    some ({ m with index := index, data := data, deletedKeys := m.deletedKeys + 1 }, some value)
  | some (.absent _) => some (m, none)

def clear (m : Fields K V) : Fields K V :=
  kind.clear m

/-- The loop of `forEach`, on a state `σ` in which `table` finds the map. The result tells whether a
`ConcurrentModificationError` ended the loop. Until then `_data` is the list it started with. -/
def forEachLoop {σ : Type} (table : σ → Option (Fields K V)) (action : σ → K × V → Option σ)
    (dataId oldCheckSum : Nat) : List Nat → σ → Option (σ × Bool)
  | [], s => some (s, false)
  | offset :: offsets, s => do
    let m ← table s
    match m.data[offset]? with
    | some .deleted => forEachLoop table action dataId oldCheckSum offsets s
    | some (.key key) => do
      let value ← valueAt m.data (offset + 1)
      let s ← action s (key, value)
      let m ← table s
      if isModifiedSince m dataId oldCheckSum then some (s, true)
      else forEachLoop table action dataId oldCheckSum offsets s
    | _ => none

def forEach {σ : Type} (table : σ → Option (Fields K V)) (action : σ → K × V → Option σ) (s : σ) :
    Option (σ × Bool) := do
  let m ← table s
  forEachLoop table action m.dataId (checkSum m) (offsets 2 m.usedData) s

/-- The pairs that `forEach` comes by, in order. -/
def pairs (m : Fields K V) : Option (List (K × V)) := do
  let (seen, _) ← forEach (fun _ => some m) (fun seen p => some (seen ++ [p])) []
  some seen

/-! ## Programs that use several maps -/

/-- The classes that mix in `_LinkedHashMapMixin`; a custom map brings its own functions. -/
inductive MapClass
  | internal
  | identity
  | custom (equality : Nat)
  deriving DecidableEq

/-- What the maps rely on: hash and equality of each class, the valid keys of the custom maps, and
the size of small integers. -/
structure Runtime (K : Type) where
  has63BitSmis : Bool
  hashing : MapClass → Hashing K
  validKey : Nat → K → Bool

/-- A custom map asks `_validKey` before it looks for a key. -/
def Runtime.accepts (rt : Runtime K) : MapClass → K → Bool
  | .custom equality, key => rt.validKey equality key
  | _, _ => true

abbrev MapObject (K V : Type) := Object MapClass (Cell K V)

abbrev Heap (K V : Type) := List (MapObject K V)

/-- Two maps of one of the classes that override `addAll` try the block copy. -/
def MapClass.blockCopies : MapClass → MapClass → Bool
  | .internal, .internal => true
  | .identity, .identity => true
  | _, _ => false

/-- A call on a map, given by its number in the order of creation. `ifAbsent` is the sequence of
calls that the callback makes, and what it returns unless it throws. -/
inductive Call (K V : Type)
  | create (cls : MapClass)
  | set (map : Nat) (key : K) (value : V)
  | get (map : Nat) (key : K)
  | containsKey (map : Nat) (key : K)
  | remove (map : Nat) (key : K)
  | putIfAbsent (map : Nat) (key : K) (ifAbsent : List (Call K V)) (result : Option V)
  | clear (map : Nat)
  | addAll (map other : Nat)
  | length (map : Nat)
  | pairs (map : Nat)

inductive Answer (K V : Type)
  | done
  | value (v : Option V)
  | flag (b : Bool)
  | number (n : Int)
  | pairs (l : List (K × V))
  | callbackThrew
  | concurrentModification
  | noMap
  deriving DecidableEq

section Exec

variable (rt : Runtime K) (depth : Nat)

def indexSetAt (map : Nat) : Heap K V → K × V → Option (Heap K V) :=
  putAt (fun cls m p => indexSet rt.has63BitSmis (rt.hashing cls) depth m p.1 p.2) map

def mixinAddAll (map other : Nat) : Heap K V → Option (Heap K V × Bool) :=
  forEach (fun heap => heap[other]?.map Object.fields) (indexSetAt rt depth map)

def addAll (map other : Nat) : Heap K V → Option (Heap K V × Bool) :=
  kind.addAll MapClass.blockCopies (mixinAddAll rt depth map other) map other

/-- A call on one map. -/
def onMap (heap : Heap K V) (map : Nat)
    (run : MapObject K V → Option (Heap K V × List (Answer K V))) :
    Option (Heap K V × List (Answer K V)) :=
  match heap[map]? with
  | none => some (heap, [.noMap])
  | some object => run object

mutual

def exec : Call K V → Heap K V → Option (Heap K V × List (Answer K V))
  | .create cls, heap => some (heap ++ [{ cls := cls, fields := {} }], [.done])
  | .set map key value, heap =>
    onMap heap map fun _ => (indexSetAt rt depth map heap (key, value)).map fun heap =>
      (heap, [.done])
  | .get map key, heap =>
    onMap heap map fun object =>
      (if rt.accepts object.cls key then get (rt.hashing object.cls) object.fields key
        else some none).map fun v => (heap, [.value v])
  | .containsKey map key, heap =>
    onMap heap map fun object =>
      (if rt.accepts object.cls key then containsKey (rt.hashing object.cls) object.fields key
        else some false).map fun b => (heap, [.flag b])
  | .remove map key, heap =>
    onMap heap map fun object =>
      (if rt.accepts object.cls key then remove (rt.hashing object.cls) object.fields key
        else some (object.fields, none)).map fun (fields, v) =>
          (heap.set map { object with fields := fields }, [.value v])
  | .putIfAbsent map key ifAbsent result, heap =>
    onMap heap map fun object => do
      let d ← findValueOrInsertPoint (rt.hashing object.cls) object.fields key
      if d > 0 then
        (valueAt object.fields.data d.toNat).map fun v => (heap, [.value (some v)])
      else do
        let (heap, log) ← execAll ifAbsent heap
        match result with
        | none => some (heap, log ++ [.callbackThrew])
        | some value => do
          let after ← heap[map]?
          let fields ← putAbsent rt.has63BitSmis (rt.hashing object.cls) depth
            object.fields after.fields key value d
          some (heap.set map { after with fields := fields }, log ++ [.value (some value)])
  | .clear map, heap =>
    onMap heap map fun object =>
      some (heap.set map { object with fields := clear object.fields }, [.done])
  | .addAll map other, heap =>
    match heap[map]?, heap[other]? with
    | some _, some _ =>
      (addAll rt depth map other heap).map fun (heap, threw) =>
        (heap, [if threw then .concurrentModification else .done])
    | _, _ => some (heap, [.noMap])
  | .length map, heap =>
    onMap heap map fun object => some (heap, [.number (length object.fields)])
  | .pairs map, heap =>
    onMap heap map fun object => (pairs object.fields).map fun l => (heap, [.pairs l])

def execAll : List (Call K V) → Heap K V → Option (Heap K V × List (Answer K V))
  | [], heap => some (heap, [])
  | call :: calls, heap => do
    let (heap, log) ← exec call heap
    let (heap, log') ← execAll calls heap
    some (heap, log ++ log')

end

end Exec

end Dart2Wasm.CompactHash.LinkedHashMap
