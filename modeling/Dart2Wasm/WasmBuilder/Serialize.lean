import Dart2Wasm.Lib.Arena
import Dart2Wasm.Lib.Leb128
import Dart2Wasm.WasmBuilder.Types

/-!
# WasmBuilder.Serialize — the serializer and the binary form of the types

`wasm_builder/lib/src/serialize.dart` appends bytes to a growing buffer. A `write*` method is
modelled by the list of bytes it appends, and a sequence of writes by the concatenation of their
lists. Every writer comes with the reader that a decoder of the binary format uses in its place,
and with the lemma that the reader consumes exactly what the writer appended.

A reference to a custom heap type is written as the type's `index`; the reader returns the type at
that index, which is the same type when every index agrees with the type's position
(`TypeTable.Indexed`). A name is a Dart string and may have surrogates without a partner, which
`utf8.encode` replaces; all others are read back.
-/

namespace Dart2Wasm.WasmBuilder

open Lib Reads ValueType

abbrev Byte := UInt8

abbrev Reader (α : Type) := Parser Byte α

/-! ## Numbers, names and lists -/

def writeUnsigned (value : Nat) : List Byte :=
  Leb128.unsigned value

def writeSigned (value : Int) : List Byte :=
  Leb128.signed value

def readUnsigned : Reader Nat := Leb128.readUnsigned

def readSigned : Reader Int := Leb128.readSigned

theorem reads_writeUnsigned (value : Nat) : Reads readUnsigned (writeUnsigned value) value :=
  Leb128.readUnsigned_loop value value (Nat.le_refl _)

theorem reads_writeSigned (value : Int) : Reads readSigned (writeSigned value) value :=
  Leb128.readSigned_loop value.natAbs value (Nat.le_refl _)

/-- A Dart string: its UTF-16 code units. -/
abbrev DartString := List UInt16

namespace DartString

def isLeadSurrogate (u : UInt16) : Bool :=
  0xD800 ≤ u.toNat && u.toNat < 0xDC00

def isTailSurrogate (u : UInt16) : Bool :=
  0xDC00 ≤ u.toNat && u.toNat < 0xE000

/-- A code unit that is not combined with the next one; U+FFFD stands for a surrogate. -/
def single (u : UInt16) : Char :=
  if isLeadSurrogate u || isTailSurrogate u then Char.ofNat 0xFFFD else Char.ofNat u.toNat

def combineSurrogatePair (lead tail : UInt16) : Char :=
  Char.ofNat (0x10000 + (lead.toNat - 0xD800) * 0x400 + (tail.toNat - 0xDC00))

/-- The characters that `utf8.encode` writes. -/
def characters : DartString → List Char
  | [] => []
  | [u] => [single u]
  | u :: v :: units =>
    if isLeadSurrogate u && isTailSurrogate v then
      combineSurrogatePair u v :: characters units
    else single u :: characters (v :: units)

/-- Every surrogate is one of a pair. -/
def paired : DartString → Bool
  | [] => true
  | [u] => !(isLeadSurrogate u || isTailSurrogate u)
  | u :: v :: units =>
    if isLeadSurrogate u && isTailSurrogate v then paired units
    else !(isLeadSurrogate u || isTailSurrogate u) && paired (v :: units)

/-- The code units of a character. -/
def utf16 (c : Char) : DartString :=
  if c.toNat < 0x10000 then [UInt16.ofNat c.toNat]
  else
    [UInt16.ofNat (0xD800 + (c.toNat - 0x10000) / 0x400),
      UInt16.ofNat (0xDC00 + (c.toNat - 0x10000) % 0x400)]

def ofString (s : String) : DartString :=
  s.toList.flatMap utf16

theorem toNat_ofNat {n : Nat} (h : n < 0xD800 ∨ 0xDFFF < n ∧ n < 0x110000) :
    (Char.ofNat n).toNat = n := by
  have hvalid : n.isValidChar := h
  rw [Char.ofNat, dif_pos hvalid]
  rfl

theorem utf16_single {u : UInt16} (h : (isLeadSurrogate u || isTailSurrogate u) = false) :
    utf16 (single u) = [u] := by
  have hu := u.toNat_lt
  have hnat : (single u).toNat = u.toNat := by
    rw [single, h]
    refine toNat_ofNat ?_
    simp only [isLeadSurrogate, isTailSurrogate, Bool.or_eq_false_iff, Bool.and_eq_false_iff,
      decide_eq_false_iff_not] at h
    omega
  rw [utf16, hnat, if_pos (by omega), UInt16.ofNat_toNat]

theorem utf16_combine {u v : UInt16} (hu : isLeadSurrogate u) (hv : isTailSurrogate v) :
    utf16 (combineSurrogatePair u v) = [u, v] := by
  simp only [isLeadSurrogate, isTailSurrogate, Bool.and_eq_true, decide_eq_true_eq] at hu hv
  have hnat : (combineSurrogatePair u v).toNat =
      0x10000 + (u.toNat - 0xD800) * 0x400 + (v.toNat - 0xDC00) := toNat_ofNat (by omega)
  rw [utf16, hnat, if_neg (by omega)]
  have hlead : 0xD800 + (0x10000 + (u.toNat - 0xD800) * 0x400 + (v.toNat - 0xDC00) - 0x10000) /
      0x400 = u.toNat := by omega
  have htail : 0xDC00 + (0x10000 + (u.toNat - 0xD800) * 0x400 + (v.toNat - 0xDC00) - 0x10000) %
      0x400 = v.toNat := by omega
  rw [hlead, htail, UInt16.ofNat_toNat, UInt16.ofNat_toNat]

theorem flatMap_characters {name : DartString} (h : name.paired) :
    name.characters.flatMap utf16 = name := by
  fun_induction characters name with
  | case1 => rfl
  | case2 u =>
    rw [List.flatMap_cons, utf16_single (by simpa [paired] using h)]
    rfl
  | case3 u v units hpair ih =>
    rw [paired, if_pos hpair] at h
    rw [Bool.and_eq_true] at hpair
    rw [List.flatMap_cons, utf16_combine hpair.1 hpair.2, ih h]
    rfl
  | case4 u v units hpair ih =>
    rw [paired, if_neg hpair, Bool.and_eq_true, Bool.not_eq_true'] at h
    rw [List.flatMap_cons, utf16_single h.1, ih h.2]
    rfl

end DartString

def utf8Encode (name : DartString) : List Byte :=
  (String.ofList name.characters).toByteArray.data.toList

def writeName (name : DartString) : List Byte :=
  writeUnsigned (utf8Encode name).length ++ utf8Encode name

def readBytes (n : Nat) : Reader (List Byte) :=
  Parser.count Parser.token n

def readName : Reader DartString := do
  let n ← readUnsigned
  let bytes ← readBytes n
  match String.fromUTF8? ⟨bytes.toArray⟩ with
  | some name => pure (DartString.ofString name)
  | none => Parser.fail

/-- `writeList`: the number of objects, then each object. -/
def writeList {α : Type} (write : α → List Byte) (objects : List α) : List Byte :=
  writeUnsigned objects.length ++ objects.flatMap write

/-- A vector of the binary format, prefixed by its count. -/
def readList {α : Type} (read : Reader α) : Reader (List α) := do
  let n ← readUnsigned
  read.count n

theorem reads_bytes (bytes : List Byte) : Reads (readBytes bytes.length) bytes bytes := by
  have h : Reads (readBytes bytes.length) (bytes.flatMap fun b => [b]) bytes :=
    count (fun b _ => token b)
  simpa using h

theorem reads_writeName {name : DartString} (h : name.paired) :
    Reads readName (writeName name) name := by
  have hvalid : String.fromUTF8? ⟨(utf8Encode name).toArray⟩ =
      some (String.ofList name.characters) := by
    have hb : (⟨(utf8Encode name).toArray⟩ : ByteArray) =
        (String.ofList name.characters).toByteArray := by simp [utf8Encode]
    have hv := (String.ofList name.characters).isValidUTF8
    simp only [hb, String.fromUTF8?, dif_pos hv]
    rfl
  have hunits : DartString.ofString (String.ofList name.characters) = name := by
    rw [DartString.ofString, String.toList_ofList, DartString.flatMap_characters h]
  refine bind (reads_writeUnsigned _) ?_
  refine bind_pure (reads_bytes (utf8Encode name)) ?_
  simp only [hvalid, hunits]

theorem reads_writeList {α : Type} {write : α → List Byte} {read : Reader α} {objects : List α}
    (h : ∀ a ∈ objects, Reads read (write a) a) :
    Reads (readList read) (writeList write objects) objects :=
  bind (reads_writeUnsigned _) (count h)

theorem reads_writeList_map {α β : Type} {write : α → List Byte} {read : Reader β} {g : α → β}
    {objects : List α} (h : ∀ a ∈ objects, Reads read (write a) (g a)) :
    Reads (readList read) (writeList write objects) (objects.map g) :=
  bind (reads_writeUnsigned _) (count_map h)

/-! ## Types -/

/-- The index written for a reference to a custom heap type. -/
def TypeTable.indexOf (types : TypeTable) (d : DefTypeId) : Nat :=
  indexAt DefType.index types d

/-- Every custom heap type carries its position as its index. -/
def TypeTable.Indexed (types : TypeTable) : Prop :=
  Lib.Indexed DefType.index types

variable {types : TypeTable}

theorem TypeTable.Indexed.indexOf_eq (h : types.Indexed) (d : DefTypeId) : types.indexOf d = d :=
  Lib.Indexed.indexAt_eq h d

namespace HeapType

def serialize (types : TypeTable) : HeapType → List Byte
  | .any => [0x6E]
  | .eq => [0x6D]
  | .func => [0x70]
  | .data => [0x67]
  | .i31 => [0x6A]
  | .extern_ => [0x6F]
  | .defined d => writeSigned (types.indexOf d)

/-- The abstract heap types are the one-byte negative type codes; everything else is an index. -/
def read : Reader HeapType := do
  let i ← readSigned
  if 0 ≤ i then pure (.defined i.toNat)
  else if i = -0x12 then pure .any
  else if i = -0x13 then pure .eq
  else if i = -0x10 then pure .func
  else if i = -0x19 then pure .data
  else if i = -0x16 then pure .i31
  else if i = -0x11 then pure .extern_
  else Parser.fail

private theorem reads_code {b : Byte} {v : Int} (h : writeSigned v = [b]) :
    Reads readSigned [b] v :=
  h ▸ reads_writeSigned v

theorem reads_serialize (hidx : types.Indexed) {h : HeapType} :
    Reads HeapType.read (h.serialize types) h := by
  cases h with
  | any => exact bind_pure (reads_code (v := -0x12) (by decide)) rfl
  | eq => exact bind_pure (reads_code (v := -0x13) (by decide)) rfl
  | func => exact bind_pure (reads_code (v := -0x10) (by decide)) rfl
  | data => exact bind_pure (reads_code (v := -0x19) (by decide)) rfl
  | i31 => exact bind_pure (reads_code (v := -0x16) (by decide)) rfl
  | extern_ => exact bind_pure (reads_code (v := -0x11) (by decide)) rfl
  | defined d =>
    refine bind_pure (reads_writeSigned _) ?_
    have hd : types.indexOf d = d := hidx.indexOf_eq d
    simp [hd]

end HeapType

namespace NumTypeKind

def code : NumTypeKind → Byte
  | .i32 => 0x7F
  | .i64 => 0x7E
  | .f32 => 0x7D
  | .f64 => 0x7C
  | .v128 => 0x7B

end NumTypeKind

namespace ValueType

def serialize (types : TypeTable) : ValueType → List Byte
  | .num k => [k.code]
  | .rtt d (some depth) => 0x69 :: (writeUnsigned depth ++ writeSigned (types.indexOf d))
  | .rtt d none => 0x68 :: writeSigned (types.indexOf d)
  | .ref h nullable =>
    if some nullable = h.nullableByDefault then h.serialize types
    else (if nullable then 0x6C else 0x6B) :: h.serialize types

/-- The rest of a value type after its first byte. -/
def readTagged (tag : Byte) : Reader ValueType :=
  if tag = 0x7F then pure (.num .i32)
  else if tag = 0x7E then pure (.num .i64)
  else if tag = 0x7D then pure (.num .f32)
  else if tag = 0x7C then pure (.num .f64)
  else if tag = 0x7B then pure (.num .v128)
  else if tag = 0x69 then do
    let depth ← readUnsigned
    let i ← readSigned
    pure (.rtt i.toNat (some depth))
  else if tag = 0x68 then do
    let i ← readSigned
    pure (.rtt i.toNat none)
  else if tag = 0x6C then do
    let h ← HeapType.read
    pure (.ref h true)
  else if tag = 0x6B then do
    let h ← HeapType.read
    pure (.ref h false)
  -- The shorthands, each with the default nullability of its heap type.
  else if tag = 0x6E then pure (.ref .any true)
  else if tag = 0x6D then pure (.ref .eq true)
  else if tag = 0x70 then pure (.ref .func true)
  else if tag = 0x67 then pure (.ref .data false)
  else if tag = 0x6A then pure (.ref .i31 false)
  else if tag = 0x6F then pure (.ref .extern_ true)
  else Parser.fail

def read : Reader ValueType := do
  let tag ← Parser.token
  readTagged tag

/-- The bytes of a value type are a tag and what the reader expects after that tag. -/
theorem serialize_tagged (hidx : types.Indexed) {t : ValueType} :
    ∃ tag bytes, t.serialize types = tag :: bytes ∧ Reads (readTagged tag) bytes t := by
  cases t with
  | num k =>
    refine ⟨k.code, [], rfl, ?_⟩
    cases k <;> exact pure _
  | rtt d depth =>
    have hd : types.indexOf d = d := hidx.indexOf_eq d
    cases depth with
    | some n =>
      refine ⟨0x69, _, rfl, bind (reads_writeUnsigned n) ?_⟩
      refine bind_pure (reads_writeSigned _) ?_
      simp [hd]
    | none =>
      refine ⟨0x68, _, rfl, bind_pure (reads_writeSigned _) ?_⟩
      simp [hd]
  | ref h nullable =>
    have hread : Reads HeapType.read (h.serialize types) h := HeapType.reads_serialize hidx
    by_cases hdef : some nullable = h.nullableByDefault
    · -- Only the abstract heap types have a default, and they are written as one byte.
      have hs : (ref h nullable).serialize types = h.serialize types := by
        simp [serialize, hdef]
      cases h with
      | defined d => simp [HeapType.nullableByDefault] at hdef
      | _ =>
        cases hdef
        exact ⟨_, [], hs, pure _⟩
    · cases nullable with
      | true =>
        refine ⟨0x6C, h.serialize types, by simp [serialize, hdef], ?_⟩
        exact bind_pure hread rfl
      | false =>
        refine ⟨0x6B, h.serialize types, by simp [serialize, hdef], ?_⟩
        exact bind_pure hread rfl

theorem reads_serialize (hidx : types.Indexed) {t : ValueType} :
    Reads ValueType.read (t.serialize types) t := by
  rcases serialize_tagged hidx with ⟨tag, bytes, hs, hr⟩
  have h : Reads read (tag :: bytes) t := token_bind hr
  simpa [hs] using h

end ValueType

namespace StorageType

def serialize (types : TypeTable) : StorageType → List Byte
  | .value t => t.serialize types
  | .packed .i8 => [0x7A]
  | .packed .i16 => [0x79]

def read : Reader StorageType := do
  let tag ← Parser.token
  if tag = 0x7A then pure (.packed .i8)
  else if tag = 0x79 then pure (.packed .i16)
  else do
    let t ← ValueType.readTagged tag
    pure (.value t)

theorem reads_serialize (hidx : types.Indexed) {t : StorageType} :
    Reads StorageType.read (t.serialize types) t := by
  cases t with
  | value t =>
    rcases serialize_tagged hidx with ⟨tag, bytes, hs, hr⟩
    -- The two packed codes are not the tag of any value type.
    have htag : tag ≠ 0x7A ∧ tag ≠ 0x79 := by
      constructor
      · rintro rfl
        exact absurd (hr []) (by simp [readTagged, Parser.fail])
      · rintro rfl
        exact absurd (hr []) (by simp [readTagged, Parser.fail])
    have h : Reads StorageType.read (tag :: bytes) (.value t) := by
      refine token_bind ?_
      exact ite_false htag.1 (ite_false htag.2 (bind_pure hr rfl))
    simpa [serialize, hs] using h
  | packed k =>
    cases k <;> exact bind_pure (token _) rfl

end StorageType

/-- `_WithMutability.serialize`: a type followed by its mutability. -/
def writeMutability (isMutable : Bool) : List Byte :=
  [if isMutable then 0x01 else 0x00]

def readMutability : Reader Bool := do
  let b ← Parser.token
  if b = 0x00 then pure false
  else if b = 0x01 then pure true
  else Parser.fail

theorem reads_writeMutability (isMutable : Bool) :
    Reads readMutability (writeMutability isMutable) isMutable := by
  cases isMutable <;> exact bind_pure (token _) rfl

namespace FieldType

def serialize (types : TypeTable) (f : FieldType) : List Byte :=
  f.type.serialize types ++ writeMutability f.mutable

def read : Reader FieldType := do
  let type ← StorageType.read
  let isMutable ← readMutability
  pure ⟨type, isMutable⟩

theorem reads_serialize (hidx : types.Indexed) {f : FieldType} :
    Reads FieldType.read (f.serialize types) f :=
  bind (StorageType.reads_serialize hidx)
    (bind_pure (reads_writeMutability f.mutable) rfl)

end FieldType

namespace GlobalType

def serialize (types : TypeTable) (g : GlobalType) : List Byte :=
  g.type.serialize types ++ writeMutability g.mutable

def read : Reader GlobalType := do
  let type ← ValueType.read
  let isMutable ← readMutability
  pure ⟨type, isMutable⟩

theorem reads_serialize (hidx : types.Indexed) {g : GlobalType} :
    Reads GlobalType.read (g.serialize types) g :=
  bind (ValueType.reads_serialize hidx)
    (bind_pure (reads_writeMutability g.mutable) rfl)

end GlobalType

/-! ## Type definitions -/

/-- What the binary form of a type definition keeps: struct and array types lose their names. -/
inductive TypeShape
  | function (inputs outputs : List ValueType)
  | struct (fields : List FieldType)
  | array (elementType : FieldType)
  deriving DecidableEq

structure TypeEntry where
  shape : TypeShape
  superType : Option HeapType
  deriving DecidableEq

/-- The entry of the type section for a custom heap type; the element type of an array has to have
been supplied. -/
def DefType.entry? (t : DefType) : Option TypeEntry :=
  match t.kind with
  | .function inputs outputs => some ⟨.function inputs outputs, t.superType⟩
  | .struct _ fields => some ⟨.struct fields, t.superType⟩
  | .array _ (some elementType) => some ⟨.array elementType, t.superType⟩
  | .array _ none => none

namespace TypeEntry

/-- The kind byte, which also says whether a supertype follows. -/
def tag (e : TypeEntry) : Byte :=
  match e.shape, e.superType with
  | .function _ _, none => 0x60
  | .function _ _, some _ => 0x5D
  | .struct _, none => 0x5F
  | .struct _, some _ => 0x5C
  | .array _, none => 0x5E
  | .array _, some _ => 0x5B

def writeShape (types : TypeTable) : TypeShape → List Byte
  | .function inputs outputs =>
    writeList (ValueType.serialize types) inputs ++ writeList (ValueType.serialize types) outputs
  | .struct fields => writeList (FieldType.serialize types) fields
  | .array elementType => elementType.serialize types

def writeSuper (types : TypeTable) : Option HeapType → List Byte
  | none => []
  | some h => h.serialize types

def serialize (types : TypeTable) (e : TypeEntry) : List Byte :=
  e.tag :: (writeShape types e.shape ++ writeSuper types e.superType)

def readFunction : Reader TypeShape := do
  let inputs ← readList ValueType.read
  let outputs ← readList ValueType.read
  pure (.function inputs outputs)

def readStruct : Reader TypeShape := do
  let fields ← readList FieldType.read
  pure (.struct fields)

def readArray : Reader TypeShape := do
  let elementType ← FieldType.read
  pure (.array elementType)

def readWithoutSuper (readShape : Reader TypeShape) : Reader TypeEntry := do
  let shape ← readShape
  pure ⟨shape, none⟩

def readWithSuper (readShape : Reader TypeShape) : Reader TypeEntry := do
  let shape ← readShape
  let superType ← HeapType.read
  pure ⟨shape, some superType⟩

def read : Reader TypeEntry := do
  let tag ← Parser.token
  if tag = 0x60 then readWithoutSuper readFunction
  else if tag = 0x5D then readWithSuper readFunction
  else if tag = 0x5F then readWithoutSuper readStruct
  else if tag = 0x5C then readWithSuper readStruct
  else if tag = 0x5E then readWithoutSuper readArray
  else if tag = 0x5B then readWithSuper readArray
  else Parser.fail

theorem reads_serialize (hidx : types.Indexed) {e : TypeEntry} :
    Reads TypeEntry.read (e.serialize types) e := by
  rcases e with ⟨shape, superType⟩
  -- With the shape read back, the two kind bytes of a shape differ only in the supertype.
  have hrest : ∀ readShape, Reads readShape (writeShape types shape) shape →
      (superType = none →
        Reads (readWithoutSuper readShape) (writeShape types shape ++ writeSuper types superType)
          ⟨shape, superType⟩) ∧
      (∀ h, superType = some h →
        Reads (readWithSuper readShape) (writeShape types shape ++ writeSuper types superType)
          ⟨shape, superType⟩) := by
    intro readShape hread
    refine ⟨?_, ?_⟩
    · rintro rfl
      exact bind hread (pure _)
    · rintro h rfl
      have hh : Reads HeapType.read (h.serialize types) h := HeapType.reads_serialize hidx
      exact bind hread (bind_pure hh rfl)
  cases shape with
  | function inputs outputs =>
    have hread : Reads readFunction (writeShape types (.function inputs outputs))
        (.function inputs outputs) :=
      bind (reads_writeList fun _ _ => ValueType.reads_serialize hidx)
        (bind_pure (reads_writeList fun _ _ => ValueType.reads_serialize hidx) rfl)
    cases superType with
    | none => exact token_bind ((hrest readFunction hread).1 rfl)
    | some h => exact token_bind ((hrest readFunction hread).2 h rfl)
  | struct fields =>
    have hread : Reads readStruct (writeShape types (.struct fields)) (.struct fields) :=
      bind_pure
        (reads_writeList fun _ _ => FieldType.reads_serialize hidx) rfl
    cases superType with
    | none => exact token_bind ((hrest readStruct hread).1 rfl)
    | some h => exact token_bind ((hrest readStruct hread).2 h rfl)
  | array elementType =>
    have hread : Reads readArray (writeShape types (.array elementType))
        (.array elementType) :=
      bind_pure (FieldType.reads_serialize hidx) rfl
    cases superType with
    | none => exact token_bind ((hrest readArray hread).1 rfl)
    | some h => exact token_bind ((hrest readArray hread).2 h rfl)

end TypeEntry

/-- `serializeDefinition`: a declared supertype has to be a structural supertype. -/
def DefType.serializeDefinition (types : TypeTable) (fuel : Nat) (t : DefType) :
    Option (List Byte) :=
  match t.entry?, t.superType with
  | none, _ => none
  | some e, none => some (e.serialize types)
  | some e, some s =>
    if t.isStructuralSubtypeOf types fuel s = some true then some (e.serialize types)
    else none

theorem DefType.serializeDefinition_eq {fuel : Nat} {t : DefType}
    {bytes : List Byte} (h : t.serializeDefinition types fuel = some bytes) :
    ∃ e, t.entry? = some e ∧ bytes = e.serialize types := by
  unfold DefType.serializeDefinition at h
  split at h
  · cases h
  · rename_i e he hs
    exact ⟨e, he, (Option.some.inj h).symm⟩
  · rename_i e s he hs
    split at h
    · exact ⟨e, he, (Option.some.inj h).symm⟩
    · cases h

end Dart2Wasm.WasmBuilder
