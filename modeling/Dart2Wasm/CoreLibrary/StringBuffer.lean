import Mathlib.Data.Nat.Bitwise
import Dart2Wasm.Lib.Run
import Dart2Wasm.Lib.Simulation

/-!
# StringBuffer — a code unit buffer in front of a list of parts

The patch of `StringBuffer` keeps what was written in two places: single char codes go to a buffer
of 64 code units, everything else becomes a part of a growing list, and every so often the last 128
parts are joined into one. `clear` leaves the two counters that steer the joining as they are.

The model follows `string_buffer_patch.dart` method by method. Strings are their lists of UTF-16
code units. `Represents` says which code units an object stands for; every method keeps it in step
with a plain list, from which the agreement of whole call sequences follows.
-/

namespace Dart2Wasm.StringBuffer

open Lib List Nat
open Option hiding map_id

abbrev CodeUnit := Nat

abbrev Str := List CodeUnit

/-- What a method can throw: the range errors of an index or a char code, and a failed `!`. -/
inductive Thrown
  | rangeError
  | nullCheck
  deriving DecidableEq

def bufferSize : Nat := 64

def partsToCompact : Nat := 128

def partsToCompactSizeLimit : Nat := partsToCompact * 8

structure Fields where
  parts : Option (List Str) := none
  partsCodeUnits : Nat := 0
  partsCompactionIndex : Nat := 0
  partsCodeUnitsSinceCompaction : Nat := 0
  buffer : Option (List CodeUnit) := none
  bufferPosition : Nat := 0
  bufferCodeUnitMagnitude : Nat := 0
  deriving DecidableEq

/-! ## The methods -/

/-- `_StringBase._concatRange`: indexing past either end of the list throws. -/
def concatRange (strings : List Str) (start stop : Nat) : Except Thrown Str :=
  if start ≤ stop ∧ stop ≤ strings.length then
    .ok ((strings.drop start).take (stop - start)).flatten
  else .error .rangeError

/-- `_create`: a Latin-1 string stores each code unit in a byte. -/
def create (buffer : List CodeUnit) (length : Nat) (isLatin1 : Bool) : Except Thrown Str :=
  if length ≤ buffer.length then
    if isLatin1 then .ok ((buffer.take length).map (· % 0x100))
    else .ok (buffer.take length)
  else .error .rangeError

def compact (sb : Fields) : Except Thrown Fields :=
  match sb.parts with
  | none => .error .nullCheck
  | some localParts => do
    let localParts ←
      if sb.partsCodeUnitsSinceCompaction < partsToCompactSizeLimit then do
        let compacted ← concatRange localParts sb.partsCompactionIndex
          (sb.partsCompactionIndex + partsToCompact)
        -- a negative length cannot be set
        if localParts.length < partsToCompact then .error .rangeError
        else pure (localParts.take (localParts.length - partsToCompact) ++ [compacted])
      else pure localParts
    pure { sb with
      parts := some localParts
      partsCodeUnitsSinceCompaction := 0
      partsCompactionIndex := localParts.length }

def addPart (sb : Fields) (str : Str) : Except Thrown Fields :=
  let sb := { sb with
    partsCodeUnits := sb.partsCodeUnits + str.length
    partsCodeUnitsSinceCompaction := sb.partsCodeUnitsSinceCompaction + str.length }
  match sb.parts with
  | none => .ok { sb with parts := some [str] }
  | some localParts =>
    let localParts := localParts ++ [str]
    let sb := { sb with parts := some localParts }
    -- after a `clear` the list can be shorter than the stale index
    if (localParts.length : Int) - sb.partsCompactionIndex = partsToCompact then compact sb
    else .ok sb

def consumeBuffer (sb : Fields) : Except Thrown Fields :=
  if sb.bufferPosition = 0 then .ok sb
  else
    match sb.buffer with
    | none => .error .nullCheck
    | some buffer => do
      let isLatin1 : Bool := sb.bufferCodeUnitMagnitude ≤ 0xFF
      let str ← create buffer sb.bufferPosition isLatin1
      addPart { sb with bufferPosition := 0, bufferCodeUnitMagnitude := 0 } str

def ensureCapacity (sb : Fields) (n : Nat) : Except Thrown Fields :=
  match sb.buffer with
  | none => .ok { sb with buffer := some (List.replicate bufferSize 0) }
  | some localBuffer =>
    if localBuffer.length < sb.bufferPosition + n then consumeBuffer sb else .ok sb

/-- `_buffer![_bufferPosition++] = unit` -/
def put (sb : Fields) (unit : CodeUnit) : Except Thrown Fields :=
  match sb.buffer with
  | none => .error .nullCheck
  | some localBuffer =>
    if sb.bufferPosition < localBuffer.length then
      .ok { sb with
        buffer := some (localBuffer.set sb.bufferPosition unit)
        bufferPosition := sb.bufferPosition + 1 }
    else .error .rangeError

def write (sb : Fields) (str : Str) : Except Thrown Fields :=
  if str.isEmpty then .ok sb
  else do
    let sb ← consumeBuffer sb
    addPart sb str

def writeCharCode (sb : Fields) (charCode : Int) : Except Thrown Fields :=
  if charCode ≤ 0xFFFF then
    if charCode < 0 then .error .rangeError
    else do
      let sb ← ensureCapacity sb 1
      let sb ← put sb charCode.toNat
      pure { sb with bufferCodeUnitMagnitude := sb.bufferCodeUnitMagnitude ||| charCode.toNat }
  else if charCode > 0x10FFFF then .error .rangeError
  else do
    let sb ← ensureCapacity sb 2
    let bits := (charCode - 0x10000).toNat
    let sb ← put sb (0xD800 ||| (bits >>> 10))
    let sb ← put sb (0xDC00 ||| (bits &&& 0x3FF))
    pure { sb with bufferCodeUnitMagnitude := sb.bufferCodeUnitMagnitude ||| 0xFFFF }

def writeAll (sb : Fields) (objects : List Str) (separator : Str) : Except Thrown Fields :=
  match objects with
  | [] => .ok sb
  | first :: rest =>
    if separator.isEmpty then (first :: rest).foldlM write sb
    else do
      let sb ← write sb first
      rest.foldlM (fun sb current => do
        let sb ← write sb separator
        write sb current) sb

def writeln (sb : Fields) (str : Str) : Except Thrown Fields := do
  let sb ← write sb str
  write sb [10]

def clear (sb : Fields) : Fields :=
  { sb with parts := none, partsCodeUnits := 0, bufferPosition := 0, bufferCodeUnitMagnitude := 0 }

def length (sb : Fields) : Nat := sb.partsCodeUnits + sb.bufferPosition

/-- `toString` flushes the buffer before it joins the parts. -/
def toStr (sb : Fields) : Except Thrown (Fields × Str) := do
  let sb ← consumeBuffer sb
  match sb.parts with
  | none => pure (sb, [])
  | some localParts =>
    if sb.partsCodeUnits = 0 then pure (sb, [])
    else do
      let str ← concatRange localParts 0 localParts.length
      pure (sb, str)

/-- The constructor `StringBuffer([content = ""])`. -/
def new (content : Str) : Except Thrown Fields :=
  write {} content

/-! ## Calls -/

/-- A call on a `StringBuffer`; objects are given by the string they convert to. -/
inductive Call
  | write (str : Str)
  | writeCharCode (charCode : Int)
  | writeAll (objects : List Str) (separator : Str)
  | writeln (str : Str)
  | clear
  | length
  | toString
  deriving DecidableEq

inductive Answer
  | done
  | length (n : Nat)
  | string (str : Str)
  | thrown (e : Thrown)
  deriving DecidableEq

/-- The answer of a method without result; a caught exception leaves the object to later calls. -/
def answerOf (sb : Fields) : Except Thrown Fields → Fields × Answer
  | .ok sb' => (sb', .done)
  | .error e => (sb, .thrown e)

/-- One call as the methods above make it. -/
def call (sb : Fields) : Call → Fields × Answer
  | .write str => answerOf sb (write sb str)
  | .writeCharCode charCode => answerOf sb (writeCharCode sb charCode)
  | .writeAll objects separator => answerOf sb (writeAll sb objects separator)
  | .writeln str => answerOf sb (writeln sb str)
  | .clear => (clear sb, .done)
  | .length => (sb, .length (length sb))
  | .toString =>
    match toStr sb with
    | .ok (sb', str) => (sb', .string str)
    | .error e => (sb, .thrown e)

/-! ## What a `StringBuffer` is for -/

/-- The UTF-16 encoding of a code point. -/
def utf16 (codePoint : Nat) : Str :=
  if codePoint < 0x10000 then [codePoint]
  else [0xD800 + (codePoint - 0x10000) / 0x400, 0xDC00 + (codePoint - 0x10000) % 0x400]

/-- The intended meaning of one call: the object is the list of the code units written to it since
it was made or last cleared. -/
def specCall (content : Str) : Call → Str × Answer
  | .write str => (content ++ str, .done)
  | .writeCharCode charCode =>
    if 0 ≤ charCode ∧ charCode ≤ 0x10FFFF then (content ++ utf16 charCode.toNat, .done)
    else (content, .thrown .rangeError)
  | .writeAll objects separator => (content ++ separator.intercalate objects, .done)
  | .writeln str => (content ++ str ++ [10], .done)
  | .clear => ([], .done)
  | .length => (content, .length content.length)
  | .toString => (content, .string content)

/-- `sb` holds `content`: the parts, then the used piece of the buffer, none of whose code units
exceeds `magnitude`. -/
structure Holds (sb : Fields) (content : Str) (magnitude : Nat) : Prop where
  content_eq : (sb.parts.getD []).flatten ++ (sb.buffer.getD []).take sb.bufferPosition = content
  partsCodeUnits_eq : sb.partsCodeUnits = (sb.parts.getD []).flatten.length
  buffer_length : ∀ b ∈ sb.buffer, b.length = bufferSize
  position_le : sb.bufferPosition ≤ (sb.buffer.getD []).length
  le_magnitude : ∀ u ∈ (sb.buffer.getD []).take sb.bufferPosition, u ≤ magnitude

/-- Between calls the magnitude that bounds the buffer is the one the object remembers. -/
abbrev Represents (sb : Fields) (content : Str) : Prop :=
  Holds sb content sb.bufferCodeUnitMagnitude

theorem represents_empty : Represents {} [] :=
  ⟨rfl, rfl, by simp, le_refl 0, by simp⟩

/-! ## Parts -/

variable {sb : Fields}

/-- Joining the last 128 parts leaves the text of the list alone. -/
theorem compact_spec {ps : List Str} (hparts : sb.parts = some ps)
    (hlen : ps.length = sb.partsCompactionIndex + partsToCompact) :
    ∃ ps', ps'.flatten = ps.flatten ∧
      compact sb = .ok { sb with
        parts := some ps'
        partsCodeUnitsSinceCompaction := 0
        partsCompactionIndex := ps'.length } := by
  by_cases hsize : sb.partsCodeUnitsSinceCompaction < partsToCompactSizeLimit
  · have hrange : concatRange ps sb.partsCompactionIndex (sb.partsCompactionIndex + partsToCompact)
        = .ok (ps.drop sb.partsCompactionIndex).flatten := by
      have htake : (ps.drop sb.partsCompactionIndex).take partsToCompact
          = ps.drop sb.partsCompactionIndex := by
        apply take_of_length_le
        rw [length_drop, hlen, Nat.add_sub_cancel_left]
      rw [concatRange, if_pos ⟨Nat.le_add_right _ _, hlen.ge⟩, Nat.add_sub_cancel_left, htake]
    have hshrink : ¬ ps.length < partsToCompact := by
      rw [hlen]
      exact not_lt.2 (le_add_left _ _)
    have hkeep : ps.length - partsToCompact = sb.partsCompactionIndex := by
      rw [hlen, Nat.add_sub_cancel]
    refine ⟨ps.take sb.partsCompactionIndex ++ [(ps.drop sb.partsCompactionIndex).flatten], ?_, ?_⟩
    · rw [flatten_append, flatten_singleton, ← flatten_append, take_append_drop]
    · simp only [compact, hparts, if_pos hsize, hrange, ok_bind, if_neg hshrink, hkeep]
      rfl
  · refine ⟨ps, rfl, ?_⟩
    simp only [compact, hparts, if_neg hsize]
    rfl

/-- A new part goes to the end of the text; the code unit buffer is not touched. -/
theorem addPart_spec (sb : Fields) (str : Str) :
    ∃ sb', addPart sb str = .ok sb' ∧
      (sb'.parts.getD []).flatten = (sb.parts.getD []).flatten ++ str ∧
      sb'.partsCodeUnits = sb.partsCodeUnits + str.length ∧
      sb'.buffer = sb.buffer ∧ sb'.bufferPosition = sb.bufferPosition ∧
      sb'.bufferCodeUnitMagnitude = sb.bufferCodeUnitMagnitude := by
  -- the counters are raised before the list is looked at
  let counted : Fields := { sb with
    partsCodeUnits := sb.partsCodeUnits + str.length
    partsCodeUnitsSinceCompaction := sb.partsCodeUnitsSinceCompaction + str.length }
  cases hparts : sb.parts with
  | none =>
    have hadd : addPart sb str = .ok { counted with parts := some [str] } := by
      simp only [addPart, hparts, counted]
    exact ⟨_, hadd, by simp, rfl, rfl, rfl, rfl⟩
  | some ps =>
    by_cases hfull : ((ps ++ [str]).length : Int) - sb.partsCompactionIndex = partsToCompact
    · -- the list is exactly 128 parts past the index, so the range to join lies inside it
      have hlen : (ps ++ [str]).length = sb.partsCompactionIndex + partsToCompact := by omega
      obtain ⟨ps', hflat, hcompact⟩ :=
        @compact_spec { counted with parts := some (ps ++ [str]) } _ rfl hlen
      have hadd : addPart sb str = compact { counted with parts := some (ps ++ [str]) } := by
        simp only [addPart, hparts, if_pos hfull, counted]
      exact ⟨_, hadd.trans hcompact, by simp [hflat], rfl, rfl, rfl, rfl⟩
    · have hadd : addPart sb str = .ok { counted with parts := some (ps ++ [str]) } := by
        simp only [addPart, hparts, if_neg hfull, counted]
      exact ⟨_, hadd, by simp, rfl, rfl, rfl, rfl⟩

variable {content : Str}

section

variable (h : Represents sb content)
include h

/-- A part added while the buffer is empty is written text. -/
theorem Represents.addPart (hempty : sb.bufferPosition = 0) (str : Str) :
    ∃ sb', addPart sb str = .ok sb' ∧ Represents sb' (content ++ str) ∧
      sb'.buffer = sb.buffer ∧ sb'.bufferPosition = 0 := by
  obtain ⟨sb', hadd, hflat, hunits, hbuffer, hposition, -⟩ := addPart_spec sb str
  rw [hempty] at hposition
  refine ⟨sb', hadd, ⟨?_, ?_, ?_, ?_, ?_⟩, hbuffer, hposition⟩
  · have := h.content_eq
    simp only [hempty, take_zero, append_nil] at this
    simp [hposition, hflat, this]
  · rw [hunits, hflat, length_append, h.partsCodeUnits_eq]
  · rw [hbuffer]
    exact h.buffer_length
  · rw [hposition]
    exact zero_le _
  · simp [hposition]

/-! ## The buffer -/

/-- A string made of the used piece of the buffer is that piece: where the magnitude asks for
Latin-1, every code unit fits in a byte. -/
theorem Represents.create {buffer : List CodeUnit} (hbuffer : sb.buffer = some buffer) :
    create buffer sb.bufferPosition (sb.bufferCodeUnitMagnitude ≤ 0xFF)
      = .ok (buffer.take sb.bufferPosition) := by
  have hle : sb.bufferPosition ≤ buffer.length := by simpa [hbuffer] using h.position_le
  rw [StringBuffer.create, if_pos hle]
  by_cases hlatin : sb.bufferCodeUnitMagnitude ≤ 0xFF
  · have hmap : (buffer.take sb.bufferPosition).map (· % 0x100)
        = buffer.take sb.bufferPosition := by
      have hid : ∀ u ∈ buffer.take sb.bufferPosition, u % 0x100 = id u := by
        intro u hu
        have hu' := h.le_magnitude u (by simpa [hbuffer] using hu)
        exact mod_eq_of_lt (lt_succ_of_le (hu'.trans hlatin))
      rw [map_congr_left hid, map_id]
    simp [hlatin, hmap]
  · simp [hlatin]

/-- Flushing the buffer moves text, it does not change it. -/
theorem Represents.consumeBuffer :
    ∃ sb', consumeBuffer sb = .ok sb' ∧ Represents sb' content ∧
      sb'.buffer = sb.buffer ∧ sb'.bufferPosition = 0 := by
  by_cases hempty : sb.bufferPosition = 0
  · exact ⟨sb, by simp [StringBuffer.consumeBuffer, hempty], h, rfl, hempty⟩
  cases hbuffer : sb.buffer with
  | none =>
    have hle := h.position_le
    simp only [hbuffer, getD_none, length_nil, le_zero] at hle
    exact absurd hle hempty
  | some buffer =>
    -- the object between the reset of the position and the new part has only its parts
    have hrest : Represents { sb with bufferPosition := 0, bufferCodeUnitMagnitude := 0 }
        (sb.parts.getD []).flatten :=
      ⟨by simp, h.partsCodeUnits_eq, h.buffer_length, zero_le _, by simp⟩
    obtain ⟨sb', hadd, hrep, hbuf, hpos⟩ := hrest.addPart rfl (buffer.take sb.bufferPosition)
    refine ⟨sb', ?_, ?_, hbuf.trans hbuffer, hpos⟩
    · simp only [StringBuffer.consumeBuffer, if_neg hempty, hbuffer, h.create hbuffer, ok_bind]
      simpa only [hbuffer] using hadd
    · have := h.content_eq
      simp only [hbuffer, getD_some] at this
      rwa [this] at hrep

/-- After `_ensureCapacity n` there is a buffer with room for `n` more code units. -/
theorem Represents.ensureCapacity {n : Nat} (hn : n ≤ bufferSize) :
    ∃ sb', ensureCapacity sb n = .ok sb' ∧ Represents sb' content ∧
      ∃ b, sb'.buffer = some b ∧ sb'.bufferPosition + n ≤ b.length := by
  cases hbuffer : sb.buffer with
  | none =>
    have hposition : sb.bufferPosition = 0 := by
      simpa [hbuffer] using h.position_le
    have hensure : StringBuffer.ensureCapacity sb n
        = .ok { sb with buffer := some (replicate bufferSize 0) } := by
      simp only [StringBuffer.ensureCapacity, hbuffer]
    refine ⟨_, hensure, ?_, _, rfl, ?_⟩
    · refine ⟨?_, h.partsCodeUnits_eq, by simp, by simp [hposition], by simp [hposition]⟩
      simpa [hbuffer, hposition] using h.content_eq
    · simpa [hposition] using hn
  | some b =>
    have hlength : b.length = bufferSize := h.buffer_length b (by simp [hbuffer])
    by_cases hroom : b.length < sb.bufferPosition + n
    · obtain ⟨sb', hconsume, hrep, hbuf, hpos⟩ := h.consumeBuffer
      refine ⟨sb', ?_, hrep, b, hbuf.trans hbuffer, ?_⟩
      · simp only [StringBuffer.ensureCapacity, hbuffer, if_pos hroom, hconsume]
      · rwa [hpos, zero_add, hlength]
    · refine ⟨sb, ?_, h, b, hbuffer, not_lt.1 hroom⟩
      simp only [StringBuffer.ensureCapacity, hbuffer, if_neg hroom]

end

theorem Holds.mono {m m' : Nat} (h : Holds sb content m) (hle : m ≤ m') : Holds sb content m' :=
  ⟨h.content_eq, h.partsCodeUnits_eq, h.buffer_length, h.position_le,
    fun u hu => (h.le_magnitude u hu).trans hle⟩

/-- Once the object remembers the bound, it represents what it holds. -/
theorem Holds.represents {m : Nat} (h : Holds sb content m) :
    Represents { sb with bufferCodeUnitMagnitude := m } content :=
  ⟨h.content_eq, h.partsCodeUnits_eq, h.buffer_length, h.position_le, h.le_magnitude⟩

theorem Holds.put {m : Nat} (h : Holds sb content m)
    {b : List CodeUnit} (hbuffer : sb.buffer = some b) (hroom : sb.bufferPosition < b.length)
    {unit : CodeUnit} (hunit : unit ≤ m) :
    ∃ sb', put sb unit = .ok sb' ∧ Holds sb' (content ++ [unit]) m ∧
      (∃ b', sb'.buffer = some b' ∧ b'.length = b.length) ∧
      sb'.bufferPosition = sb.bufferPosition + 1 ∧
      sb'.bufferCodeUnitMagnitude = sb.bufferCodeUnitMagnitude := by
  have htake : (b.set sb.bufferPosition unit).take (sb.bufferPosition + 1)
      = b.take sb.bufferPosition ++ [unit] := by
    rw [take_succ_eq_append_getElem (by simpa using hroom), getElem_set_self,
      take_set_of_le (le_refl _)]
  have hput : StringBuffer.put sb unit = .ok { sb with
      buffer := some (b.set sb.bufferPosition unit)
      bufferPosition := sb.bufferPosition + 1 } := by
    simp only [StringBuffer.put, hbuffer, if_pos hroom]
  refine ⟨_, hput, ⟨?_, h.partsCodeUnits_eq, ?_, ?_, ?_⟩, ⟨_, rfl, length_set⟩, rfl, rfl⟩
  · have := h.content_eq
    simp only [hbuffer, getD_some] at this
    simp only [getD_some, htake]
    rw [← append_assoc, this]
  · have hlength := h.buffer_length b (by simp [hbuffer])
    simpa using hlength
  · simpa using succ_le_of_lt hroom
  · simp only [getD_some, htake]
    intro u hu
    rcases mem_append.1 hu with hu | hu
    · exact h.le_magnitude u (by simpa [hbuffer] using hu)
    · rwa [mem_singleton.1 hu]

/-! ## The writing methods -/

theorem Represents.write (h : Represents sb content) (str : Str) :
    ∃ sb', write sb str = .ok sb' ∧ Represents sb' (content ++ str) := by
  cases str with
  | nil => exact ⟨sb, rfl, by simpa using h⟩
  | cons u us =>
    obtain ⟨sb₁, hconsume, h₁, -, hpos⟩ := h.consumeBuffer
    obtain ⟨sb₂, hadd, h₂, -, -⟩ := h₁.addPart hpos (u :: us)
    refine ⟨sb₂, ?_, h₂⟩
    show (StringBuffer.consumeBuffer sb >>= fun sb => StringBuffer.addPart sb (u :: us)) = .ok sb₂
    rw [hconsume, ok_bind, hadd]

/-- The bit operations of a surrogate pair are the sums of the encoding. -/
theorem surrogates_eq {bits : Nat} (hbits : bits < 0x100000) :
    (0xD800 ||| (bits >>> 10)) = 0xD800 + bits / 0x400 ∧
      (0xDC00 ||| (bits &&& 0x3FF)) = 0xDC00 + bits % 0x400 := by
  have hhigh : bits / 0x400 < 2 ^ 10 := by omega
  have hlow : bits % 0x400 < 2 ^ 10 := by omega
  constructor
  · rw [shiftRight_eq_div_pow]
    exact (two_pow_add_eq_or_of_lt hhigh 54).symm
  · rw [show (0x3FF : Nat) = 2 ^ 10 - 1 from rfl, and_two_pow_sub_one_eq_mod]
    exact (two_pow_add_eq_or_of_lt hlow 55).symm

theorem Represents.writeCharCode_unit (h : Represents sb content)
    {charCode : Int} (hlow : ¬ charCode < 0) (hhigh : charCode ≤ 0xFFFF) :
    ∃ sb', writeCharCode sb charCode = .ok sb' ∧
      Represents sb' (content ++ utf16 charCode.toNat) := by
  obtain ⟨sb₁, hensure, h₁, b, hbuffer, hroom⟩ := h.ensureCapacity (n := 1) (by decide)
  obtain ⟨sb₂, hput, h₂, -, -, hmag⟩ :=
    (h₁.mono left_le_or).put hbuffer hroom (right_le_or (m := charCode.toNat))
  refine ⟨{ sb₂ with bufferCodeUnitMagnitude :=
    sb₂.bufferCodeUnitMagnitude ||| charCode.toNat }, ?_, ?_⟩
  · simp only [StringBuffer.writeCharCode, if_pos hhigh, if_neg hlow, hensure, ok_bind, hput]
    rfl
  · rw [utf16, if_pos (by omega), hmag]
    exact h₂.represents

theorem Represents.writeCharCode_pair (h : Represents sb content)
    {charCode : Int} (hlow : ¬ charCode ≤ 0xFFFF) (hhigh : ¬ charCode > 0x10FFFF) :
    ∃ sb', writeCharCode sb charCode = .ok sb' ∧
      Represents sb' (content ++ utf16 charCode.toNat) := by
  have hbits : (charCode - 0x10000).toNat < 0x100000 := by omega
  obtain ⟨hlead, htrail⟩ := surrogates_eq hbits
  have hunits : 0xD800 + (charCode - 0x10000).toNat / 0x400 ≤ 0xFFFF ∧
      0xDC00 + (charCode - 0x10000).toNat % 0x400 ≤ 0xFFFF := by omega
  obtain ⟨sb₁, hensure, h₁, b, hbuffer, hroom⟩ := h.ensureCapacity (n := 2) (by decide)
  -- room for both halves was made before the first is stored
  obtain ⟨sb₂, hput, h₂, ⟨b', hbuffer', hlength⟩, hpos, hmag⟩ :=
    (h₁.mono left_le_or).put hbuffer (lt_of_succ_lt hroom)
      (hunits.1.trans right_le_or)
  obtain ⟨sb₃, hput', h₃, -, -, hmag'⟩ :=
    h₂.put hbuffer' (by omega) (hunits.2.trans right_le_or)
  refine ⟨{ sb₃ with bufferCodeUnitMagnitude := sb₃.bufferCodeUnitMagnitude ||| 0xFFFF }, ?_, ?_⟩
  · simp only [StringBuffer.writeCharCode, if_neg hlow, if_neg hhigh, hensure, ok_bind, hlead,
      htrail, hput, hput']
    rfl
  · have hcode : charCode.toNat - 0x10000 = (charCode - 0x10000).toNat := by omega
    rw [utf16, if_neg (by omega), hcode, hmag', hmag]
    simpa using h₃.represents

theorem Represents.foldlM_write (h : Represents sb content)
    (body : Fields → Str → Except Thrown Fields) (text : Str → Str)
    (hbody : ∀ sb content str, Represents sb content →
      ∃ sb', body sb str = .ok sb' ∧ Represents sb' (content ++ text str)) (strs : List Str) :
    ∃ sb', strs.foldlM body sb = .ok sb' ∧ Represents sb' (content ++ strs.flatMap text) := by
  induction strs generalizing sb content with
  | nil => exact ⟨sb, rfl, by simpa using h⟩
  | cons str strs ih =>
    obtain ⟨sb₁, hstep, h₁⟩ := hbody sb content str h
    obtain ⟨sb₂, hrest, h₂⟩ := ih h₁
    refine ⟨sb₂, ?_, ?_⟩
    · rw [foldlM_cons, hstep, ok_bind, hrest]
    · simpa using h₂

/-- What stands between the objects: nothing before the first, the separator before the others. -/
theorem intercalate_cons (separator first : Str) (rest : List Str) :
    separator.intercalate (first :: rest) = first ++ rest.flatMap (separator ++ ·) := by
  induction rest generalizing first with
  | nil => simp
  | cons second rest ih =>
    rw [intercalate_cons_cons, ih]
    simp

section

variable (h : Represents sb content)
include h

theorem Represents.writeAll (objects : List Str) (separator : Str) :
    ∃ sb', writeAll sb objects separator = .ok sb' ∧
      Represents sb' (content ++ separator.intercalate objects) := by
  cases objects with
  | nil => exact ⟨sb, rfl, by simpa using h⟩
  | cons first rest =>
    rw [intercalate_cons]
    cases separator with
    | nil =>
      obtain ⟨sb', hloop, h'⟩ := h.foldlM_write StringBuffer.write id
        (fun sb content str h => h.write str) (first :: rest)
      exact ⟨sb', hloop, by simpa using h'⟩
    | cons u us =>
      obtain ⟨sb₁, hfirst, h₁⟩ := h.write first
      obtain ⟨sb₂, hloop, h₂⟩ := h₁.foldlM_write
        (fun sb current => do
          let sb ← StringBuffer.write sb (u :: us)
          StringBuffer.write sb current)
        ((u :: us) ++ ·)
        (by
          intro sb content str h
          obtain ⟨sb₁, hseparator, h₁⟩ := h.write (u :: us)
          obtain ⟨sb₂, hcurrent, h₂⟩ := h₁.write str
          refine ⟨sb₂, ?_, by simpa using h₂⟩
          rw [hseparator, ok_bind, hcurrent])
        rest
      refine ⟨sb₂, ?_, by simpa using h₂⟩
      show (StringBuffer.write sb first >>= _) = _
      rw [hfirst, ok_bind, hloop]

theorem Represents.writeln (str : Str) :
    ∃ sb', writeln sb str = .ok sb' ∧ Represents sb' (content ++ str ++ [10]) := by
  obtain ⟨sb₁, hfirst, h₁⟩ := h.write str
  obtain ⟨sb₂, hsecond, h₂⟩ := h₁.write [10]
  refine ⟨sb₂, ?_, h₂⟩
  rw [StringBuffer.writeln, hfirst, ok_bind, hsecond]

/-! ## Clearing and reading -/

/-- The stale compaction counters are no part of what a cleared object stands for. -/
theorem Represents.clear : Represents (clear sb) [] :=
  ⟨by simp [StringBuffer.clear], rfl, h.buffer_length, zero_le _, by simp [StringBuffer.clear]⟩

theorem Represents.length_eq : length sb = content.length := by
  rw [← h.content_eq, length_append, length_take, min_eq_left h.position_le,
    length, h.partsCodeUnits_eq]

theorem Represents.toStr : ∃ sb', toStr sb = .ok (sb', content) ∧ Represents sb' content := by
  obtain ⟨sb', hconsume, h', -, hpos⟩ := h.consumeBuffer
  have hcontent : (sb'.parts.getD []).flatten = content := by
    simpa [hpos] using h'.content_eq
  refine ⟨sb', ?_, h'⟩
  rw [StringBuffer.toStr, hconsume, ok_bind]
  cases hparts : sb'.parts with
  | none =>
    have : content = [] := by simpa [hparts] using hcontent.symm
    rw [this]
    rfl
  | some ps =>
    simp only [hparts, getD_some] at hcontent
    by_cases hzero : sb'.partsCodeUnits = 0
    · have hnil : content = [] := by
        rw [h'.partsCodeUnits_eq, hparts, getD_some, hcontent] at hzero
        exact length_eq_zero_iff.1 hzero
      simp only [if_pos hzero, hnil]
      rfl
    · have hrange : concatRange ps 0 ps.length = .ok content := by
        simp [concatRange, hcontent]
      simp only [if_neg hzero, hrange]
      rfl

end

/-! ## Call sequences -/

/-- Every method does to the fields what it is meant to do to the text. -/
theorem call_simulates : Lib.Simulates Represents call specCall := by
  intro sb content c h
  cases c with
  | write str =>
    obtain ⟨sb', hwrite, h'⟩ := h.write str
    simpa [call, specCall, answerOf, hwrite] using h'
  | writeCharCode charCode =>
    by_cases hlow : charCode < 0
    · have hthrow : writeCharCode sb charCode = .error .rangeError := by
        rw [writeCharCode, if_pos (by omega), if_pos hlow]
      simpa [call, specCall, answerOf, hthrow, Int.not_le.2 hlow] using h
    by_cases hhigh : charCode > 0x10FFFF
    · have hthrow : writeCharCode sb charCode = .error .rangeError := by
        rw [writeCharCode, if_neg (by omega), if_pos hhigh]
      simpa [call, specCall, answerOf, hthrow, Int.not_le.2 hhigh] using h
    have hwrite : ∃ sb', writeCharCode sb charCode = .ok sb' ∧
        Represents sb' (content ++ utf16 charCode.toNat) := by
      by_cases hunit : charCode ≤ 0xFFFF
      · exact h.writeCharCode_unit hlow hunit
      · exact h.writeCharCode_pair hunit hhigh
    obtain ⟨sb', hwrite, h'⟩ := hwrite
    simpa [call, specCall, answerOf, hwrite, Int.not_lt.1 hlow, Int.not_lt.1 hhigh] using h'
  | writeAll objects separator =>
    obtain ⟨sb', hwrite, h'⟩ := h.writeAll objects separator
    simpa [call, specCall, answerOf, hwrite] using h'
  | writeln str =>
    obtain ⟨sb', hwrite, h'⟩ := h.writeln str
    simpa [call, specCall, answerOf, hwrite] using h'
  | clear => exact ⟨rfl, h.clear⟩
  | length => exact ⟨congrArg Answer.length h.length_eq, h⟩
  | toString =>
    obtain ⟨sb', hstr, h'⟩ := h.toStr
    simpa [call, specCall, hstr] using h'

example : Lib.answers call {} [.writeCharCode 0x1F600, .clear, .write [104], .writeCharCode 0x1F600,
    .length, .toString] =
      [.done, .done, .done, .done, .length 3, .string [104, 0xD83D, 0xDE00]] := by
  decide +kernel

/-- A `StringBuffer` answers every sequence of calls as the list of the code units written to it
since the start or the last `clear`. -/
theorem stringBuffer_refines (content : Str) (calls : List Call) :
    ∃ sb, new content = .ok sb ∧
      Lib.answers call sb calls = Lib.answers specCall content calls := by
  obtain ⟨sb, hnew, h⟩ := represents_empty.write content
  exact ⟨sb, hnew, call_simulates.answers_eq h calls⟩

end Dart2Wasm.StringBuffer
