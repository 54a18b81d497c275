import Mathlib

/-!
# Utf8Decoder — `_Utf8Decoder` and the sinks that use it

The model of the UTF-8 decoder of `convert_patch.dart` and `utf.dart`. Bytes are natural numbers
below 256 and strings are lists of UTF-16 code units. A state of the automaton is its offset in the
transition table, as in the source; the rows of the table overlap.

`decode8` and `decode16` write into a string that is allocated with a size computed beforehand. They
give no result if they would write outside of it.
-/

namespace Dart2Wasm.Utf8

/-! ## Tables -/

/-- The letters of `typeTable` under `typeMask`. -/
def typeTable : List Nat :=
  [List.replicate 128 1,  -- 00-7F
    List.replicate 16 6, List.replicate 16 7,  -- 80-9F
    List.replicate 27 8, [9, 8, 8, 8, 10],  -- A0-BF
    [5, 5], List.replicate 30 2,  -- C0-DF
    [11], List.replicate 12 3, [4, 3, 12],  -- E0-EF
    [15, 14, 14, 14, 13], List.replicate 11 5].flatten  -- F0-FF

abbrev IA : Nat := 0x00
abbrev BB : Nat := 0x10
abbrev AB : Nat := 0x20
abbrev X1 : Nat := 0x30
abbrev X2 : Nat := 0x3A
abbrev X3 : Nat := 0x44
abbrev TO : Nat := 0x4E
abbrev TS : Nat := 0x58
abbrev QO : Nat := 0x62
abbrev QR : Nat := 0x6C
abbrev B1 : Nat := 0x76
abbrev B2 : Nat := 0x80
abbrev E1 : Nat := 0x41
abbrev E2 : Nat := 0x43
abbrev E3 : Nat := 0x45
abbrev E4 : Nat := 0x47
abbrev E5 : Nat := 0x49
abbrev E6 : Nat := 0x4B
abbrev E7 : Nat := 0x4D

def transitionTable : List Nat :=
   [32,
    IA, X1, X2, TS, E3, E2, E2, E2, E2, E2, TO, X2, QR, X3, QO, 32,  -- IA
    IA, X1, X2, TS, E3, E2, E2, E2, E2, E2, TO, B1, QR, X3, QO, 32,  -- BB
    IA, X1, X2, TS, E3, E2, E2, E2, E2, E2, TO, X2, QR, X3, QO, 32,  -- AB
    E1, E1, E1, E1, E1, IA, IA, IA, IA, IA,                          -- X1
    E1, E1, E1, E1, E1, X1, X1, X1, X1, X1,                          -- X2
    E1, E1, E1, E1, E1, X2, X2, X2, X2, X2,                          -- X3
    E1, E1, E1, E1, E1, E4, E4, X1, X1, X1,                          -- TO
    E1, E1, E1, E1, E1, X1, X1, E6, E6, E6,                          -- TS
    E1, E1, E1, E1, E1, E4, X2, X2, X2, X2,                          -- QO
    E1, E1, E1, E1, E1, X2, E5, E5, E5, E5,                          -- QR
    E1, E1, E1, E1, E1, X1, X1, X1, B2, X1,                          -- B1
    E1, E1, E1, E1, E1, IA, IA, IA, IA, AB, E1, E1, E1, E1, E1]      -- B2

/-- The letters of `scanTable`, less 64. -/
def scanTable : List Nat :=
  [List.replicate 128 1,  -- 00-7F
    List.replicate 64 4,  -- 80-BF
    [33, 33, 9, 9], List.replicate 44 17,  -- C0-EF
    List.replicate 5 18, List.replicate 11 34].flatten  -- F0-FF

def typeOf (byte : Nat) : Nat := typeTable.getD byte 0

def transition (state type : Nat) : Nat := transitionTable.getD (state + type) 0

def isErrorState (state : Nat) : Bool := state &&& 1 != 0

def errorDescription (state : Nat) : String :=
  if state = E1 then "Missing extension byte"
  else if state = E2 then "Unexpected extension byte"
  else if state = E3 then "Invalid UTF-8 byte"
  else if state = E4 then "Overlong encoding"
  else if state = E5 then "Out of unicode range"
  else if state = E6 then "Encoded surrogate"
  else if state = E7 then "Unfinished UTF-8 octet sequence"
  else ""

/-! ## Output -/

/-- A string in the making; writing outside of it has no result. -/
def writeInto (result : List Nat) (j value : Nat) : Option (List Nat) :=
  if j < result.length then some (result.set j value) else none

/-- `StringBuffer.writeCharCode`. -/
def charCode (char : Nat) : List Nat :=
  if char > 0xFFFF then [0xD800 + ((char - 0x10000) >>> 10), 0xDC00 + ((char - 0x10000) &&& 0x3FF)]
  else [char]

abbrev replacement : Nat := 0xFFFD

structure Decoder where
  allowMalformed : Bool
  state : Nat := IA
  charOrIndex : Nat := 0
  bomIndex : Int := 0
  deriving DecidableEq

structure FormatException where
  message : String
  offset : Option Nat
  deriving DecidableEq

/-! ## The three decoders -/

/-- One step of the automaton in `decodeGeneral`. -/
def nextChar (state char byte : Nat) : Nat :=
  if state ≤ AB then byte &&& (0xF0FE >>> typeOf byte) else (byte &&& 0x3F) ||| (char <<< 6)

/-- The loop of `decodeGeneral`, with the byte read last: the final state and character, and the
text; an error state comes with the index of the error. A byte that is read again costs a step, so
twice the number of bytes bounds the steps. -/
def generalLoop (allowMalformed : Bool) :
    Nat → Nat → Nat → Nat → Nat → List Nat → List Nat → Option (Nat × Nat × List Nat)
  | 0, _, _, _, _, _, _ => none
  | fuel + 1, state, char, byte, i, rest, buffer =>
    let char := nextChar state char byte
    let state := transition state (typeOf byte)
    if state = IA then
      -- the run of ASCII bytes that follows
      let ascii := rest.takeWhile (· < 128)
      let buffer := buffer ++ charCode char ++ ascii
      match rest.dropWhile (· < 128) with
      | [] => some (state, char, buffer)
      | byte :: rest =>
        generalLoop allowMalformed fuel state char byte (i + ascii.length + 1) rest buffer
    else if isErrorState state then
      if allowMalformed then
        if state = E1 then
          -- the byte is read again
          generalLoop allowMalformed fuel IA char byte i rest (buffer ++ [replacement])
        else
          let buffer :=
            if state = E3 ∨ state = E2 then buffer ++ [replacement]
            else buffer ++ [replacement, replacement]
          match rest with
          | [] => some (IA, char, buffer)
          | byte :: rest => generalLoop allowMalformed fuel IA char byte (i + 1) rest buffer
      else some (state, i, [])
    else
      match rest with
      | [] => some (state, char, buffer)
      | byte :: rest => generalLoop allowMalformed fuel state char byte (i + 1) rest buffer

def decodeGeneral (d : Decoder) (bytes : List Nat) (single : Bool) : Option (Decoder × List Nat) :=
  match bytes with
  | [] => none
  | byte :: rest => do
    let (state, char, buffer) ←
      generalLoop d.allowMalformed (2 * bytes.length) d.state d.charOrIndex byte 0 rest []
    if isErrorState state then some ({ d with state := state, charOrIndex := char }, [])
    else if single && state > AB then
      if d.allowMalformed then
        some ({ d with state := state, charOrIndex := char }, buffer ++ [replacement])
      else some ({ d with state := E7, charOrIndex := bytes.length }, [])
    else some ({ d with state := state, charOrIndex := char }, buffer)

/-- The loop of `decode8` from an accepting state. -/
def decode8Loop (d : Decoder) : List Nat → Nat → Nat → List Nat → Option (Decoder × List Nat)
  | [], _, _, result => some ({ d with state := IA }, result)
  | byte :: rest, i, j, result =>
    if byte ≥ 0x80 then
      if byte < 0xC0 then some ({ d with state := E2, charOrIndex := i }, [])
      else
        match rest with
        | [] => some ({ d with state := X1, charOrIndex := byte &&& 0x1F }, result)
        | next :: rest =>
          if next ^^^ 0x80 ≥ 0x40 then some ({ d with state := E1, charOrIndex := i + 1 }, [])
          else do
            let result ← writeInto result j (((byte <<< 6) ||| (next ^^^ 0x80)) % 256)
            decode8Loop d rest (i + 2) (j + 1) result
    else do
      let result ← writeInto result j byte
      decode8Loop d rest (i + 1) (j + 1) result

def decode8 (d : Decoder) (bytes : List Nat) (size : Nat) : Option (Decoder × List Nat) :=
  let result := List.replicate size 0
  if d.state = X1 then
    match bytes with
    | [] => none
    | byte :: rest =>
      if byte ^^^ 0x80 ≥ 0x40 then some ({ d with state := E1, charOrIndex := 0 }, [])
      else do
        let result ← writeInto result 0 (((d.charOrIndex <<< 6) ||| (byte ^^^ 0x80)) % 256)
        decode8Loop d rest 1 1 result
  else decode8Loop d bytes 0 0 result

/-- The writes of `decode16` for a character. -/
def write16 (result : List Nat) (j char : Nat) : Option (List Nat × Nat) :=
  if char ≥ 0x10000 then do
    let result ← writeInto result j (0xD7C0 + (char >>> 10))
    let result ← writeInto result (j + 1) (0xDC00 + (char &&& 0x3FF))
    some (result, j + 2)
  else do
    let result ← writeInto result j char
    some (result, j + 1)

/-- The loop of `decode16`: a character is written when the byte after it is read, or at the end. -/
def decode16Loop (d : Decoder) :
    List Nat → Nat → Nat → Nat → Nat → List Nat → Option (Decoder × List Nat)
  | [], state, char, i, j, result =>
    if state = IA then do
      let (result, _) ← write16 result j char
      some ({ d with state := state, charOrIndex := char }, result)
    else if isErrorState state then some ({ d with state := state, charOrIndex := i - 1 }, [])
    else some ({ d with state := state, charOrIndex := char }, result)
  | byte :: rest, state, char, i, j, result =>
    if state = IA then do
      let (result, j) ← write16 result j char
      decode16Loop d rest (transition IA (typeOf byte)) (byte &&& (0xF0FE >>> typeOf byte))
        (i + 1) j result
    else if isErrorState state then some ({ d with state := state, charOrIndex := i - 1 }, [])
    else
      decode16Loop d rest (transition state (typeOf byte)) ((byte &&& 0x3F) ||| (char <<< 6))
        (i + 1) j result

def decode16 (d : Decoder) (bytes : List Nat) (size : Nat) : Option (Decoder × List Nat) :=
  match bytes with
  | [] => none
  | byte :: rest =>
    let char :=
      if d.state = IA then byte &&& (0xF0FE >>> typeOf byte)
      else (byte &&& 0x3F) ||| (d.charOrIndex <<< 6)
    decode16Loop d rest (transition d.state (typeOf byte)) char 1 0 (List.replicate size 0)

/-! ## The writes of the fast decoders -/

/-- The values that `decode8Loop` writes, with their positions. -/
def writes8Loop : List Nat → Nat → List (Nat × Nat)
  | [], _ => []
  | byte :: rest, j =>
    if byte ≥ 0x80 then
      if byte < 0xC0 then []
      else
        match rest with
        | [] => []
        | next :: rest =>
          if next ^^^ 0x80 ≥ 0x40 then []
          else (((byte <<< 6) ||| (next ^^^ 0x80)) % 256, j) :: writes8Loop rest (j + 1)
    else (byte, j) :: writes8Loop rest (j + 1)

def writes8 (d : Decoder) (bytes : List Nat) : List (Nat × Nat) :=
  if d.state = X1 then
    match bytes with
    | [] => []
    | byte :: rest =>
      if byte ^^^ 0x80 ≥ 0x40 then []
      else (((d.charOrIndex <<< 6) ||| (byte ^^^ 0x80)) % 256, 0) :: writes8Loop rest 1
  else writes8Loop bytes 0

def writes16Char (char j : Nat) : List (Nat × Nat) :=
  if char ≥ 0x10000 then [(0xD7C0 + (char >>> 10), j), (0xDC00 + (char &&& 0x3FF), j + 1)]
  else [(char, j)]

def writes16Loop : List Nat → Nat → Nat → Nat → List (Nat × Nat)
  | [], state, char, j => if state = IA then writes16Char char j else []
  | byte :: rest, state, char, j =>
    if state = IA then
      writes16Char char j ++ writes16Loop rest (transition IA (typeOf byte))
        (byte &&& (0xF0FE >>> typeOf byte)) (j + (writes16Char char j).length)
    else if isErrorState state then []
    else writes16Loop rest (transition state (typeOf byte)) ((byte &&& 0x3F) ||| (char <<< 6)) j

def writes16 (d : Decoder) (bytes : List Nat) : List (Nat × Nat) :=
  match bytes with
  | [] => []
  | byte :: rest =>
    let char :=
      if d.state = IA then byte &&& (0xF0FE >>> typeOf byte)
      else (byte &&& 0x3F) ||| (d.charOrIndex <<< 6)
    writes16Loop rest (transition d.state (typeOf byte)) char 0

/-! ## Scanning -/

def scanSize (bytes : List Nat) : Nat :=
  (bytes.map fun byte => scanTable.getD byte 0 &&& 0x03).sum

def scanFlags (bytes : List Nat) : Nat :=
  bytes.foldl (fun flags byte => flags ||| (scanTable.getD byte 0 &&& 0x3C)) 0

abbrev flagExtension : Nat := 4
abbrev flagLatin1 : Nat := 8
abbrev flagNonLatin1 : Nat := 16

/-- The flags and the size that the carried character adds, if it is completed. -/
def carryOver (d : Decoder) (length : Nat) : Nat × Nat :=
  if d.state = X1 then
    (if d.charOrIndex < 0x100 >>> 6 then flagLatin1 else flagNonLatin1,
      if length ≥ 1 then (if d.charOrIndex < 0x10000 >>> 6 then 1 else 2) else 0)
  else if d.state = X2 then
    (flagNonLatin1, if length ≥ 2 then (if d.charOrIndex < 0x10000 >>> 12 then 1 else 2) else 0)
  else if d.state = TO ∨ d.state = TS then (flagNonLatin1, if length ≥ 2 then 1 else 0)
  else if d.state = X3 ∨ d.state = QO ∨ d.state = QR then
    (flagNonLatin1, if length ≥ 3 then 2 else 0)
  else (0, 0)

/-- The size of a last, unfinished character, from the bytes in reverse order. -/
def unfinishedSize : List Nat → Nat → Nat
  | [], _ => 0
  | byte :: rest, extensionCount =>
    if byte &&& 0xC0 = 0x80 then unfinishedSize rest (extensionCount + 1)
    else if (byte : Int) ≥ ((-64 : Int) >>> extensionCount) % 256 then
      (if byte ≥ 0xF0 then 2 else 1)
    else 0

/-! ## Conversion -/

def skipBomSingle (bytes : List Nat) : List Nat :=
  match bytes with
  | 0xEF :: 0xBB :: 0xBF :: rest => rest
  | _ => bytes

/-- Latin-1 text is decoded by `decode8`, and all other text by `decode16`. -/
def decodeByFlags (d : Decoder) (flags : Nat) (bytes : List Nat) (size : Nat) :
    Option (Decoder × List Nat) :=
  if flags = flagLatin1 ||| flagExtension then decode8 d bytes size else decode16 d bytes size

/-- The bits of a code unit, and the writes. -/
def writesByFlags (d : Decoder) (flags : Nat) (bytes : List Nat) : Nat × List (Nat × Nat) :=
  if flags = flagLatin1 ||| flagExtension then (8, writes8 d bytes) else (16, writes16 d bytes)

/-- The text of a conversion, or the exception. -/
abbrev Converted := Except FormatException (List Nat)

def convertSingle (d : Decoder) (bytes : List Nat) : Option (Decoder × Converted) :=
  let rest := skipBomSingle bytes
  let skipped := bytes.length - rest.length
  if rest = [] then some (d, .ok [])
  else
    let size := scanSize rest
    let flags := scanFlags rest
    if flags = 0 then some (d, .ok rest)
    else do
      let (d', result) ← decodeByFlags d flags rest size
      if d'.state = IA then some (d', .ok result)
      else if !d.allowMalformed then
        let d' :=
          if isErrorState d'.state then d'
          else { d' with state := E7, charOrIndex := rest.length }
        some (d', .error ⟨errorDescription d'.state, some (skipped + d'.charOrIndex)⟩)
      else do
        let (d', result) ← decodeGeneral { d' with state := IA } rest true
        some (d', .ok result)

/-- The loop of `skipBomChunked`; the bytes and the fields when it returns. -/
def skipBomLoop (d : Decoder) (bytes : List Nat) : List Nat → Nat → Decoder × List Nat
  | rest, 3 => ({ d with bomIndex := -1, state := IA }, rest)
  | [], bomIndex => ({ d with bomIndex := bomIndex }, bytes)
  | byte :: rest, bomIndex =>
    if byte ≠ [0xEF, 0xBB, 0xBF].getD bomIndex 0 then ({ d with bomIndex := -1 }, bytes)
    else skipBomLoop d bytes rest (bomIndex + 1)

def skipBomChunked (d : Decoder) (bytes : List Nat) : Decoder × List Nat :=
  if d.bomIndex = -1 then (d, bytes) else skipBomLoop d bytes bytes d.bomIndex.toNat

def convertChunked (d : Decoder) (bytes : List Nat) : Option (Decoder × Converted) :=
  let (d, rest) := skipBomChunked d bytes
  let skipped := bytes.length - rest.length
  if rest = [] then some (d, .ok [])
  else
    let (carryFlags, carrySize) := carryOver d rest.length
    let size := scanSize rest + carrySize
    let flags := scanFlags rest ||| carryFlags
    if flags = 0 then some (d, .ok rest)
    else do
      let size := size - unfinishedSize rest.reverse 0
      let (d', result) ← decodeByFlags d flags rest size
      if !isErrorState d'.state then some (d', .ok result)
      else if !d.allowMalformed then
        some ({ d' with state := IA },
          .error ⟨errorDescription d'.state, some (skipped + d'.charOrIndex)⟩)
      else do
        let (d', result) ←
          decodeGeneral { d' with state := d.state, charOrIndex := d.charOrIndex } rest false
        some (d', .ok result)

/-- A string that is allocated for a slice, with the bits of its code units and what is written. -/
structure Allocation where
  size : Nat
  width : Nat
  writes : List (Nat × Nat)
  result : Option (Decoder × List Nat)

/-- The string that `convertChunked` allocates after the byte order mark. -/
def allocate (d : Decoder) (bytes : List Nat) : Allocation :=
  let (carryFlags, carrySize) := carryOver d bytes.length
  let size := scanSize bytes + carrySize
  let flags := scanFlags bytes ||| carryFlags
  if flags = 0 then
    -- `copyRangeFromUint8ListToOneByteString`
    ⟨size, 8, (bytes.take size).zipIdx, some (d, bytes)⟩
  else
    let size := size - unfinishedSize bytes.reverse 0
    let (width, writes) := writesByFlags d flags bytes
    ⟨size, width, writes, decodeByFlags d flags bytes size⟩

/-- `flush`, with what it writes to the sink. -/
def flush (d : Decoder) : Decoder × Converted :=
  let flushed := { d with state := IA }
  if d.state ≤ AB then (flushed, .ok [])
  else if d.allowMalformed then (flushed, .ok [replacement])
  else (flushed, .error ⟨errorDescription E7, none⟩)

/-! ## Sinks -/

/-- The two sinks that decode: into a string sink, or into a chunked sink. -/
inductive SinkClass
  | stringSinkAdapter
  | conversionSink
  deriving DecidableEq

/-- What the downstream sink has received, and whether an exception has come through. -/
structure Sink where
  decoder : Decoder
  text : List Nat := []
  closed : Nat := 0
  thrown : Option FormatException := none
  deriving DecidableEq

/-- `close` of the two sinks. The buffer of a conversion sink is empty between two calls. -/
def Sink.close (s : Sink) : Sink :=
  match flush s.decoder with
  | (d, .ok text) => { s with decoder := d, text := s.text ++ text, closed := s.closed + 1 }
  | (d, .error e) => { s with decoder := d, thrown := some e }

/-- `addSlice`. A conversion sink passes `isLast` on with the text, and closes only without text. -/
def Sink.addSlice (cls : SinkClass) (s : Sink) (bytes : List Nat) (isLast : Bool) :
    Option Sink := do
  match ← convertChunked s.decoder bytes with
  | (d, .error e) => some { s with decoder := d, thrown := some e }
  | (d, .ok text) =>
    let s := { s with decoder := d, text := s.text ++ text }
    match cls with
    | .stringSinkAdapter => some (if isLast then s.close else s)
    | .conversionSink =>
      if text ≠ [] then some { s with closed := if isLast then s.closed + 1 else s.closed }
      else some (if isLast then s.close else s)

/-- How the input ends: by `close`, or by a slice that is marked as the last one. -/
inductive Ending
  | close
  | lastSlice (bytes : List Nat)
  deriving DecidableEq

def Ending.bytes : Ending → List Nat
  | .close => []
  | .lastSlice bytes => bytes

/-- Adds the slices and ends the input, until an exception is thrown. -/
def runSink (cls : SinkClass) (ending : Ending) : List (List Nat) → Sink → Option Sink
  | [], s =>
    match ending with
    | .close => some s.close
    | .lastSlice bytes => s.addSlice cls bytes true
  | slice :: slices, s => do
    let s ← s.addSlice cls slice false
    if s.thrown.isSome then some s else runSink cls ending slices s

end Dart2Wasm.Utf8
