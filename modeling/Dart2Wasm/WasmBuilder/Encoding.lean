import Dart2Wasm.WasmBuilder.Serialize

/-!
# WasmBuilder.Encoding — the bytes of emitted instructions

Every method of `Instructions` appends an opcode (one byte, or a prefix byte and a second byte) and
the immediates of the instruction. Which immediates follow is determined by the opcode: this
module lists the opcodes that the builder can emit with the layout of their immediates, as they
are written in `wasm_builder/lib/src/instructions.dart`.

A decoder that meets an expression in the middle of a section (the initializer of a global) finds
the end of it by following the nesting of blocks up to the matching `end`, so it has to decode
every instruction on the way.
-/

namespace Dart2Wasm.WasmBuilder

open Lib Reads UInt8

variable {types : TypeTable}

/-! ## Immediates -/

/-- The type of a block: no inputs and outputs, no inputs and one output, or a function type. -/
inductive BlockType
  | empty
  | value (type : ValueType)
  | function (type : DefTypeId)
  deriving DecidableEq

inductive ImmKind
  | unsigned
  | signed
  | bytes (length : Nat)
  | heapType
  | types
  | block
  | labels
  | memArg
  deriving DecidableEq

inductive Imm
  | unsigned (value : Nat)
  | signed (value : Int)
  | bytes (content : List Byte)
  | heapType (type : HeapType)
  | types (list : List ValueType)
  | block (type : BlockType)
  | labels (targets : List Nat) (default : Nat)
  | memArg (align offset memory : Nat)
  deriving DecidableEq

namespace BlockType

def serialize (types : TypeTable) : BlockType → List Byte
  | .empty => [0x40]
  | .value t => t.serialize types
  | .function d => writeSigned (types.indexOf d)

/-- Type codes are the one-byte negative numbers; everything else is a type index. -/
def read : Reader BlockType := do
  let tag ← Parser.peek
  match tag with
  | none => Parser.fail
  | some b =>
    if b = 0x40 then do
      let _ ← Parser.token
      pure .empty
    else if 0x40 ≤ b.toNat ∧ b.toNat < 0x80 then do
      let t ← ValueType.read
      pure (.value t)
    else do
      let i ← readSigned
      pure (.function i.toNat)

/-- The first byte of a type index is not a type code. -/
theorem writeSigned_head (n : Nat) :
    ∃ b bs, writeSigned (n : Int) = b :: bs ∧ (b.toNat < 0x40 ∨ 0x80 ≤ b.toNat) := by
  have hofNat : ∀ k, k < 256 → (ofNat k).toNat = k := by
    intro k hk
    simp [Nat.mod_eq_of_lt hk]
  cases n with
  | zero =>
    exact ⟨0, [], by decide, Or.inl (by decide)⟩
  | succ n =>
    have hunfold : writeSigned ((n + 1 : Nat) : Int) =
        if ((n + 1 : Nat) : Int) < -0x40 ∨ 0x40 ≤ ((n + 1 : Nat) : Int) then
          ofNat ((((n + 1 : Nat) : Int) % 0x80).toNat + 0x80) ::
            Leb128.signedLoop n (((n + 1 : Nat) : Int) / 0x80)
        else [ofNat (((n + 1 : Nat) : Int) % 0x80).toNat] := rfl
    rw [hunfold]
    split
    · refine ⟨_, _, rfl, Or.inr ?_⟩
      rw [hofNat _ (by omega)]
      omega
    · rename_i hsmall
      refine ⟨_, _, rfl, Or.inl ?_⟩
      rw [hofNat _ (by omega)]
      omega

theorem valueTag_range {tag : Byte} {bytes : List Byte} {t : ValueType}
    (h : Reads (ValueType.readTagged tag) bytes t) : 0x40 < tag.toNat ∧ tag.toNat < 0x80 := by
  have hcodes : ∀ k ∈ ([0x7F, 0x7E, 0x7D, 0x7C, 0x7B, 0x69, 0x68, 0x6C, 0x6B, 0x6E, 0x6D, 0x70,
      0x67, 0x6A, 0x6F] : List Byte), 0x40 < k.toNat ∧ k.toNat < 0x80 := by
    decide +kernel
  by_contra hout
  have hne : ∀ k ∈ ([0x7F, 0x7E, 0x7D, 0x7C, 0x7B, 0x69, 0x68, 0x6C, 0x6B, 0x6E, 0x6D, 0x70,
      0x67, 0x6A, 0x6F] : List Byte), tag ≠ k := by
    intro k hk heq
    exact hout (heq ▸ hcodes k hk)
  have hfail : ValueType.readTagged tag = Parser.fail := by
    simp [ValueType.readTagged, hne]
  have := h []
  simp [hfail, Parser.fail] at this

theorem reads_serialize (hidx : types.Indexed) (b : BlockType) :
    Reads BlockType.read (b.serialize types) b := by
  cases b with
  | empty =>
    exact peek_bind (token_bind (pure _))
  | value t =>
    rcases ValueType.serialize_tagged (t := t) hidx with ⟨tag, bytes, hs, hr⟩
    have hrange := valueTag_range hr
    have hne : tag ≠ 0x40 := by
      rintro rfl
      exact absurd hrange.1 (by decide)
    have hread : Reads ValueType.read (tag :: bytes) t := token_bind hr
    have h : Reads BlockType.read (tag :: bytes) (.value t) := by
      refine peek_bind ?_
      refine ite_false hne (ite_true ⟨by omega, hrange.2⟩ ?_)
      exact bind_pure hread rfl
    simpa [serialize, hs] using h
  | function d =>
    rcases writeSigned_head (types.indexOf d) with ⟨b, bs, hw, hb⟩
    have hd : types.indexOf d = d := hidx.indexOf_eq d
    have hread : Reads readSigned (b :: bs) (types.indexOf d) := hw ▸ reads_writeSigned _
    have hne : b ≠ 0x40 := by
      rintro rfl
      rcases hb with hb | hb
      · exact absurd hb (by decide)
      · exact absurd hb (by decide)
    have h : Reads BlockType.read (b :: bs) (.function d) := by
      refine peek_bind ?_
      refine ite_false hne (ite_false (by omega) ?_)
      exact bind_pure hread (by simp [hd])
    simpa [serialize, hw] using h

end BlockType

namespace Imm

/-- `writeMemArg`: the memory index is written only when it is not zero. -/
def writeMemArg (align offset memory : Nat) : List Byte :=
  if memory = 0 then UInt8.ofNat align :: writeUnsigned offset
  else UInt8.ofNat (64 + align) :: (writeUnsigned offset ++ writeUnsigned memory)

def serialize (types : TypeTable) : Imm → List Byte
  | .unsigned n => writeUnsigned n
  | .signed v => writeSigned v
  | .bytes content => content
  | .heapType h => h.serialize types
  | .types ts => writeList (ValueType.serialize types) ts
  | .block b => b.serialize types
  | .labels targets default => writeList writeUnsigned targets ++ writeUnsigned default
  | .memArg align offset memory => writeMemArg align offset memory

/-- The immediate has the layout that the opcode asks for. -/
def fits : Imm → ImmKind → Bool
  | .unsigned _, .unsigned => true
  | .signed _, .signed => true
  | .bytes content, .bytes n => content.length == n
  | .heapType _, .heapType => true
  | .types _, .types => true
  | .block _, .block => true
  | .labels _ _, .labels => true
  | .memArg align _ _, .memArg => decide (align < 64)
  | _, _ => false

def readMemArg : Reader Imm := do
  let flags ← Parser.token
  let offset ← readUnsigned
  if flags.toNat < 64 then pure (.memArg flags.toNat offset 0)
  else if flags.toNat < 128 then do
    let memory ← readUnsigned
    pure (.memArg (flags.toNat - 64) offset memory)
  else Parser.fail

def read : ImmKind → Reader Imm
  | .unsigned => do
    let n ← readUnsigned
    pure (.unsigned n)
  | .signed => do
    let v ← readSigned
    pure (.signed v)
  | .bytes n => do
    let content ← readBytes n
    pure (.bytes content)
  | .heapType => do
    let h ← HeapType.read
    pure (.heapType h)
  | .types => do
    let ts ← readList ValueType.read
    pure (.types ts)
  | .block => do
    let b ← BlockType.read
    pure (.block b)
  | .labels => do
    let targets ← readList readUnsigned
    let default ← readUnsigned
    pure (.labels targets default)
  | .memArg => readMemArg

theorem reads_memArg {align : Nat} (h : align < 64) (offset memory : Nat) :
    Reads readMemArg (writeMemArg align offset memory) (.memArg align offset memory) := by
  unfold writeMemArg
  split
  · rename_i hzero
    have hbyte : (ofNat align).toNat = align := by
      simp [Nat.mod_eq_of_lt (show align < 256 by omega)]
    refine token_bind (bind_pure (reads_writeUnsigned offset) ?_)
    simp [hbyte, h, hzero]
  · have hbyte : (ofNat (64 + align)).toNat = 64 + align := by
      simp [Nat.mod_eq_of_lt (show 64 + align < 256 by omega)]
    refine token_bind (bind (reads_writeUnsigned offset) ?_)
    refine ite_false (by omega) (ite_true (by omega) ?_)
    refine bind_pure (reads_writeUnsigned memory) ?_
    rw [hbyte, Nat.add_sub_cancel_left]

theorem reads_serialize (hidx : types.Indexed) {k : ImmKind} {i : Imm}
    (hfit : i.fits k = true) : Reads (Imm.read k) (i.serialize types) i := by
  cases k <;> cases i <;> first | exact absurd hfit Bool.false_ne_true | skip
  case unsigned.unsigned n => exact bind_pure (reads_writeUnsigned n) rfl
  case signed.signed v => exact bind_pure (reads_writeSigned v) rfl
  case bytes.bytes n content =>
      have hlen : content.length = n := by simpa [fits] using hfit
      exact bind_pure (hlen ▸ reads_bytes content) rfl
  case heapType.heapType h => exact bind_pure (HeapType.reads_serialize hidx) rfl
  case types.types ts =>
      exact bind_pure (reads_writeList fun _ _ => ValueType.reads_serialize hidx) rfl
  case block.block b => exact bind_pure (BlockType.reads_serialize hidx b) rfl
  case labels.labels targets default =>
      exact bind (reads_writeList fun n _ => reads_writeUnsigned n)
        (bind_pure (reads_writeUnsigned default) rfl)
  case memArg.memArg align offset memory =>
      have halign : align < 64 := by simpa [fits] using hfit
      exact reads_memArg halign offset memory

end Imm

/-! ## Opcodes -/

/-- The opcodes of `instructions.dart`: one byte, or a second byte after `0xFB` (reference types)
or `0xFC` (saturating truncations). -/
inductive Opcode
  | plain (byte : Byte)
  | gc (byte : Byte)
  | sat (byte : Byte)
  deriving DecidableEq

namespace Opcode

/-- The immediates written after a one-byte opcode. -/
def plainImmediates (b : Nat) : Option (List ImmKind) :=
  if b ≤ 0x01 then some []                                    -- unreachable, nop
  else if b ≤ 0x04 then some [.block]                         -- block, loop, if
  else if b = 0x05 ∨ b = 0x0B ∨ b = 0x0F then some []         -- else, end, return
  else if b = 0x0C ∨ b = 0x0D then some [.unsigned]           -- br, br_if
  else if b = 0x0E then some [.labels]                        -- br_table
  else if b = 0x10 then some [.unsigned]                      -- call
  else if b = 0x11 then some [.unsigned, .unsigned]           -- call_indirect
  else if b = 0x14 ∨ b = 0x1A ∨ b = 0x1B then some []         -- call_ref, drop, select
  else if b = 0x1C then some [.types]                         -- select with a type
  else if 0x20 ≤ b ∧ b ≤ 0x24 then some [.unsigned]           -- local.*, global.*
  else if 0x28 ≤ b ∧ b ≤ 0x3E then some [.memArg]             -- loads and stores
  else if b = 0x3F ∨ b = 0x40 then some [.unsigned]           -- memory.size, memory.grow
  else if b = 0x41 ∨ b = 0x42 then some [.signed]             -- i32.const, i64.const
  else if b = 0x43 then some [.bytes 4]                       -- f32.const
  else if b = 0x44 then some [.bytes 8]                       -- f64.const
  else if 0x45 ≤ b ∧ b ≤ 0xC4 then some []                    -- numeric operations
  else if b = 0xD0 then some [.heapType]                      -- ref.null
  else if b = 0xD1 ∨ b = 0xD3 ∨ b = 0xD5 then some []         -- ref.is_null, as_non_null, eq
  else if b = 0xD2 ∨ b = 0xD4 ∨ b = 0xD6 then some [.unsigned] -- ref.func, br_on_(non_)null
  else none

/-- The immediates written after `0xFB` and a second byte. -/
def gcImmediates (b : Nat) : Option (List ImmKind) :=
  if b = 0x01 ∨ b = 0x02 ∨ b = 0x07 ∨ b = 0x08 then some [.unsigned]  -- struct.new*
  else if 0x03 ≤ b ∧ b ≤ 0x06 then some [.unsigned, .unsigned]        -- struct.get*, struct.set
  else if 0x11 ≤ b ∧ b ≤ 0x17 then some [.unsigned]                   -- array.*
  else if b = 0x19 ∨ b = 0x1A then some [.unsigned, .unsigned]        -- array.init*
  else if b = 0x1B ∨ b = 0x1C then some [.unsigned]                   -- array.new*
  else if b = 0x1D ∨ b = 0x1E then some [.unsigned, .unsigned]        -- array.init_from_data*
  else if 0x20 ≤ b ∧ b ≤ 0x22 then some []                            -- i31.*
  else if b = 0x30 ∨ b = 0x31 then some [.signed]                     -- rtt.*
  else if b = 0x40 ∨ b = 0x41 then some []                            -- ref.test, ref.cast
  else if b = 0x42 ∨ b = 0x43 then some [.unsigned]                   -- br_on_cast*
  else if b = 0x44 ∨ b = 0x45 then some [.signed]                     -- ref.*_static
  else if b = 0x46 ∨ b = 0x47 then some [.unsigned, .signed]          -- br_on_cast_static*
  else if 0x50 ≤ b ∧ b ≤ 0x52 ∨ 0x58 ≤ b ∧ b ≤ 0x5A then some []      -- ref.is_*, ref.as_*
  else if 0x60 ≤ b ∧ b ≤ 0x65 then some [.unsigned]                   -- br_on_*
  else none

def immediates : Opcode → Option (List ImmKind)
  -- The two bytes which introduce a second byte are no opcodes of their own.
  | .plain b => plainImmediates b.toNat
  | .gc b => gcImmediates b.toNat
  | .sat b => if b.toNat ≤ 0x07 then some [] else none

def serialize : Opcode → List Byte
  | .plain b => [b]
  | .gc b => [0xFB, b]
  | .sat b => [0xFC, b]

def read : Reader Opcode := do
  let b ← Parser.token
  if b = 0xFB then do
    let c ← Parser.token
    pure (.gc c)
  else if b = 0xFC then do
    let c ← Parser.token
    pure (.sat c)
  else pure (.plain b)

/-- `block`, `loop` and `if`. -/
def opensBlock : Opcode → Bool
  | .plain b => b == 0x02 || b == 0x03 || b == 0x04
  | _ => false

def isEnd : Opcode → Bool
  | .plain b => b == 0x0B
  | _ => false

theorem reads_serialize {op : Opcode} {kinds : List ImmKind} (h : op.immediates = some kinds) :
    Reads Opcode.read op.serialize op := by
  cases op with
  | plain b =>
    have hFB : b ≠ 0xFB := by
      rintro rfl
      have : (none : Option (List ImmKind)) = some kinds := h
      cases this
    have hFC : b ≠ 0xFC := by
      rintro rfl
      have : (none : Option (List ImmKind)) = some kinds := h
      cases this
    exact token_bind (ite_false hFB (ite_false hFC (pure _)))
  | gc | sat => exact token_bind (token_bind (pure _))

end Opcode

/-! ## Emitted instructions and expressions -/

/-- The immediates have the layouts that the opcode asks for. -/
def Opcode.accepts (op : Opcode) (is : List Imm) : Bool :=
  match op.immediates with
  | some kinds => kinds.length == is.length && (is.zip kinds).all fun p => p.1.fits p.2
  | none => false

/-- An opcode of the builder with the immediates that belong to it. -/
structure EmittedInstr where
  opcode : Opcode
  immediates : List Imm
  accepted : opcode.accepts immediates = true
  deriving DecidableEq

namespace EmittedInstr

def serialize (types : TypeTable) (i : EmittedInstr) : List Byte :=
  i.opcode.serialize ++ i.immediates.flatMap (Imm.serialize types)

def readImmediates : List ImmKind → Reader (List Imm)
  | [] => pure []
  | k :: ks => do
    let i ← Imm.read k
    let is ← readImmediates ks
    pure (i :: is)

def read : Reader EmittedInstr := do
  let opcode ← Opcode.read
  match opcode.immediates with
  | none => Parser.fail
  | some kinds => do
    let immediates ← readImmediates kinds
    if h : opcode.accepts immediates = true then pure ⟨opcode, immediates, h⟩
    else Parser.fail

theorem reads_immediates (hidx : types.Indexed) {kinds : List ImmKind} {is : List Imm}
    (hlen : kinds.length = is.length) (hfits : ∀ p ∈ is.zip kinds, p.1.fits p.2 = true) :
    Reads (readImmediates kinds) (is.flatMap (Imm.serialize types)) is := by
  induction kinds generalizing is with
  | nil =>
    have : is = [] := List.length_eq_zero_iff.1 hlen.symm
    subst this
    exact pure []
  | cons k kinds ih =>
    cases is with
    | nil => simp at hlen
    | cons i is =>
      have hi : i.fits k = true := hfits (i, k) (by simp)
      have his : Reads (readImmediates kinds) (is.flatMap (Imm.serialize types)) is :=
        ih (by simpa using hlen) (fun p hp => hfits p (by simp [hp]))
      have hcons : Reads (readImmediates (k :: kinds))
          (i.serialize types ++ is.flatMap (Imm.serialize types)) (i :: is) :=
        bind (Imm.reads_serialize hidx hi) (bind_pure his rfl)
      simpa using hcons

theorem reads_serialize (hidx : types.Indexed) (i : EmittedInstr) :
    Reads EmittedInstr.read (i.serialize types) i := by
  rcases i with ⟨op, is, hacc⟩
  cases hkinds : op.immediates with
  | none =>
    simp [Opcode.accepts, hkinds] at hacc
  | some kinds =>
    have hfits : kinds.length = is.length ∧ ∀ p ∈ is.zip kinds, p.1.fits p.2 = true := by
      simpa [Opcode.accepts, hkinds] using hacc
    refine bind (Opcode.reads_serialize hkinds) ?_
    rw [hkinds]
    refine bind_pure (reads_immediates hidx hfits.1 hfits.2) ?_
    exact dif_pos hacc

theorem serialize_ne_nil (types : TypeTable) (i : EmittedInstr) : i.serialize types ≠ [] := by
  rcases i with ⟨op, is, _⟩
  cases op <;> simp [serialize, Opcode.serialize]

/-- The height of the label stack after emitting the instructions; nothing comes after the final
`end`, which removes the last label. -/
def openLabels : Nat → List EmittedInstr → Option Nat
  | labels, [] => some labels
  | 0, _ :: _ => none
  | labels + 1, i :: is =>
    if i.opcode.isEnd then openLabels labels is
    else if i.opcode.opensBlock then openLabels (labels + 2) is
    else openLabels (labels + 1) is

theorem openLabels_append (labels : Nat) (is js : List EmittedInstr) :
    openLabels labels (is ++ js) = (openLabels labels is).bind fun n => openLabels n js := by
  induction is generalizing labels with
  | nil =>
    cases labels <;> rfl
  | cons i is ih =>
    cases labels with
    | zero => rfl
    | succ labels =>
      simp only [List.cons_append, openLabels]
      split
      · exact ih _
      · split
        · exact ih _
        · exact ih _

/-- Read instructions up to the `end` that closes the outermost open block. Every instruction has at
least one byte, so the length of the input is enough fuel. -/
def readUntilEnd : Nat → Nat → Reader (List EmittedInstr)
  | 0, _ => Parser.fail
  | fuel + 1, depth => do
    let i ← EmittedInstr.read
    if i.opcode.isEnd then
      match depth with
      | 0 => pure [i]
      | depth + 1 => do
        let is ← readUntilEnd fuel depth
        pure (i :: is)
    else if i.opcode.opensBlock then do
      let is ← readUntilEnd fuel (depth + 1)
      pure (i :: is)
    else do
      let is ← readUntilEnd fuel depth
      pure (i :: is)

def readExpression : Reader (List EmittedInstr) :=
  fun bytes => readUntilEnd bytes.length 0 bytes

theorem reads_untilEnd (hidx : types.Indexed) {code : List EmittedInstr} {fuel depth : Nat}
    (hfuel : code.length ≤ fuel) (hcloses : openLabels (depth + 1) code = some 0) :
    Reads (readUntilEnd fuel depth) (code.flatMap (serialize types)) code := by
  induction code generalizing fuel depth with
  | nil =>
    simp [openLabels] at hcloses
  | cons i is ih =>
    cases fuel with
    | zero => simp at hfuel
    | succ fuel =>
      have hi : Reads EmittedInstr.read (i.serialize types) i := reads_serialize hidx i
      have hrest : ∀ {d : Nat}, openLabels (d + 1) is = some 0 →
          Reads (readUntilEnd fuel d) (is.flatMap (serialize types)) is := by
        intro d hd
        exact ih (by simpa using hfuel) hd
      unfold openLabels at hcloses
      refine bind hi ?_
      -- The three ways in which the nesting can change.
      split at hcloses
      · rename_i hend
        refine ite_true hend ?_
        cases depth with
        | zero =>
          -- Nothing can follow the final `end`.
          cases is with
          | nil => exact pure [i]
          | cons j js => simp [openLabels] at hcloses
        | succ depth => exact bind_pure (hrest hcloses) rfl
      · rename_i hend
        refine ite_false hend ?_
        split at hcloses
        · rename_i hopen
          exact ite_true hopen (bind_pure (hrest hcloses) rfl)
        · rename_i hopen
          exact ite_false hopen (bind_pure (hrest hcloses) rfl)

/-- A complete expression is read back whatever follows its final `end`. -/
theorem reads_expression (hidx : types.Indexed) {code : List EmittedInstr}
    (hcloses : openLabels 1 code = some 0) :
    Reads readExpression (code.flatMap (serialize types)) code := by
  intro rest
  have hlen : code.length ≤ (code.flatMap (serialize types)).length :=
    length_le_flatMap fun i _ => serialize_ne_nil types i
  exact reads_untilEnd hidx (by simp only [List.length_append]; omega) hcloses rest

end EmittedInstr

/-! ## Instruction sequences -/

/-- The part of an `Instructions` object that serialization reads: what has been emitted, and the
height of the label stack, which starts with the label of the whole expression. -/
structure InstructionBuffer where
  code : List EmittedInstr
  labels : Nat
  labels_eq : EmittedInstr.openLabels 1 code = some labels
  deriving DecidableEq

namespace InstructionBuffer

def empty : InstructionBuffer := ⟨[], 1, rfl⟩

def isComplete (b : InstructionBuffer) : Bool :=
  b.labels == 0

/-- Append an instruction; `none` is the error "Label stack underflow". -/
def emit (b : InstructionBuffer) (i : EmittedInstr) : Option InstructionBuffer :=
  match h : EmittedInstr.openLabels b.labels [i] with
  | none => none
  | some labels =>
    some ⟨b.code ++ [i], labels, by
      rw [EmittedInstr.openLabels_append, b.labels_eq]
      exact h⟩

def serialize (types : TypeTable) (b : InstructionBuffer) : List Byte :=
  b.code.flatMap (EmittedInstr.serialize types)

theorem reads_serialize (hidx : types.Indexed) {b : InstructionBuffer}
    (hcomplete : b.isComplete = true) :
    Reads EmittedInstr.readExpression (b.serialize types) b.code := by
  have hzero : b.labels = 0 := by simpa [isComplete] using hcomplete
  exact EmittedInstr.reads_expression hidx (hzero ▸ b.labels_eq)

end InstructionBuffer

end Dart2Wasm.WasmBuilder
