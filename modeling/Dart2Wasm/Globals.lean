import Dart2Wasm.Lib.CellProgram
import Dart2Wasm.WasmBuilder.Types

/-!
# Globals — lazy initialization of static fields

A static field is kept in a Wasm global. A field with a constant initializer starts with the
constant; for any other field the first read has to run the initializer, and `Globals` chooses how
to tell that it has not run yet: a null in the global if the field's type is a non-nullable
reference, an extra flag global otherwise. Four pieces of code have to agree on the choice: the
creation of the global (`getGlobal`), the initializer function (`generate`), the read (`readGlobal`)
and the write (`visitStaticSet`).

The emitted code is compared with the Dart semantics, in which a read returns the last value written
or initialized and otherwise runs the initializer. The programs that use the field, the initializer
itself among them, are arbitrary: they may read and write the field in any order.
-/

namespace Dart2Wasm.Globals

open Lib
open WasmBuilder (ValueType)

/-! ## Fields and the choice of representation -/

inductive Constant
  | null
  | int (value : Int)
  | double (bits : UInt64)
  | bool (value : Bool)
  | string (value : String)
  -- Any other constant.
  | object (id : Nat)
  deriving DecidableEq

/-- The initializer expression of a field whose values are `V`, in a program with state `σ`. -/
inductive Initializer (V σ : Type)
  | nullLiteral
  | intLiteral (value : Int)
  | doubleLiteral (bits : UInt64)
  | boolLiteral (value : Bool)
  | stringLiteral (value : String)
  | constantExpression (constant : Constant)
  | expression (code : CellProg V σ)

/-- A static field, with the value that each constant has at the field's type and the dummy value
of that type. -/
structure Field (V σ : Type) where
  type : ValueType
  initializer : Option (Initializer V σ)
  instantiateConstant : Constant → V
  dummy : V

variable {V σ : Type}

def getConstantInitializer (lazyConstants : Bool) : Option (Initializer V σ) → Option Constant
  | none => some .null
  | some .nullLiteral => some .null
  | some (.intLiteral value) => some (.int value)
  | some (.doubleLiteral bits) => some (.double bits)
  | some (.boolLiteral value) => some (.bool value)
  | some (.stringLiteral value) => if lazyConstants then none else some (.string value)
  | some (.constantExpression constant) => if lazyConstants then none else some constant
  | some (.expression _) => none

/-- How a field that has not been initialized is recognized. -/
inductive Representation (V : Type)
  -- Initialized to a constant.
  | constant (value : V)
  -- Null signals uninitialized.
  | nullMarker
  -- Explicit initialization flag.
  | flag
  deriving DecidableEq

/-- The choice made in `getGlobal`. -/
def Field.representation (f : Field V σ) (lazyConstants : Bool) : Representation V :=
  match getConstantInitializer lazyConstants f.initializer with
  | some constant => .constant (f.instantiateConstant constant)
  | none =>
    match f.type with
    | .ref _ false => .nullMarker
    | _ => .flag

def Field.initializerCode (f : Field V σ) : CellProg V σ :=
  match f.initializer with
  | none => .ret (f.instantiateConstant .null)
  | some .nullLiteral => .ret (f.instantiateConstant .null)
  | some (.intLiteral value) => .ret (f.instantiateConstant (.int value))
  | some (.doubleLiteral bits) => .ret (f.instantiateConstant (.double bits))
  | some (.boolLiteral value) => .ret (f.instantiateConstant (.bool value))
  | some (.stringLiteral value) => .ret (f.instantiateConstant (.string value))
  | some (.constantExpression constant) => .ret (f.instantiateConstant constant)
  | some (.expression code) => code

/-! ## Dart semantics -/

/-- The state of a Dart program around the field: the values read so far and how often the
initializer has been started. `completed` and `stale` only observe whether the initializer has
completed and whether a value written before that has been read. -/
structure DartState (V σ : Type) where
  cell : Option V
  own : σ
  values : List V := []
  initCount : Nat := 0
  completed : Bool
  stale : Bool := false

/-- A read runs the initializer if the field has been neither written nor initialized. -/
def dartRead (runInitializer : DartState V σ → Option V × DartState V σ) (s : DartState V σ) :
    Option V × DartState V σ :=
  match s.cell with
  | some v => (some v, { s with values := s.values ++ [v], stale := s.stale || !s.completed })
  | none =>
    match runInitializer { s with initCount := s.initCount + 1 } with
    | (some v, s') =>
      (some v, { s' with cell := some v, values := s'.values ++ [v], completed := true })
    | (none, s') => (none, s')

/-- A static get and a static set in Dart. -/
def dartHandler (runInitializer : DartState V σ → Option V × DartState V σ) :
    CellHandler (DartState V σ) V σ where
  read := dartRead runInitializer
  write v s := { s with cell := some v }
  own f s := (f s.own, { s with own := f s.own })

/-- Run the initializer, with a bound on how deeply runs of the initializer are nested. -/
def dartInitializer (code : CellProg V σ) : Nat → DartState V σ → Option V × DartState V σ
  | 0, s => (none, s)
  | depth + 1, s => code.run (dartHandler (dartInitializer code depth)) s

/-- The state at the start. Evaluating a constant has no effects, so a constant is in place before
the program runs. -/
def dartInitial (f : Field V σ) (lazyConstants : Bool) (own : σ) : DartState V σ :=
  match getConstantInitializer lazyConstants f.initializer with
  | some constant =>
    { cell := some (f.instantiateConstant constant), own := own, completed := true }
  | none => { cell := none, own := own, completed := false }

def dartRun (f : Field V σ) (lazyConstants : Bool) (depth : Nat) (client : CellProg V σ) (own : σ) :
    Option V × DartState V σ :=
  client.run (dartHandler (dartInitializer f.initializerCode depth))
    (dartInitial f lazyConstants own)

/-! ## Emitted code -/

/-- The instructions that the four emitters use. Every sequence ends in `done`. -/
inductive Code (V : Type)
  | done
  -- The value of an operand expression.
  | operand (value : V) (next : Code V)
  -- The value of the initializer expression.
  | initializer (next : Code V)
  | globalGet (next : Code V)
  | globalSet (next : Code V)
  | flagGet (next : Code V)
  | flagSet (next : Code V)
  | i32Const (value : Int) (next : Code V)
  | if_ (thenCode elseCode next : Code V)
  | block (body next : Code V)
  -- Branches to the end of the innermost block.
  | brOnNonNull (next : Code V)
  | refAsNonNull (next : Code V)
  | callInitializer (next : Code V)

namespace Code

def readGlobal : Representation V → Code V
  | .constant _ => .globalGet .done
  | .flag => .flagGet (.if_ (.globalGet .done) (.callInitializer .done) .done)
  | .nullMarker => .block (.globalGet (.brOnNonNull (.callInitializer .done))) .done

/-- The initializer function of a field, emitted by `generate`. -/
def initializerFunction : Representation V → Code V
  | .flag => .initializer (.globalSet (.i32Const 1 (.flagSet (.globalGet .done))))
  -- The global is nullable and the result of the function is not.
  | _ => .initializer (.globalSet (.globalGet (.refAsNonNull .done)))

/-- `visitStaticSet`; the value is left on the stack if it is used. -/
def staticSet (value : V) (preserved : Bool) : Code V :=
  .operand value (.globalSet (if preserved then .globalGet .done else .done))

end Code

/-- The globals of the module, with the same record of reads and of runs of the initializer. In a
global, `none` is a null reference. -/
structure WasmState (V σ : Type) where
  global : Option V
  flag : Int := 0
  own : σ
  values : List V := []
  initCount : Nat := 0

inductive Operand (V : Type)
  | value (v : Option V)
  | i32 (n : Int)

/-- The result of executing a sequence: it ends, it branches to the end of the enclosing block, or
it traps or does not return. -/
inductive Outcome (V σ : Type)
  | next (stack : List (Operand V)) (s : WasmState V σ)
  | branch (stack : List (Operand V)) (s : WasmState V σ)
  | stop (s : WasmState V σ)

/-- The calls that the code can make. -/
structure Calls (V σ : Type) where
  initializer : WasmState V σ → Option V × WasmState V σ
  initializerFunction : WasmState V σ → Option V × WasmState V σ

def exec (calls : Calls V σ) : Code V → List (Operand V) → WasmState V σ → Outcome V σ
  | .done, stack, s => .next stack s
  | .operand v next, stack, s => exec calls next (.value (some v) :: stack) s
  | .initializer next, stack, s =>
    match calls.initializer s with
    | (some v, s') => exec calls next (.value (some v) :: stack) s'
    | (none, s') => .stop s'
  | .globalGet next, stack, s => exec calls next (.value s.global :: stack) s
  | .globalSet next, .value v :: stack, s => exec calls next stack { s with global := v }
  | .flagGet next, stack, s => exec calls next (.i32 s.flag :: stack) s
  | .flagSet next, .i32 n :: stack, s => exec calls next stack { s with flag := n }
  | .i32Const n next, stack, s => exec calls next (.i32 n :: stack) s
  | .if_ thenCode elseCode next, .i32 n :: stack, s =>
    match (if n ≠ 0 then exec calls thenCode [] s else exec calls elseCode [] s) with
    | .next results s' => exec calls next (results ++ stack) s'
    | .branch results s' => .branch results s'
    | .stop s' => .stop s'
  | .block body next, stack, s =>
    match exec calls body [] s with
    | .next results s' => exec calls next (results ++ stack) s'
    | .branch results s' => exec calls next (results ++ stack) s'
    | .stop s' => .stop s'
  | .brOnNonNull _, .value (some v) :: _, s => .branch [.value (some v)] s
  | .brOnNonNull next, .value none :: stack, s => exec calls next stack s
  | .refAsNonNull next, .value (some v) :: stack, s =>
    exec calls next (.value (some v) :: stack) s
  | .callInitializer next, stack, s =>
    match calls.initializerFunction s with
    | (some v, s') => exec calls next (.value (some v) :: stack) s'
    | (none, s') => .stop s'
  -- A trap, or an operand of the wrong kind.
  | _, _, s => .stop s

/-- The value that code without enclosing block leaves on the stack. -/
def Outcome.result : Outcome V σ → Option V × WasmState V σ
  | .next [.value (some v)] s => (some v, s)
  | .next _ s => (none, s)
  | .branch _ s => (none, s)
  | .stop s => (none, s)

def Outcome.state : Outcome V σ → WasmState V σ
  | .next _ s => s
  | .branch _ s => s
  | .stop s => s

/-- A static get and a static set compiled for a representation, in a program whose calls of the
initializer function are `call`. -/
def wasmHandler (rep : Representation V) (call : WasmState V σ → Option V × WasmState V σ) :
    CellHandler (WasmState V σ) V σ where
  read s :=
    match (exec ⟨call, call⟩ (Code.readGlobal rep) [] s).result with
    | (some v, s') => (some v, { s' with values := s'.values ++ [v] })
    | (none, s') => (none, s')
  write v s := (exec ⟨call, call⟩ (Code.staticSet v false) [] s).state
  own f s := (f s.own, { s with own := f s.own })

/-- Call the initializer function, with a bound on how deeply its calls are nested. -/
def wasmInitializer (code : CellProg V σ) (rep : Representation V) :
    Nat → WasmState V σ → Option V × WasmState V σ
  | 0, s => (none, { s with initCount := s.initCount + 1 })
  | depth + 1, s =>
    let evaluate := fun s : WasmState V σ =>
      code.run (wasmHandler rep (wasmInitializer code rep depth))
        { s with initCount := s.initCount + 1 }
    (exec ⟨evaluate, wasmInitializer code rep depth⟩ (Code.initializerFunction rep) [] s).result

/-- The globals as `getGlobal` creates them. -/
def wasmInitial (f : Field V σ) (rep : Representation V) (own : σ) : WasmState V σ :=
  match rep with
  | .constant value => { global := some value, own := own }
  | .nullMarker => { global := none, own := own }
  | .flag => { global := some f.dummy, own := own }

def wasmRun (f : Field V σ) (lazyConstants : Bool) (depth : Nat) (client : CellProg V σ) (own : σ) :
    Option V × WasmState V σ :=
  let rep := f.representation lazyConstants
  client.run (wasmHandler rep (wasmInitializer f.initializerCode rep depth)) (wasmInitial f rep own)

/-! ## What the emitted code does -/

section Emitted

variable (call : WasmState V σ → Option V × WasmState V σ) (s : WasmState V σ)

def logValue : Option V × WasmState V σ → Option V × WasmState V σ
  | (some v, s) => (some v, { s with values := s.values ++ [v] })
  | (none, s) => (none, s)

theorem read_constant (value : V) {v : V} (h : s.global = some v) :
    (wasmHandler (.constant value) call).read s = logValue (some v, s) := by
  simp [wasmHandler, Code.readGlobal, exec, Outcome.result, logValue, h]

theorem read_nullMarker_some {v : V} (h : s.global = some v) :
    (wasmHandler .nullMarker call).read s = logValue (some v, s) := by
  simp [wasmHandler, Code.readGlobal, exec, Outcome.result, logValue, h]

theorem read_nullMarker_none (h : s.global = none) :
    (wasmHandler .nullMarker call).read s = logValue (call s) := by
  cases hc : call s with
  | mk r s' =>
    cases r with
    | none | some => simp [wasmHandler, Code.readGlobal, exec, Outcome.result, logValue, h, hc]

theorem read_flag_set {v : V} (hflag : s.flag ≠ 0) (h : s.global = some v) :
    (wasmHandler .flag call).read s = logValue (some v, s) := by
  simp [wasmHandler, Code.readGlobal, exec, Outcome.result, logValue, h, hflag]

theorem read_flag_clear (hflag : s.flag = 0) :
    (wasmHandler .flag call).read s = logValue (call s) := by
  cases hc : call s with
  | mk r s' =>
    cases r with
    | none | some => simp [wasmHandler, Code.readGlobal, exec, Outcome.result, logValue, hflag, hc]

/-- A write stores the value, and the code leaves it on the stack if it is asked to. -/
theorem staticSet_exec (calls : Calls V σ) (v : V) (preserved : Bool) (stack : List (Operand V)) :
    exec calls (Code.staticSet v preserved) stack s =
      .next ((if preserved then [.value (some v)] else []) ++ stack)
        { s with global := some v } := by
  cases preserved <;> simp [Code.staticSet, exec]

theorem write_eq (rep : Representation V) (v : V) :
    (wasmHandler rep call).write v s = { s with global := some v } := by
  simp [wasmHandler, staticSet_exec, Outcome.state]

end Emitted

/-- What the initializer function stores. -/
def storeInitialized (rep : Representation V) (v : V) (s : WasmState V σ) : WasmState V σ :=
  match rep with
  | .flag => { s with global := some v, flag := 1 }
  | _ => { s with global := some v }

/-- Call the initializer function on the result of evaluating the initializer. -/
def finishInitializer (rep : Representation V) :
    Option V × WasmState V σ → Option V × WasmState V σ
  | (some v, s) => (some v, storeInitialized rep v s)
  | (none, s) => (none, s)

theorem wasmInitializer_succ (code : CellProg V σ) (rep : Representation V) (depth : Nat)
    (s : WasmState V σ) :
    wasmInitializer code rep (depth + 1) s = finishInitializer rep
      (code.run (wasmHandler rep (wasmInitializer code rep depth))
        { s with initCount := s.initCount + 1 }) := by
  cases hrun : code.run (wasmHandler rep (wasmInitializer code rep depth))
      { s with initCount := s.initCount + 1 } with
  | mk r s' =>
    cases r with
    | none =>
      cases rep <;>
        simp [wasmInitializer, Code.initializerFunction, exec, Outcome.result,
          finishInitializer, hrun]
    | some v =>
      cases rep <;>
        simp [wasmInitializer, Code.initializerFunction, exec, Outcome.result,
          finishInitializer, storeInitialized, hrun]

/-! ## The number of runs only grows -/

theorem initCount_logValue (r : Option V × WasmState V σ) :
    (logValue r).2.initCount = r.2.initCount := by
  rcases r with ⟨_ | v, s⟩ <;> rfl

theorem initCount_finishInitializer (rep : Representation V) (r : Option V × WasmState V σ) :
    (finishInitializer rep r).2.initCount = r.2.initCount := by
  rcases r with ⟨_ | v, s⟩
  · rfl
  · cases rep <;> rfl

variable {call : WasmState V σ → Option V × WasmState V σ}

theorem initCount_read_le {rep : Representation V} (hcall : ∀ s, s.initCount ≤ (call s).2.initCount)
    (s : WasmState V σ) : s.initCount ≤ ((wasmHandler rep call).read s).2.initCount := by
  cases rep with
  | constant value =>
    cases hg : s.global with
    | none => simp [wasmHandler, Code.readGlobal, exec, Outcome.result, hg]
    | some v => simp [read_constant call s value hg, initCount_logValue]
  | nullMarker =>
    cases hg : s.global with
    | none =>
      rw [read_nullMarker_none call s hg, initCount_logValue]
      exact hcall s
    | some v => simp [read_nullMarker_some call s hg, initCount_logValue]
  | flag =>
    by_cases hflag : s.flag = 0
    · rw [read_flag_clear call s hflag, initCount_logValue]
      exact hcall s
    · cases hg : s.global with
      | none => simp [wasmHandler, Code.readGlobal, exec, Outcome.result, hg, hflag]
      | some v => simp [read_flag_set call s hflag hg, initCount_logValue]

theorem initCount_run_le {rep : Representation V}
    (hcall : ∀ s, s.initCount ≤ (call s).2.initCount) (p : CellProg V σ) (s : WasmState V σ) :
    s.initCount ≤ (p.run (wasmHandler rep call) s).2.initCount := by
  refine CellProg.run_preserves (P := fun t : WasmState V σ => s.initCount ≤ t.initCount) ?_ ?_ ?_
    p (Nat.le_refl _)
  · intro t ht
    exact Nat.le_trans ht (initCount_read_le hcall t)
  · intro v t ht
    simpa [write_eq] using ht
  · intro f t ht
    exact ht

/-- Calling the initializer function counts at least one run. -/
theorem initCount_wasmInitializer_lt (code : CellProg V σ) (rep : Representation V) (depth : Nat)
    (s : WasmState V σ) : s.initCount < (wasmInitializer code rep depth s).2.initCount := by
  induction depth generalizing s with
  | zero =>
    exact Nat.lt_succ_self _
  | succ depth ih =>
    rw [wasmInitializer_succ, initCount_finishInitializer]
    exact initCount_run_le (fun t => Nat.le_of_lt (ih t)) code
      { s with initCount := s.initCount + 1 }

/-! ## The simulation -/

@[mk_iff agree_iff]
structure Agree (s : DartState V σ) (w : WasmState V σ) : Prop where
  own : s.own = w.own
  values : s.values = w.values
  initCount : s.initCount = w.initCount

/-- What the globals say about the field. With a flag, they say it as long as there has been no
read of a value written before the initializer had completed. -/
def Encodes (rep : Representation V) (s : DartState V σ) (w : WasmState V σ) : Prop :=
  match rep with
  | .constant _ => ∃ v, s.cell = some v ∧ w.global = some v
  | .nullMarker => w.global = s.cell
  | .flag => s.stale = false ∧
      ((w.flag = 0 ∧ s.completed = false ∧ ∀ v, s.cell = some v → w.global = some v) ∨
        (w.flag = 1 ∧ s.completed = true ∧ ∃ v, s.cell = some v ∧ w.global = some v))

def Related (rep : Representation V) (s : DartState V σ) (w : WasmState V σ) : Prop :=
  Agree s w ∧ Encodes rep s w

/-- The sides have parted: the emitted code has run the initializer once more than Dart, where it
will not run again. -/
def Parted (rep : Representation V) (s : DartState V σ) (w : WasmState V σ) : Prop :=
  rep = .flag ∧ s.stale = true ∧ (∃ v, s.cell = some v) ∧ s.initCount < w.initCount

/-- The emitted code agrees with Dart, or the sides have parted. -/
def Follows (rep : Representation V) (d : Option V × DartState V σ) (e : Option V × WasmState V σ) :
    Prop :=
  (d.1 = e.1 ∧ Related rep d.2 e.2) ∨ Parted rep d.2 e.2

section Simulation

variable (code : CellProg V σ) (rep : Representation V)

theorem parted_handlers (depth : Nat) (runInitializer : DartState V σ → Option V × DartState V σ) :
    CellProg.Parted (dartHandler runInitializer)
      (wasmHandler rep (wasmInitializer code rep depth)) (Parted rep) where
  read_left := by
    rintro s w ⟨hrep, hstale, ⟨v, hcell⟩, hcount⟩
    simp [dartHandler, dartRead, hcell, Parted, hrep, hstale, hcount]
  write_left := by
    rintro v s w ⟨hrep, hstale, -, hcount⟩
    exact ⟨hrep, hstale, ⟨v, rfl⟩, hcount⟩
  own_left := by
    rintro f s w ⟨hrep, hstale, hcell, hcount⟩
    exact ⟨hrep, hstale, hcell, hcount⟩
  read_right := by
    rintro s w ⟨hrep, hstale, hcell, hcount⟩
    refine ⟨hrep, hstale, hcell, Nat.lt_of_lt_of_le hcount ?_⟩
    exact initCount_read_le
      (fun t => Nat.le_of_lt (initCount_wasmInitializer_lt code rep depth t)) w
  write_right := by
    rintro v s w ⟨hrep, hstale, hcell, hcount⟩
    exact ⟨hrep, hstale, hcell, by simpa [write_eq] using hcount⟩
  own_right := by
    rintro f s w ⟨hrep, hstale, hcell, hcount⟩
    exact ⟨hrep, hstale, hcell, hcount⟩

def finishRead : Option V × DartState V σ → Option V × DartState V σ
  | (some v, s) => (some v, { s with cell := some v, values := s.values ++ [v], completed := true })
  | (none, s) => (none, s)

variable {runInitializer : DartState V σ → Option V × DartState V σ} {s : DartState V σ}

theorem dartRead_none (h : s.cell = none) :
    dartRead runInitializer s =
      finishRead (runInitializer { s with initCount := s.initCount + 1 }) := by
  rcases s with ⟨cell, own, values, initCount, completed, stale⟩
  have hnone : cell = none := h
  subst hnone
  simp only [dartRead]
  rcases runInitializer _ with ⟨_ | v, s'⟩ <;> rfl

variable {w : WasmState V σ}

/-- In a related state without value, the emitted read calls the initializer function. -/
theorem read_uninitialized (h : Related rep s w) (hcell : s.cell = none) :
    (wasmHandler rep call).read w = logValue (call w) := by
  cases rep with
  | constant value =>
    rcases h.2 with ⟨v, hv, -⟩
    rw [hcell] at hv
    cases hv
  | nullMarker =>
    exact read_nullMarker_none call w (h.2.trans hcell)
  | flag =>
    rcases h.2 with ⟨-, ⟨hflag, -, -⟩ | ⟨-, -, v, hv, -⟩⟩
    · exact read_flag_clear call w hflag
    · rw [hcell] at hv
      cases hv

/-- Storing the result of the initializer keeps related states related. -/
theorem finish_related {r : Option V} (h : Related rep s w) :
    (finishRead (r, s)).1 = (logValue (finishInitializer rep (r, w))).1 ∧
      Related rep (finishRead (r, s)).2 (logValue (finishInitializer rep (r, w))).2 := by
  rcases h with ⟨⟨hown, hvalues, hcount⟩, hencodes⟩
  cases r with
  | none =>
    exact ⟨rfl, ⟨hown, hvalues, hcount⟩, hencodes⟩
  | some v =>
    refine ⟨rfl, ?_, ?_⟩
    · cases rep <;>
        exact ⟨hown, by simp [finishRead, logValue, finishInitializer, storeInitialized, hvalues],
          hcount⟩
    · cases rep with
      | constant value => exact ⟨v, rfl, rfl⟩
      | nullMarker => exact rfl
      | flag => exact ⟨hencodes.1, .inr ⟨rfl, rfl, v, rfl, rfl⟩⟩

theorem finish_parted {r q : Option V} (h : Parted rep s w) :
    Parted rep (finishRead (r, s)).2 (logValue (finishInitializer rep (q, w))).2 := by
  rcases h with ⟨hrep, hstale, hcell, hcount⟩
  have hcount' : s.initCount < (logValue (finishInitializer rep (q, w))).2.initCount := by
    rw [initCount_logValue, initCount_finishInitializer]
    exact hcount
  cases r with
  | none => exact ⟨hrep, hstale, hcell, hcount'⟩
  | some v => exact ⟨hrep, hstale, ⟨v, rfl⟩, hcount'⟩

theorem Related.count (h : Related rep s w) :
    Related rep { s with initCount := s.initCount + 1 }
      { w with initCount := w.initCount + 1 } := by
  rcases h with ⟨⟨hown, hvalues, hcount⟩, hencodes⟩
  refine ⟨⟨hown, hvalues, congrArg Nat.succ hcount⟩, ?_⟩
  cases rep <;> exact hencodes

theorem read_initialized (depth : Nat) (h : Related rep s w) {v : V} (hcell : s.cell = some v) :
    Follows rep (dartRead runInitializer s)
      ((wasmHandler rep (wasmInitializer code rep depth)).read w) := by
  have hread : dartRead runInitializer s =
      (some v, { s with values := s.values ++ [v], stale := s.stale || !s.completed }) := by
    simp [dartRead, hcell]
  rw [hread]
  rcases h with ⟨⟨hown, hvalues, hcount⟩, hencodes⟩
  cases rep with
  | constant value =>
    rcases hencodes with ⟨u, hu, hglobal⟩
    have huv : u = v := Option.some.inj (hu.symm.trans hcell)
    subst huv
    rw [read_constant _ w value hglobal]
    exact .inl ⟨rfl, ⟨hown, by simp [logValue, hvalues], hcount⟩, u, hcell, hglobal⟩
  | nullMarker =>
    have hglobal : w.global = some v := hencodes.trans hcell
    rw [read_nullMarker_some _ w hglobal]
    exact .inl ⟨rfl, ⟨hown, by simp [logValue, hvalues], hcount⟩, hencodes⟩
  | flag =>
    rcases hencodes with ⟨hstale, ⟨hflag, hcompleted, -⟩ | ⟨hflag, hcompleted, u, hu, hglobal⟩⟩
    · -- The write has not set the flag, so the emitted code runs the initializer.
      rw [read_flag_clear _ w hflag]
      refine .inr ⟨rfl, by simp [hcompleted], ⟨v, hcell⟩, ?_⟩
      rw [initCount_logValue]
      exact hcount ▸ initCount_wasmInitializer_lt code .flag depth w
    · have huv : u = v := Option.some.inj (hu.symm.trans hcell)
      subst huv
      rw [read_flag_set _ w (by simp [hflag]) hglobal]
      refine .inl ⟨rfl, ⟨hown, by simp [logValue, hvalues], hcount⟩, ?_⟩
      exact ⟨by simp [hstale, hcompleted], .inr ⟨hflag, hcompleted, u, hcell, hglobal⟩⟩

theorem related_write (v : V) (h : Related rep s w) :
    Related rep ((dartHandler runInitializer).write v s) ((wasmHandler rep call).write v w) := by
  rcases h with ⟨⟨hown, hvalues, hcount⟩, hencodes⟩
  refine ⟨⟨hown, hvalues, hcount⟩, ?_⟩
  cases rep with
  | constant value => exact ⟨v, rfl, rfl⟩
  | nullMarker => exact rfl
  | flag =>
    rcases hencodes with ⟨hstale, ⟨hflag, hcompleted, -⟩ | ⟨hflag, hcompleted, -⟩⟩
    · exact ⟨hstale, .inl ⟨hflag, hcompleted, fun u hu => hu⟩⟩
    · exact ⟨hstale, .inr ⟨hflag, hcompleted, v, rfl, rfl⟩⟩

theorem related_own (f : σ → σ) (h : Related rep s w) :
    ((dartHandler runInitializer).own f s).1 = ((wasmHandler rep call).own f w).1 ∧
      Related rep ((dartHandler runInitializer).own f s).2 ((wasmHandler rep call).own f w).2 := by
  rcases h with ⟨⟨hown, hvalues, hcount⟩, hencodes⟩
  have hf : f s.own = f w.own := congrArg f hown
  refine ⟨hf, ⟨hf, hvalues, hcount⟩, ?_⟩
  cases rep <;> exact hencodes

/-- The simulation at one depth, given what evaluating the initializer does. -/
theorem simulates_of_initializer {depth : Nat} (hcall : ∀ s w, Related rep s w →
      ∃ e, wasmInitializer code rep depth w = finishInitializer rep e ∧
        Follows rep (dartInitializer code depth { s with initCount := s.initCount + 1 }) e) :
    CellProg.Simulates (dartHandler (dartInitializer code depth))
      (wasmHandler rep (wasmInitializer code rep depth)) (Related rep) (Parted rep) := by
  refine ⟨?_, fun v s w h => related_write rep v h, fun f s w h => related_own rep f h⟩
  intro s w h
  cases hcell : s.cell with
  | some v => exact read_initialized code rep depth h hcell
  | none =>
    obtain ⟨⟨q, w'⟩, hw, hfollows⟩ := hcall s w h
    show Follows rep (dartRead (dartInitializer code depth) s) _
    rw [dartRead_none hcell, read_uninitialized rep h hcell, hw]
    generalize dartInitializer code depth _ = d at hfollows ⊢
    obtain ⟨r, s'⟩ := d
    rcases hfollows with ⟨rfl, hrel⟩ | hpart
    · exact .inl (finish_related rep hrel)
    · exact .inr (finish_parted rep hpart)

/-- The emitted code simulates the Dart semantics, or the sides part. -/
theorem simulates (depth : Nat) :
    CellProg.Simulates (dartHandler (dartInitializer code depth))
      (wasmHandler rep (wasmInitializer code rep depth)) (Related rep) (Parted rep) := by
  -- Evaluating the initializer at one depth reads the field at the depth below.
  induction depth with
  | zero =>
    apply simulates_of_initializer
    intro s w h
    exact ⟨(none, _), rfl, .inl ⟨rfl, h.count⟩⟩
  | succ depth ih =>
    apply simulates_of_initializer
    intro s w h
    exact ⟨_, wasmInitializer_succ code rep depth w,
      CellProg.run_related ih (parted_handlers code rep depth _) code h.count⟩

end Simulation

theorem related_initial (f : Field V σ) (lazyConstants : Bool) (own : σ) :
    Related (f.representation lazyConstants) (dartInitial f lazyConstants own)
      (wasmInitial f (f.representation lazyConstants) own) := by
  cases hconst : getConstantInitializer lazyConstants f.initializer with
  | some constant =>
    have hrep : f.representation lazyConstants =
        .constant (f.instantiateConstant constant) := by
      simp [Field.representation, hconst]
    rw [hrep]
    simp [dartInitial, hconst, wasmInitial, Related, Encodes, agree_iff]
  | none =>
    have hrep : f.representation lazyConstants = .nullMarker ∨
        f.representation lazyConstants = .flag := by
      simp only [Field.representation, hconst]
      split
      · exact .inl rfl
      · exact .inr rfl
    rcases hrep with hrep | hrep <;> rw [hrep] <;>
      simp [dartInitial, hconst, wasmInitial, Related, Encodes, agree_iff]

/-- Run to run: the emitted code agrees with Dart or has run the initializer once more. -/
theorem run_related_or_parted (f : Field V σ) (lazyConstants : Bool) (depth : Nat)
    (client : CellProg V σ) (own : σ) :
    Follows (f.representation lazyConstants) (dartRun f lazyConstants depth client own)
      (wasmRun f lazyConstants depth client own) :=
  CellProg.run_related (simulates f.initializerCode _ depth)
    (parted_handlers f.initializerCode _ depth _) client (related_initial f lazyConstants own)

/-- For every field, initializer and program: the emitted code returns the result that Dart returns,
reads the same values and runs the initializer equally often, exactly if the field has no flag or
Dart reads no value that was written before the initializer had completed. -/
theorem wasmRun_agrees_iff (f : Field V σ) (lazyConstants : Bool) (depth : Nat)
    (client : CellProg V σ) (own : σ) :
    ((wasmRun f lazyConstants depth client own).1 = (dartRun f lazyConstants depth client own).1 ∧
      (wasmRun f lazyConstants depth client own).2.values =
        (dartRun f lazyConstants depth client own).2.values ∧
      (wasmRun f lazyConstants depth client own).2.initCount =
        (dartRun f lazyConstants depth client own).2.initCount) ↔
      (f.representation lazyConstants ≠ .flag ∨
        (dartRun f lazyConstants depth client own).2.stale = false) := by
  rcases run_related_or_parted f lazyConstants depth client own with
    ⟨hresult, hagree, hencodes⟩ | ⟨hflag, hstale, -, hcount⟩
  · refine ⟨fun _ => ?_, fun _ => ⟨hresult.symm, hagree.values.symm, hagree.initCount.symm⟩⟩
    by_cases hflag : f.representation lazyConstants = .flag
    · rw [hflag] at hencodes
      exact .inr hencodes.1
    · exact .inl hflag
  · constructor
    · intro h
      exact absurd h.2.2.symm (Nat.ne_of_lt hcount)
    · rintro (h | h)
      · exact absurd hflag h
      · rw [hstale] at h
        cases h

/-- An `int` field whose initializer is not a constant. -/
def counter : Field Int Unit where
  type := .num .i64
  initializer := some (.expression (.own id fun _ => .ret 1))
  instantiateConstant _ := 0
  dummy := 0

/-- Assign 5 to the field, then read it. -/
def writeThenRead : CellProg Int Unit := .write 5 (.read fun v => .ret v)

/-- The first read after an assignment discards the assigned value. -/
theorem writeThenRead_reinitializes :
    counter.representation false = .flag ∧
      (dartRun counter false 1 writeThenRead ()).1 = some 5 ∧
      (dartRun counter false 1 writeThenRead ()).2.initCount = 0 ∧
      (wasmRun counter false 1 writeThenRead ()).1 = some 1 ∧
      (wasmRun counter false 1 writeThenRead ()).2.initCount = 1 := by
  decide

end Dart2Wasm.Globals
