import Dart2Wasm.Lib.Pointwise
import Dart2Wasm.Lib.Run
import Dart2Wasm.ParamInfo

/-!
# CodeGenerator.Arguments — passing arguments

`_visitArguments` of `dart2wasm/lib/code_generator.dart` evaluates the arguments of a call and
leaves one operand for every parameter of the selector: the type arguments, the positional arguments
with the default values of those that are missing, and the named arguments, or default values, in
the order of the sorted names. Named arguments are evaluated into locals first, since their order in
the call may be another. The callee finds a parameter by its position or by the index of its name.

The types of the parameters are looked up in the signature behind an offset that the caller gives.
The offset of a redirecting initializer leaves out the type parameters of the class, so that there
every argument becomes a value of the type of another input.
-/

namespace Dart2Wasm.CodeGenerator

open Lib ParameterInfo List
open Option hiding map_map

variable {N κ τ ε ω V S : Type}
variable {vs : List V} {name : N} {d : Option κ}

/-- The arguments of a call: types, positional and named expressions. -/
structure Arguments (N τ ε : Type) where
  types : List τ
  positional : List ε
  named : List (N × ε)
  nodup : (named.map Prod.fst).Nodup

/-- What is evaluated for an argument: a type, or an expression as a value of a Wasm type. -/
inductive Operation (τ ε ω : Type)
  | makeType (type : τ)
  | wrap (expression : ε) (type : ω)
  deriving DecidableEq

inductive ArgInstr (κ τ ε ω : Type)
  | evaluate (operation : Operation τ ε ω)
  | constant (value : κ) (type : ω)
  | localSet (index : Nat)
  | localGet (index : Nat)
  deriving DecidableEq

/-! ## Emitted code -/

section Emit

variable [LinearOrder N]

/-- The positional arguments; the first one has the type at the given index of the signature. -/
def wrapPositional (signature : List ω) : Nat → List ε → Option (List (ArgInstr κ τ ε ω))
  | _, [] => some []
  | index, e :: es => do
    let type ← signature[index]?
    let rest ← wrapPositional signature (index + 1) es
    some (.evaluate (.wrap e type) :: rest)

/-- The default values of the positional parameters that are not passed. -/
def positionalDefaults (signature : List ω) :
    Nat → List (Option κ) → Option (List (ArgInstr κ τ ε ω))
  | _, [] => some []
  | index, d :: ds => do
    let type ← signature[index]?
    let value ← d
    let rest ← positionalDefaults signature (index + 1) ds
    some (.constant value type :: rest)

/-- The named arguments, each into a new local. -/
def wrapNamed (signature : List ω) (info : ParameterInfo N κ) (offset : Nat) :
    Nat → List (N × ε) → Option (List (ArgInstr κ τ ε ω))
  | _, [] => some []
  | namedLocal, (name, e) :: args => do
    let index ← info.nameIndex name
    let type ← signature[offset + index]?
    let rest ← wrapNamed signature info offset (namedLocal + 1) args
    some (.evaluate (.wrap e type) :: .localSet namedLocal :: rest)

/-- The operand for a named parameter: the local of its argument or its default value. -/
def loadNamed (signature : List ω) (info : ParameterInfo N κ) (offset firstLocal : Nat)
    (args : List (N × ε)) (name : N) : Option (ArgInstr κ τ ε ω) := do
  let index ← info.nameIndex name
  let type ← signature[offset + index]?
  if name ∈ args.map Prod.fst then
    some (.localGet (firstLocal + (args.map Prod.fst).idxOf name))
  else do
    let default ← info.named.get name
    let value ← default
    some (.constant value type)

/-- `_visitArguments`; the locals from `firstLocal` on are not in use. -/
def visitArguments (signature : List ω) (info : ParameterInfo N κ) (args : Arguments N τ ε)
    (signatureOffset firstLocal : Nat) : Option (List (ArgInstr κ τ ε ω)) := do
  let offset := signatureOffset + args.types.length
  let positional ← wrapPositional signature offset args.positional
  let defaults ← positionalDefaults signature (offset + args.positional.length)
    (info.positional.drop args.positional.length)
  let named ← wrapNamed signature info offset firstLocal args.named
  let loads ← info.names.mapM (loadNamed signature info offset firstLocal args.named)
  some (args.types.map (fun t => .evaluate (.makeType t)) ++ positional ++ defaults ++
    named ++ loads)

end Emit

/-! ## Execution -/

structure ArgMachine (κ τ ε ω V S : Type) where
  evaluate : Operation τ ε ω → S → Option (V × S)
  constant : κ → ω → V

structure ArgState (V S : Type) where
  stack : List V
  locals : Nat → V
  store : S

namespace ArgMachine

variable (M : ArgMachine κ τ ε ω V S)

def step : ArgInstr κ τ ε ω → ArgState V S → Option (ArgState V S)
  | .evaluate op, s =>
    (M.evaluate op s.store).map fun r => { s with stack := r.1 :: s.stack, store := r.2 }
  | .constant value type, s => some { s with stack := M.constant value type :: s.stack }
  | .localSet index, s =>
    match s.stack with
    | [] => none
    | v :: stack => some { s with stack := stack, locals := Function.update s.locals index v }
  | .localGet index, s => some { s with stack := s.locals index :: s.stack }

def exec : List (ArgInstr κ τ ε ω) → ArgState V S → Option (ArgState V S)
  | [], s => some s
  | i :: is, s => (M.step i s).bind (exec is)

theorem exec_append (is js : List (ArgInstr κ τ ε ω)) (s : ArgState V S) :
    M.exec (is ++ js) s = (M.exec is s).bind (M.exec js) := by
  induction is generalizing s with
  | nil => rfl
  | cons i is ih =>
    simp only [cons_append, exec]
    cases M.step i s with
    | none => rfl
    | some s' => exact ih s'

def evaluateAll : List (Operation τ ε ω) → S → Option (List V × S)
  | [], s => some ([], s)
  | op :: ops, s =>
    (M.evaluate op s).bind fun r => (evaluateAll ops r.2).map fun r' => (r.1 :: r'.1, r'.2)

theorem length_evaluateAll {ops : List (Operation τ ε ω)} {s s' : S}
    (h : M.evaluateAll ops s = some (vs, s')) : vs.length = ops.length := by
  induction ops generalizing s vs with
  | nil =>
    cases h
    rfl
  | cons op ops ih =>
    rcases bind_eq_some_iff.1 h with ⟨r, -, h⟩
    rcases map_eq_some_iff.1 h with ⟨r', hr', heq⟩
    cases heq
    simp [ih hr']

theorem evaluateAll_append (ops ops' : List (Operation τ ε ω)) (s : S) :
    M.evaluateAll (ops ++ ops') s =
      (M.evaluateAll ops s).bind fun r =>
        (M.evaluateAll ops' r.2).map fun r' => (r.1 ++ r'.1, r'.2) := by
  induction ops generalizing s with
  | nil =>
    cases h : M.evaluateAll ops' s with
    | none => simp [evaluateAll, h]
    | some r => simp [evaluateAll, h]
  | cons op ops ih =>
    simp only [cons_append, evaluateAll]
    cases M.evaluate op s with
    | none => rfl
    | some r =>
      simp only [bind_some, ih]
      cases M.evaluateAll ops r.2 with
      | none => rfl
      | some r' =>
        cases h : M.evaluateAll ops' r'.2 with
        | none => simp [h]
        | some r'' => simp [h]

theorem exec_evaluate (ops : List (Operation τ ε ω)) (s : ArgState V S) :
    M.exec (ops.map .evaluate) s =
      (M.evaluateAll ops s.store).map fun r =>
        { s with stack := r.1.reverse ++ s.stack, store := r.2 } := by
  induction ops generalizing s with
  | nil => rfl
  | cons op ops ih =>
    simp only [map_cons, exec, step, evaluateAll]
    cases M.evaluate op s.store with
    | none => rfl
    | some r =>
      simp only [map_some, bind_some, ih]
      cases M.evaluateAll ops r.2 with
      | none => rfl
      | some r' => simp

theorem exec_constants (cs : List (κ × ω)) (s : ArgState V S) :
    M.exec (cs.map fun c => .constant c.1 c.2) s =
      some { s with stack := (cs.map fun c => M.constant c.1 c.2).reverse ++ s.stack } := by
  induction cs generalizing s with
  | nil => rfl
  | cons c cs ih =>
    simp only [map_cons, exec, step, bind_some, ih]
    simp

/-- Operations whose values are kept in locals. -/
def storeInstrs : Nat → List (Operation τ ε ω) → List (ArgInstr κ τ ε ω)
  | _, [] => []
  | index, op :: ops => .evaluate op :: .localSet index :: storeInstrs (index + 1) ops

def setLocals (locals : Nat → V) : Nat → List V → Nat → V
  | _, [] => locals
  | index, v :: vs => setLocals (Function.update locals index v) (index + 1) vs

theorem setLocals_below (locals : Nat → V) {index : Nat} (vs : List V) {i : Nat} (h : i < index) :
    setLocals locals index vs i = locals i := by
  induction vs generalizing locals index with
  | nil => rfl
  | cons v vs ih =>
    rw [setLocals, ih _ (Nat.lt_succ_of_lt h), Function.update_of_ne (Nat.ne_of_lt h)]

theorem setLocals_at (locals : Nat → V) (index : Nat) {k : Nat} {v : V}
    (h : vs[k]? = some v) : setLocals locals index vs (index + k) = v := by
  induction vs generalizing locals index k with
  | nil => cases h
  | cons w vs ih =>
    cases k with
    | zero =>
      refine (setLocals_below _ vs (Nat.lt_succ_self index)).trans ?_
      rw [Function.update_self]
      exact some.inj h
    | succ k =>
      rw [setLocals, show index + (k + 1) = index + 1 + k by omega]
      exact ih _ _ h

theorem exec_storeInstrs (index : Nat) (ops : List (Operation τ ε ω)) (s : ArgState V S) :
    M.exec (storeInstrs index ops) s =
      (M.evaluateAll ops s.store).map fun r =>
        { s with locals := setLocals s.locals index r.1, store := r.2 } := by
  induction ops generalizing index s with
  | nil => rfl
  | cons op ops ih =>
    simp only [storeInstrs, exec, step, evaluateAll]
    cases M.evaluate op s.store with
    | none => rfl
    | some r =>
      simp only [map_some, bind_some, ih]
      cases M.evaluateAll ops r.2 with
      | none => rfl
      | some r' => rfl

theorem exec_pure (is : List (ArgInstr κ τ ε ω)) (vs : List V) (s : ArgState V S)
    (h : List.Forall₂ (fun i v => ∀ stack, M.step i { s with stack := stack } =
      some { s with stack := v :: stack }) is vs) :
    M.exec is s = some { s with stack := vs.reverse ++ s.stack } := by
  suffices hall : ∀ stack, M.exec is { s with stack := stack } =
      some { s with stack := vs.reverse ++ stack } from hall s.stack
  induction h with
  | nil => exact fun stack => rfl
  | cons hstep _ ih =>
    intro stack
    rw [exec, hstep stack, bind_some, ih]
    simp

end ArgMachine

/-! ## What is emitted -/

section Emitted

variable [LinearOrder N] {signature : List ω} {info : ParameterInfo N κ} {offset : Nat}

theorem wrapPositional_eq (signature : List ω) (index : Nat) (es : List ε)
    (h : index + es.length ≤ signature.length) :
    (wrapPositional signature index es : Option (List (ArgInstr κ τ ε ω))) =
      some ((es.zipWith .wrap (signature.drop index)).map .evaluate) := by
  induction es generalizing index with
  | nil => rfl
  | cons e es ih =>
    rw [length_cons] at h
    have hrest := ih (index + 1) (by omega)
    have htype : signature[index]? = some signature[index] := getElem?_eq_getElem (by omega)
    rw [drop_eq_getElem_cons (by omega : index < signature.length)]
    simp only [wrapPositional, htype, hrest, some_bind]
    rfl

theorem positionalDefaults_eq (signature : List ω) (index : Nat) (ds : List (Option κ))
    (h : index + ds.length ≤ signature.length) (hds : ∀ d ∈ ds, d ≠ none) :
    ∃ cs : List κ, cs.map some = ds ∧
      (positionalDefaults signature index ds : Option (List (ArgInstr κ τ ε ω))) =
        some ((cs.zip (signature.drop index)).map fun c => .constant c.1 c.2) := by
  induction ds generalizing index with
  | nil => exact ⟨[], rfl, rfl⟩
  | cons d ds ih =>
    rw [length_cons] at h
    obtain ⟨cs, hcs, hrest⟩ := ih (index + 1) (by omega)
      fun d hd => hds d (mem_cons_of_mem _ hd)
    obtain ⟨c, rfl⟩ := ne_none_iff_exists'.1 (hds d mem_cons_self)
    have htype : signature[index]? = some signature[index] := getElem?_eq_getElem (by omega)
    refine ⟨c :: cs, by simp [hcs], ?_⟩
    rw [drop_eq_getElem_cons (by omega : index < signature.length)]
    simp only [positionalDefaults, htype, hrest, some_bind]
    rfl

theorem names_length (info : ParameterInfo N κ) :
    info.names.length = info.named.entries.length := by
  rw [names, length_insertionSort, OrderedMap.keys, length_map]

theorem nameIndex_of_mem (h : name ∈ info.names) :
    ∃ j, info.nameIndex name = some (info.positional.length + j) ∧ info.names[j]? = some name ∧
      info.positional.length + j < info.paramCount := by
  have hj : info.names.idxOf name < info.names.length := idxOf_lt_length_iff.2 h
  refine ⟨info.names.idxOf name, by simp [nameIndex, h], ?_, ?_⟩
  · rw [getElem?_eq_getElem hj, getElem_idxOf hj]
  · have hlength := names_length info
    rw [paramCount]
    omega

theorem typeAt_of_mem (hsig : offset + info.paramCount ≤ signature.length) (h : name ∈ info.names) :
    ∃ j type, info.nameIndex name = some j ∧ signature[offset + j]? = some type := by
  obtain ⟨j, hj, -, hlt⟩ := nameIndex_of_mem h
  exact ⟨_, _, hj, getElem?_eq_getElem (by omega)⟩

theorem wrapNamed_eq (hsig : offset + info.paramCount ≤ signature.length) (index : Nat)
    (args : List (N × ε)) (h : ∀ name ∈ args.map Prod.fst, name ∈ info.names) :
    ∃ ts : List ω, ts.map some =
        args.map (fun a => (info.nameIndex a.1).bind fun j => signature[offset + j]?) ∧
      (wrapNamed signature info offset index args : Option (List (ArgInstr κ τ ε ω))) =
        some (ArgMachine.storeInstrs index ((args.map Prod.snd).zipWith .wrap ts)) := by
  induction args generalizing index with
  | nil => exact ⟨[], rfl, rfl⟩
  | cons a args ih =>
    rcases a with ⟨name, e⟩
    obtain ⟨ts, hts, hrest⟩ := ih (index + 1)
      fun name' hname' => h name' (mem_cons_of_mem _ hname')
    obtain ⟨j, type, hj, htype⟩ := typeAt_of_mem hsig (h name (by simp))
    refine ⟨type :: ts, by simp [hts, hj, htype], ?_⟩
    simp [wrapNamed, hj, htype, hrest, ArgMachine.storeInstrs]

/-- The value of a named parameter, from the values of the named arguments. -/
def namedValue (M : ArgMachine κ τ ε ω V S) (signature : List ω) (info : ParameterInfo N κ)
    (offset : Nat) (args : List (N × ε)) (values : List V) (name : N) : Option V :=
  if name ∈ args.map Prod.fst then values[(args.map Prod.fst).idxOf name]?
  else do
    let j ← info.nameIndex name
    let type ← signature[offset + j]?
    let default ← info.named.get name
    let value ← default
    some (M.constant value type)

theorem loadNamed_eq (hsig : offset + info.paramCount ≤ signature.length) (firstLocal : Nat)
    (args : List (N × ε)) (hname : name ∈ info.names)
    (hdefault : name ∉ args.map Prod.fst → ∃ c, info.named.get name = some (some c)) :
    ∃ i : ArgInstr κ τ ε ω, loadNamed signature info offset firstLocal args name = some i ∧
      ∀ (V S : Type) (M : ArgMachine κ τ ε ω V S) locals (values : List V),
        values.length = args.length →
        ∃ v, namedValue M signature info offset args values name = some v ∧
          ∀ stack (store : S),
            M.step i ⟨stack, ArgMachine.setLocals locals firstLocal values, store⟩ =
              some ⟨v :: stack, ArgMachine.setLocals locals firstLocal values, store⟩ := by
  obtain ⟨j, type, hj, htype⟩ := typeAt_of_mem hsig hname
  by_cases hmem : name ∈ args.map Prod.fst
  · refine ⟨.localGet (firstLocal + (args.map Prod.fst).idxOf name),
      by simp only [loadNamed, hj, htype, some_bind, if_pos hmem],
      fun V S M locals values hlength => ?_⟩
    have hidx : (args.map Prod.fst).idxOf name < values.length := by
      rw [hlength, ← length_map (f := Prod.fst)]
      exact idxOf_lt_length_iff.2 hmem
    have hget := getElem?_eq_getElem hidx
    refine ⟨_, by rw [namedValue, if_pos hmem, hget], fun stack store => ?_⟩
    simp only [ArgMachine.step, ArgMachine.setLocals_at locals firstLocal hget]
  · obtain ⟨c, hc⟩ := hdefault hmem
    refine ⟨.constant c type, by
      simp only [loadNamed, hj, htype, hc, some_bind, if_neg hmem],
      fun V S M locals values _ => ⟨M.constant c type, ?_, fun _ _ => rfl⟩⟩
    simp only [namedValue, hj, htype, hc, some_bind, if_neg hmem]

end Emitted

/-! ## Calls -/

/-- The callers of `_visitArguments`, by what they push first: nothing; the receiver or new object;
or the object under construction and types for the class or its superclass. -/
inductive Caller
  | staticInvocation
  | invocation
  | redirectingInitializer (typeParameters : Nat)
  | superInitializer (typeArguments : Nat)
  deriving DecidableEq

namespace Caller

def hasThis : Caller → Bool
  | .staticInvocation => false
  | _ => true

def pushedTypes : Caller → Nat
  | .redirectingInitializer typeParameters => typeParameters
  | .superInitializer typeArguments => typeArguments
  | _ => 0

def signatureOffset : Caller → Nat
  | .staticInvocation => 0
  | .invocation => 1
  | .redirectingInitializer _ => 1
  | .superInitializer typeArguments => 1 + typeArguments

end Caller

section Calls

variable [LinearOrder N]

/-- A call that supplies no more than the parameters of the selector, and all of those without a
default value. -/
structure ValidCall (caller : Caller) (signature : List ω) (info : ParameterInfo N κ)
    (args : Arguments N τ ε) : Prop where
  types : caller.pushedTypes + args.types.length = info.typeParamCount
  positional : args.positional.length ≤ info.positional.length
  named : ∀ name ∈ args.named.map Prod.fst, name ∈ info.names
  positionalDefault : ∀ i, args.positional.length ≤ i → i < info.positional.length →
    ∃ c, info.positional[i]? = some (some c)
  namedDefault : ∀ name ∈ info.names, name ∉ args.named.map Prod.fst →
    ∃ c, info.named.get name = some (some c)
  signature : signature.length = caller.hasThis.toNat + info.typeParamCount + info.paramCount

/-- The supplied arguments in source order, each as a value of the type of its parameter. -/
def Arguments.operations (signature : List ω) (args : Arguments N τ ε) (offset : Nat)
    (namedTypes : List ω) : List (Operation τ ε ω) :=
  args.types.map .makeType ++ args.positional.zipWith .wrap (signature.drop offset) ++
    (args.named.map Prod.snd).zipWith .wrap namedTypes

/-- The operands of the call in the order of the parameters, from the values of the arguments. -/
structure Passed (M : ArgMachine κ τ ε ω V S) (signature : List ω) (info : ParameterInfo N κ)
    (args : Arguments N τ ε) (offset : Nat) (values params : List V) : Prop where
  length : params.length = args.types.length + info.paramCount
  positional : ∀ i, i < args.positional.length →
    params[args.types.length + i]? = values[args.types.length + i]?
  positionalDefault : ∀ i c, args.positional.length ≤ i → info.positional[i]? = some (some c) →
    params[args.types.length + i]? = (signature[offset + i]?).map (M.constant c)
  named : ∀ name j, info.nameIndex name = some j →
    params[args.types.length + j]? = namedValue M signature info offset args.named
      (values.drop (args.types.length + args.positional.length)) name

omit [LinearOrder N] in
theorem forall₂_choose {α β V : Type} {P : α → V → Prop} {Q : β → V → Prop} {as : List α}
    {bs : List β} (h : List.Forall₂ (fun a b => ∃ v, P a v ∧ Q b v) as bs) :
    ∃ vs, List.Forall₂ P as vs ∧ List.Forall₂ Q bs vs := by
  induction h with
  | nil => exact ⟨[], .nil, .nil⟩
  | cons hab _ ih =>
    obtain ⟨v, hP, hQ⟩ := hab
    obtain ⟨vs, hPs, hQs⟩ := ih
    exact ⟨v :: vs, .cons hP hPs, .cons hQ hQs⟩

variable {caller : Caller} {signature : List ω} {info : ParameterInfo N κ} {args : Arguments N τ ε}
  {offset : Nat}

theorem ValidCall.passed (M : ArgMachine κ τ ε ω V S) (h : ValidCall caller signature info args)
    (hsig : offset + info.paramCount ≤ signature.length) {ws loads : List V} {cs : List κ}
    (hvs : vs.length = args.types.length + args.positional.length)
    (hcs : cs.map some = info.positional.drop args.positional.length)
    (hloads : List.Forall₂ (fun name v => namedValue M signature info offset args.named ws name
      = some v) info.names loads) :
    Passed M signature info args offset (vs ++ ws)
      (vs ++ (cs.zip (signature.drop (offset + args.positional.length))).map
        (fun c => M.constant c.1 c.2) ++ loads) := by
  have hcsLength : cs.length = info.positional.length - args.positional.length := by
    have hlength := congrArg length hcs
    rwa [length_map, length_drop] at hlength
  have hnames := names_length info
  rw [paramCount] at hsig
  have hpos := h.positional
  have hzip : (cs.zip (signature.drop (offset + args.positional.length))).length = cs.length := by
    rw [length_zip, length_drop]
    omega
  refine ⟨?_, fun i hi => ?_, fun i c hi hc => ?_, fun name j hj => ?_⟩
  · rw [length_append, length_append, length_map, hzip, ← hloads.length_eq, paramCount]
    omega
  · rw [append_assoc, getElem?_append_left (by omega), getElem?_append_left (by omega)]
  · have hilt : i < info.positional.length := (List.getElem?_eq_some_iff.1 hc).1
    have hk : args.types.length + i - vs.length = i - args.positional.length := by omega
    have hcsi : cs[i - args.positional.length]? = some c := by
      have hmap := congrArg (fun l => l[i - args.positional.length]?) hcs
      simp only [getElem?_map, getElem?_drop] at hmap
      rw [show args.positional.length + (i - args.positional.length) = i by omega, hc] at hmap
      simpa using hmap
    have htype : signature[offset + i]? = some signature[offset + i] :=
      getElem?_eq_getElem (by omega)
    have hdrop : (signature.drop (offset + args.positional.length))[i - args.positional.length]? =
        some signature[offset + i] := by
      rw [getElem?_drop, ← htype]
      congr 1
      omega
    rw [append_assoc, getElem?_append_right (by omega), hk,
      getElem?_append_left (by rw [length_map, hzip]; omega), getElem?_map,
      (getElem?_zip_eq_some (z := (c, _))).2 ⟨hcsi, hdrop⟩, htype]
    rfl
  · have hmem : name ∈ info.names := by
      by_contra hout
      rw [nameIndex, if_neg hout] at hj
      cases hj
    obtain ⟨k, hk, hnamek, hlt⟩ := nameIndex_of_mem hmem
    cases hk.symm.trans hj
    have hvalues : (vs ++ ws).drop (args.types.length + args.positional.length) = ws := by
      rw [← hvs, drop_left]
    obtain ⟨v, hget, hvalue⟩ := forall₂_getElem? hloads.flip hnamek
    rw [hvalues, hvalue, ← hget, getElem?_append_right]
    · congr 1
      rw [length_append, length_map, hzip]
      omega
    · rw [length_append, length_map, hzip]
      omega

/-- The types at an offset of the signature for the named arguments. -/
def NamedTypes (signature : List ω) (info : ParameterInfo N κ) (args : Arguments N τ ε)
    (offset : Nat) (namedTypes : List ω) : Prop :=
  namedTypes.map some =
    args.named.map fun a => (info.nameIndex a.1).bind fun j => signature[offset + j]?

/-- The code for the arguments evaluates the supplied ones once in source order and leaves an
operand for every parameter. -/
theorem visitArguments_exec (h : ValidCall caller signature info args) {signatureOffset : Nat}
    (hoffset : offset = signatureOffset + args.types.length)
    (hsig : offset + info.paramCount ≤ signature.length) (firstLocal : Nat) :
    ∃ code namedTypes,
      visitArguments signature info args signatureOffset firstLocal = some code ∧
      NamedTypes signature info args offset namedTypes ∧
      ∀ (V S : Type) (M : ArgMachine κ τ ε ω V S) (s : ArgState V S),
        match M.evaluateAll (args.operations signature offset namedTypes) s.store with
        | none => M.exec code s = none
        | some (values, store) =>
          ∃ locals params, M.exec code s = some ⟨params.reverse ++ s.stack, locals, store⟩ ∧
            Passed M signature info args offset values params := by
  have hcount : info.positional.length ≤ info.paramCount := Nat.le_add_right _ _
  have hpos := h.positional
  have hds : ∀ d ∈ info.positional.drop args.positional.length, d ≠ none := by
    intro d hd
    obtain ⟨i, hi⟩ := mem_iff_getElem?.1 hd
    rw [getElem?_drop] at hi
    have hlt : args.positional.length + i < info.positional.length :=
      (List.getElem?_eq_some_iff.1 hi).1
    obtain ⟨c, hc⟩ := h.positionalDefault (args.positional.length + i) (by omega) hlt
    rw [hc] at hi
    cases hi
    exact some_ne_none c
  obtain ⟨cs, hcs, hdefaults⟩ := positionalDefaults_eq signature (offset + args.positional.length)
    (info.positional.drop args.positional.length) (by rw [length_drop]; omega) hds
  obtain ⟨namedTypes, hnamedTypes, hnamed⟩ := wrapNamed_eq hsig firstLocal args.named h.named
  obtain ⟨loads, hloads, hall⟩ := exists_mapM fun name hname =>
    loadNamed_eq hsig firstLocal args.named hname (h.namedDefault name hname)
  let opsTP : List (Operation τ ε ω) := args.types.map .makeType ++
    args.positional.zipWith .wrap (signature.drop offset)
  let opsN : List (Operation τ ε ω) := (args.named.map Prod.snd).zipWith .wrap namedTypes
  let consts := cs.zip (signature.drop (offset + args.positional.length))
  refine ⟨opsTP.map .evaluate ++ consts.map (fun c => .constant c.1 c.2) ++
    ArgMachine.storeInstrs firstLocal opsN ++ loads, namedTypes, ?_, hnamedTypes,
    fun V S M s => ?_⟩
  · rw [visitArguments, ← hoffset, wrapPositional_eq signature offset args.positional (by omega),
      hdefaults, hnamed, hloads]
    simp only [some_bind, opsTP, opsN, consts, map_append, map_map]
    rfl
  · rw [Arguments.operations, M.evaluateAll_append, M.exec_append, M.exec_append, M.exec_append,
      M.exec_evaluate]
    cases hTP : M.evaluateAll opsTP s.store with
    | none => rfl
    | some r =>
      rcases r with ⟨vs, s₁⟩
      simp only [map_some, bind_some, M.exec_constants, M.exec_storeInstrs]
      cases hN : M.evaluateAll opsN s₁ with
      | none => rfl
      | some r =>
        rcases r with ⟨ws, s₂⟩
        have hopsTP : opsTP.length = args.types.length + args.positional.length := by
          simp only [opsTP, length_append, length_map, length_zipWith, length_drop]
          omega
        have hopsN : opsN.length = args.named.length := by
          have hlength := congrArg length hnamedTypes
          rw [length_map, length_map] at hlength
          simp [opsN, hlength]
        have hws : ws.length = args.named.length := (M.length_evaluateAll hN).trans hopsN
        obtain ⟨lv, hvalues, hsteps⟩ := forall₂_choose
          (hall.imp fun name i hi => hi V S M s.locals ws hws)
        refine ⟨ArgMachine.setLocals s.locals firstLocal ws, _, ?_,
          h.passed M hsig ((M.length_evaluateAll hTP).trans hopsTP) hcs hvalues⟩
        simp only [map_some, bind_some]
        rw [M.exec_pure loads lv _ (hsteps.imp fun i v hstep stack => hstep stack s₂)]
        simp [consts]

end Calls

/-! ## Callees -/

section Callees

variable [LinearOrder N]

/-- The index of a parameter among the locals of a function body, as `generate` assigns them. -/
def paramLocal (info : ParameterInfo N κ) (hasThis : Bool) : Nat ⊕ N → Option Nat
  | .inl i => some (hasThis.toNat + info.typeParamCount + i)
  | .inr name => (info.nameIndex name).map (hasThis.toNat + info.typeParamCount + ·)

/-- The type of a named parameter: `nameTypes[name]!`. -/
def nameType (node : FunctionNode N κ τ) (name : N) : Option τ :=
  (node.namedParameters.find? (·.name = name)).map Parameter.type

/-- The inputs of `_makeFunctionType` for a static function or a constructor. -/
def makeFunctionType (translateType : τ → ω) (typeType : ω) (receiver : Option ω)
    (node : FunctionNode N κ τ) : Option (List ω) := do
  let named ← ((node.namedParameters.map Parameter.name).insertionSort (· ≤ ·)).mapM (nameType node)
  some (receiver.toList ++ List.replicate node.typeParameters typeType ++
    (node.positionalParameters.map Parameter.type ++ named).map translateType)

/-- What a parameter of the callee receives: the argument of its position or name, or the default
value of the group. -/
def Receives (M : ArgMachine κ τ ε ω V S) (signature : List ω) (info : ParameterInfo N κ)
    (args : Arguments N τ ε) (offset : Nat) (values : List V) (v : Option V) : Nat ⊕ N → Prop
  | .inl i =>
    if i < args.positional.length then v = values[args.types.length + i]?
    else ∃ c, info.positional[i]? = some (some c) ∧ v = (signature[offset + i]?).map (M.constant c)
  | .inr name =>
    if name ∈ args.named.map Prod.fst then
      v = values[args.types.length + args.positional.length + (args.named.map Prod.fst).idxOf name]?
    else ∃ c j, info.named.get name = some (some c) ∧ info.nameIndex name = some j ∧
      v = (signature[offset + j]?).map (M.constant c)

/-- The receiver and the types below the arguments stay where they are; the supplied arguments are
evaluated once in source order, at the types of the inputs from `offset`; there is one operand for
every parameter, which finds in its local the argument of its position or name, or the default. -/
def Routed (caller : Caller) (signature : List ω) (info : ParameterInfo N κ)
    (args : Arguments N τ ε) (offset : Nat) (code : List (ArgInstr κ τ ε ω)) : Prop :=
  ∃ namedTypes, NamedTypes signature info args offset namedTypes ∧
    ∀ (V S : Type) (M : ArgMachine κ τ ε ω V S) (receiver : Option V) (types stack : List V)
      (locals : Nat → V) (s : S),
      receiver.isSome = caller.hasThis → types.length = caller.pushedTypes →
      match M.evaluateAll (args.operations signature offset namedTypes) s with
      | none => M.exec code ⟨(receiver.toList ++ types).reverse ++ stack, locals, s⟩ = none
      | some (values, s') =>
        ∃ (locals' : Nat → V) (params : List V),
          M.exec code ⟨(receiver.toList ++ types).reverse ++ stack, locals, s⟩ =
            some ⟨(receiver.toList ++ types ++ params).reverse ++ stack, locals', s'⟩ ∧
          params.length = args.types.length + info.paramCount ∧
          ∀ p d, info.cell p = some d → ∃ k, paramLocal info caller.hasThis p = some k ∧
            Receives M signature info args offset values
              (receiver.toList ++ types ++ params)[k]? p

variable {caller : Caller} {signature : List ω} {info : ParameterInfo N κ} {args : Arguments N τ ε}
  {offset : Nat} {M : ArgMachine κ τ ε ω V S} {values params : List V} {p : Nat ⊕ N}

def paramIndex (info : ParameterInfo N κ) : Nat ⊕ N → Option Nat
  | .inl i => some i
  | .inr name => info.nameIndex name

theorem paramLocal_eq (info : ParameterInfo N κ) (hasThis : Bool) (p : Nat ⊕ N) :
    paramLocal info hasThis p =
      (paramIndex info p).map (hasThis.toNat + info.typeParamCount + ·) := by
  cases p <;> rfl

section

variable (h : ValidCall caller signature info args)
include h

theorem Passed.receives
    (hp : Passed M signature info args offset values params) (hcell : info.cell p = some d) :
    ∃ i, paramIndex info p = some i ∧
      Receives M signature info args offset values params[args.types.length + i]? p := by
  cases p with
  | inl i =>
    have hi : i < info.positional.length := (List.getElem?_eq_some_iff.1 hcell).1
    refine ⟨i, rfl, ?_⟩
    rw [Receives]
    by_cases hsupplied : i < args.positional.length
    · rw [if_pos hsupplied]
      exact hp.positional i hsupplied
    · rw [if_neg hsupplied]
      obtain ⟨c, hc⟩ := h.positionalDefault i (by omega) hi
      exact ⟨c, hc, hp.positionalDefault i c (by omega) hc⟩
  | inr name =>
    have hname : name ∈ info.names := mem_names.2 ⟨d, hcell⟩
    obtain ⟨j, hj, -, hlt⟩ := nameIndex_of_mem hname
    refine ⟨_, hj, ?_⟩
    rw [hp.named name _ hj, Receives, namedValue]
    by_cases hsupplied : name ∈ args.named.map Prod.fst
    · rw [if_pos hsupplied, if_pos hsupplied, getElem?_drop]
    · rw [if_neg hsupplied, if_neg hsupplied]
      obtain ⟨c, hc⟩ := h.namedDefault name hname hsupplied
      refine ⟨c, _, hc, hj, ?_⟩
      simp only [hj, hc, some_bind]
      cases signature[offset + (info.positional.length + j)]? <;> rfl

/-- Callers other than redirecting initializers of generic classes count the types they push. -/
theorem ValidCall.offset_eq_iff :
    caller.signatureOffset + args.types.length = caller.hasThis.toNat + info.typeParamCount ↔
      ∀ n, caller ≠ .redirectingInitializer (n + 1) := by
  rw [← h.types]
  rcases caller with _ | _ | (_ | n) | n <;>
    simp [Caller.signatureOffset, Caller.pushedTypes, Caller.hasThis, Nat.add_assoc]
  omega

theorem visitArguments_routed (firstLocal : Nat) :
    ∃ code, visitArguments signature info args caller.signatureOffset firstLocal = some code ∧
      Routed caller signature info args (caller.signatureOffset + args.types.length) code := by
  have hoffset : caller.signatureOffset + args.types.length + info.paramCount ≤
      signature.length := by
    rw [h.signature, ← h.types]
    cases caller <;> simp only [Caller.signatureOffset, Caller.pushedTypes, Caller.hasThis,
      Bool.toNat_true, Bool.toNat_false] <;> omega
  obtain ⟨code, namedTypes, hcode, hnamed, hexec⟩ :=
    visitArguments_exec h rfl hoffset firstLocal
  refine ⟨code, hcode, namedTypes, hnamed,
    fun V S M receiver types stack locals s hthis hlength => ?_⟩
  have hrun := hexec V S M ⟨(receiver.toList ++ types).reverse ++ stack, locals, s⟩
  cases hvalues : M.evaluateAll (args.operations signature
      (caller.signatureOffset + args.types.length) namedTypes) s with
  | none =>
    simp only [hvalues] at hrun
    exact hrun
  | some r =>
    simp only [hvalues] at hrun
    obtain ⟨locals', params, hparams, hpassed⟩ := hrun
    refine ⟨locals', params, by rw [hparams]; simp, hpassed.length, fun p d hcell => ?_⟩
    obtain ⟨i, hi, hreceives⟩ := hpassed.receives h hcell
    refine ⟨caller.hasThis.toNat + info.typeParamCount + i, by rw [paramLocal_eq, hi]; rfl, ?_⟩
    -- the local of a parameter holds the operand of its index
    have hreceiver : receiver.toList.length = caller.hasThis.toNat := by
      rw [← hthis]
      cases receiver <;> rfl
    have htypes := h.types
    rw [getElem?_append_right (by rw [length_append]; omega)]
    convert hreceives using 2
    rw [length_append]
    omega

end

/-- A parameter of a member is a parameter of the group, with the member's default value if it has
one. -/
theorem cell_of_member {first : ParameterInfo N κ} {others : List (ParameterInfo N κ)}
    (hgroup : ParameterInfo.Group (first :: others)) {own : ParameterInfo N κ}
    (hown : own ∈ first :: others) {p : Nat ⊕ N} (hd : own.cell p = some d) :
    ∃ d', (mergeAll first others).cell p = some d' ∧ ∀ c, d = some c → d' = some c := by
  have hmerged := merged_mergeAll hgroup p
  have hmem : some d ∈ (first :: others).map fun m => m.cell p := mem_map.2 ⟨own, hown, hd⟩
  cases hcell : (mergeAll first others).cell p with
  | none =>
    rw [hcell] at hmerged
    have hnone := hmerged.missing.1 rfl _ hmem
    cases hnone
  | some d' =>
    refine ⟨d', rfl, fun c hc => ?_⟩
    subst hc
    rw [hcell] at hmerged
    exact some.inj ((hmerged.value c).2 hmem)

theorem nameType_of_mem (node : FunctionNode N κ τ) :
    ∀ param ∈ node.namedParameters, nameType node param.name = some param.type := by
  intro param hparam
  have hnodup := node.nodup
  rw [nameType]
  revert hparam hnodup
  induction node.namedParameters with
  | nil => exact fun h => absurd h not_mem_nil
  | cons q params ih =>
    intro hparam hnodup
    rcases nodup_cons.1 hnodup with ⟨hout, htail⟩
    rcases mem_cons.1 hparam with rfl | hparam
    · simp
    · have hne : q.name ≠ param.name := fun heq => hout (heq ▸ mem_map_of_mem hparam)
      rw [find?_cons_of_neg (by simpa using hne)]
      exact ih hparam htail

/-- The inputs of a static function are in the order in which its parameters are passed. -/
theorem makeFunctionType_eq (translateType : τ → ω) (typeType : ω) (receiver : Option ω)
    (node : FunctionNode N κ τ) :
    ∃ inputs, makeFunctionType translateType typeType receiver node = some inputs ∧
      (∀ i param, node.positionalParameters[i]? = some param →
        ((paramLocal (ParameterInfo.fromMember (.function node)) receiver.isSome (.inl i)).bind
          (inputs[·]?)) = some (translateType param.type)) ∧
      ∀ param ∈ node.namedParameters,
        ((paramLocal (ParameterInfo.fromMember (.function node)) receiver.isSome
          (.inr param.name)).bind (inputs[·]?)) = some (translateType param.type) := by
  have htype := nameType_of_mem node
  let names := (node.namedParameters.map Parameter.name).insertionSort (· ≤ ·)
  have hnames : (ParameterInfo.fromMember (.function node)).names = names := by
    simp only [ParameterInfo.names, OrderedMap.keys, ParameterInfo.fromMember,
      ParameterInfo.namedDefaults, map_map, Function.comp_def, names]
  have hlength : (ParameterInfo.fromMember (.function node)).positional.length =
      node.positionalParameters.length := length_mapIdx
  obtain ⟨named, hnamed, hall⟩ := exists_mapM (f := nameType node)
    (R := fun name t => nameType node name = some t) fun name (hname : name ∈ names) => by
      obtain ⟨param, hparam, rfl⟩ := mem_map.1 ((perm_insertionSort _ _).mem_iff.1 hname)
      exact ⟨_, htype param hparam, htype param hparam⟩
  have hget : ∀ (l : List ω) (k : Nat), (receiver.toList ++ replicate node.typeParameters
      typeType ++ l)[receiver.isSome.toNat + node.typeParameters + k]? = l[k]? := by
    intro l k
    have hthis : receiver.toList.length = receiver.isSome.toNat := by cases receiver <;> rfl
    rw [getElem?_append_right (by rw [length_append, length_replicate]; omega)]
    congr 1
    rw [length_append, length_replicate]
    omega
  refine ⟨receiver.toList ++ replicate node.typeParameters typeType ++
    (node.positionalParameters.map Parameter.type ++ named).map translateType, ?_, ?_, ?_⟩
  · rw [makeFunctionType, hnamed]
    rfl
  · intro i param hi
    have hlt := (List.getElem?_eq_some_iff.1 hi).1
    show (receiver.toList ++ _ ++ _)[receiver.isSome.toNat + node.typeParameters + i]? = _
    rw [hget, getElem?_map, getElem?_append_left (by rw [length_map]; exact hlt), getElem?_map, hi]
    rfl
  · intro param hparam
    have hmem : param.name ∈ (ParameterInfo.fromMember (.function node)).names := by
      rw [hnames, (perm_insertionSort _ _).mem_iff]
      exact mem_map_of_mem hparam
    obtain ⟨j, hj, hnamej, -⟩ := nameIndex_of_mem hmem
    rw [hnames] at hnamej
    obtain ⟨type, hget', hvalue⟩ := forall₂_getElem? hall.flip hnamej
    obtain rfl : param.type = type := some.inj ((htype param hparam).symm.trans hvalue)
    rw [paramLocal, hj, hlength]
    show (receiver.toList ++ _ ++ _)[receiver.isSome.toNat + node.typeParameters +
      (node.positionalParameters.length + j)]? = _
    rw [hget, getElem?_map, getElem?_append_right (by rw [length_map]; omega),
      length_map, Nat.add_sub_cancel_left, hget']
    rfl

/-- Argument passing. The parameters of an override group whose members agree on their default
values do not depend on the order of merging, and have the parameters and default values of every
member; a call is routed at the caller's offset, which gives parameters their own inputs exactly if
there are none or the caller is not the redirecting initializer of a generic class; the inputs of a
static function have the types of the parameters. -/
theorem arguments_routed (first : ParameterInfo N κ) (others : List (ParameterInfo N κ))
    (hgroup : ParameterInfo.Group (first :: others)) :
    ((∀ first' others', (first :: others).Perm (first' :: others') →
      let info := ParameterInfo.mergeAll first others
      let info' := ParameterInfo.mergeAll first' others'
      ParameterInfo.mergeAsserts first' others' ∧
        info.typeParamCount = info'.typeParamCount ∧ info.positional = info'.positional ∧
        (∀ name, info.named.get name = info'.named.get name) ∧ info.names = info'.names ∧
        ∀ name, info.nameIndex name = info'.nameIndex name) ∧
      ∀ own ∈ first :: others, ∀ p d, own.cell p = some d →
        ∃ d', (ParameterInfo.mergeAll first others).cell p = some d' ∧
          ∀ c, d = some c → d' = some c) ∧
    (∀ (τ ε ω : Type) (caller : Caller) (signature : List ω) (args : Arguments N τ ε)
      (firstLocal : Nat),
      let info := ParameterInfo.mergeAll first others
      ValidCall caller signature info args →
      ∃ code, visitArguments signature info args caller.signatureOffset firstLocal = some code ∧
        Routed caller signature info args (caller.signatureOffset + args.types.length) code ∧
        ((∀ i < info.paramCount, caller.signatureOffset + args.types.length + i =
            caller.hasThis.toNat + info.typeParamCount + i) ↔
          info.paramCount = 0 ∨ ∀ n, caller ≠ .redirectingInitializer (n + 1))) ∧
    ∀ (τ ω : Type) (translateType : τ → ω) (typeType : ω) (receiver : Option ω)
      (node : FunctionNode N κ τ),
      ∃ inputs, makeFunctionType translateType typeType receiver node = some inputs ∧
        (∀ i param, node.positionalParameters[i]? = some param →
          ((paramLocal (fromMember (.function node)) receiver.isSome (.inl i)).bind
            (inputs[·]?)) = some (translateType param.type)) ∧
        ∀ param ∈ node.namedParameters,
          ((paramLocal (fromMember (.function node)) receiver.isSome
            (.inr param.name)).bind (inputs[·]?)) = some (translateType param.type) := by
  refine ⟨⟨fun first' others' hperm => ⟨mergeAsserts_of_group (hgroup.perm hperm),
    mergeAll_perm hgroup hperm⟩, fun own hown p d => cell_of_member hgroup hown⟩, ?_,
    fun τ ω translateType typeType receiver node =>
      makeFunctionType_eq translateType typeType receiver node⟩
  intro τ ε ω caller signature args firstLocal info hvalid
  obtain ⟨code, hcode, hrouted⟩ := visitArguments_routed hvalid firstLocal
  refine ⟨code, hcode, hrouted, ?_⟩
  rw [← hvalid.offset_eq_iff]
  refine ⟨fun h => (Nat.eq_zero_or_pos _).imp_right fun hpos => h 0 hpos, ?_⟩
  rintro (h | h) i hi
  · omega
  · rw [h]

/-- A method with one parameter, and an override with an optional one and a named one. -/
def sampleMethod : ParameterInfo Nat Nat := ⟨0, [none], .empty⟩

def sampleOverride : ParameterInfo Nat Nat := ⟨0, [none, some 3], OrderedMap.empty.set 5 (some 7)⟩

abbrev sampleInfo : ParameterInfo Nat Nat := .mergeAll sampleMethod [sampleOverride]

theorem sampleGroup : ParameterInfo.Group [sampleMethod, sampleOverride] := by
  refine ⟨fun p x y hx hy => ?_, by decide⟩
  -- only the override has default values
  have hmethod : ∀ x, sampleMethod.cell p ≠ some (some x) := fun x => by
    cases p with
    | inl i =>
      intro h
      have hmem : some x ∈ [(none : Option Nat)] := mem_of_getElem? h
      simp at hmem
    | inr name => exact nofun
  have hcell : ∀ x, some (some x) ∈ [sampleMethod, sampleOverride].map (fun m => m.cell p) →
      sampleOverride.cell p = some (some x) := fun x h => by
    rcases mem_cons.1 h with h | h
    · exact absurd h.symm (hmethod x)
    · exact (mem_singleton.1 h).symm
  exact some.inj (some.inj ((hcell x hx).symm.trans (hcell y hy)))

/-- `f(b: e1, e0)` on a receiver: the second positional parameter has its default value. -/
def sampleArguments : Arguments Nat Nat Nat := ⟨[], [0], [(5, 1)], by decide⟩

def sampleSignature : List Nat := [10, 11, 12, 13]

theorem sampleCall : ValidCall .invocation sampleSignature sampleInfo sampleArguments where
  types := rfl
  positional := by decide
  named := by decide
  positionalDefault i hge hlt := by
    obtain rfl : i = 1 := by
      have hlt : i < 2 := hlt
      have hge : 1 ≤ i := hge
      omega
    exact ⟨3, rfl⟩
  namedDefault name hname hout := by
    have hall : ∀ name ∈ sampleInfo.names, name ∈ sampleArguments.named.map Prod.fst := by decide
    exact absurd (hall name hname) hout
  signature := rfl

theorem arguments_routed_sample :
    sampleInfo.nameIndex 5 = (ParameterInfo.mergeAll sampleOverride [sampleMethod]).nameIndex 5 ∧
      (∃ d, sampleInfo.cell (.inr 5) = some d ∧ d = some 7) ∧
      (∃ code, visitArguments sampleSignature sampleInfo sampleArguments 1 4 = some code ∧
        code = [.evaluate (.wrap 0 11), .constant 3 12, .evaluate (.wrap 1 13), .localSet 4,
          .localGet 4] ∧
        Routed .invocation sampleSignature sampleInfo sampleArguments 1 code) ∧
      ∃ inputs, makeFunctionType id 0 none
          (⟨0, [⟨1, 20, none⟩], 1, [⟨9, 21, none⟩, ⟨5, 22, none⟩], by decide⟩ :
            FunctionNode Nat Nat Nat) = some inputs ∧ inputs = [20, 22, 21] := by
  have hsample := arguments_routed sampleMethod [sampleOverride] sampleGroup
  refine ⟨(hsample.1.1 sampleOverride [sampleMethod] (.swap _ _ _)).2.2.2.2.2 5, ?_, ?_, ?_⟩
  · obtain ⟨d, hd, hvalue⟩ := hsample.1.2 sampleOverride (by simp) (.inr 5) (some 7) rfl
    exact ⟨d, hd, hvalue 7 rfl⟩
  · obtain ⟨code, hcode, hrouted, -⟩ := hsample.2.1 _ _ _ .invocation sampleSignature
      sampleArguments 4 sampleCall
    exact ⟨code, hcode, some.inj (hcode.symm.trans (by decide)), hrouted⟩
  · obtain ⟨inputs, hinputs, -⟩ := hsample.2.2 Nat Nat id 0 none
      ⟨0, [⟨1, 20, none⟩], 1, [⟨9, 21, none⟩, ⟨5, 22, none⟩], by decide⟩
    exact ⟨inputs, hinputs, some.inj (hinputs.symm.trans (by decide))⟩

inductive BoxType
  | box
  | type
  | i64
  | f64
  deriving DecidableEq

/-- The inputs of `Box(int x, double y)` for a class `Box<T>`. -/
abbrev boxSignature : List BoxType := [.box, .type, .i64, .f64]

/-- A machine whose values are the Wasm types of the operands; that of a type is left open. -/
def typeMachine : ArgMachine κ τ ε ω (Option ω) Unit where
  evaluate
    | .makeType _, _ => some (none, ())
    | .wrap _ type, _ => some (some type, ())
  constant _ type := some type

/-- The redirecting constructor `Box.zero() : this(0, 1.5)` makes `0` a value of the type of the
type parameter and `1.5` an integer. -/
theorem redirectingInitializer_shifted :
    ∃ (info : ParameterInfo Nat Nat) (args : Arguments Nat Nat Nat),
      ValidCall (.redirectingInitializer 1) boxSignature info args ∧
      ∃ code, visitArguments boxSignature info args
          (Caller.redirectingInitializer 1).signatureOffset 1 = some code ∧
        code = [.evaluate (.wrap 0 .type), .evaluate (.wrap 1 .i64)] ∧
        ¬ Routed (.redirectingInitializer 1) boxSignature info args 2 code := by
  have hvalid : ValidCall (.redirectingInitializer 1) boxSignature
      (⟨1, [none, none], .empty⟩ : ParameterInfo Nat Nat)
      (⟨[], [0, 1], [], by decide⟩ : Arguments Nat Nat Nat) :=
    ⟨rfl, by decide, by decide, fun i hge hlt => absurd hlt (Nat.not_lt.2 hge),
      fun name hname => absurd hname not_mem_nil, rfl⟩
  refine ⟨_, _, hvalid, _, rfl, rfl, ?_⟩
  rintro ⟨namedTypes, hnamed, hrun⟩
  obtain rfl : namedTypes = [] := map_eq_nil_iff.1 hnamed
  obtain ⟨locals, params, hparams, -, hreceives⟩ :=
    hrun _ _ typeMachine (some none) [none] [] (fun _ => none) () rfl rfl
  obtain ⟨k, hk, hvalue⟩ := hreceives (.inl 0) none rfl
  cases hk
  have hstack := congrArg ArgState.stack (some.inj hparams)
  obtain rfl : [some BoxType.type, some .i64] = params := by simpa using congrArg reverse hstack
  cases hvalue

end Callees

end Dart2Wasm.CodeGenerator
