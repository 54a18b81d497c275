import Dart2Wasm.WasmBuilder.Execution

/-!
# WasmBuilder.ValueTyping — typed values and the instructions that only compute

Values keep their types when the heap changes in a way that keeps the types of its objects, and a
value of a type is a value of every supertype. A plain instruction that finds operands of its
input types leaves results of its output types, a well-typed heap and locals of their declared
types.
-/

namespace Dart2Wasm.WasmBuilder

open InstrContext PlainInstr Option

variable {v : Val} {vs args : List Val} {ts outputs : List ValueType} {i : Nat} {d : DefTypeId}
  {f : FieldType}
variable {n : Bool} {inputs : List ValueType}

/-! ## Values -/

section Values

variable {types : TypeTable} {heap heap' : Heap}

theorem HeapExtends.refl (heap : Heap) : HeapExtends heap heap :=
  fun _ object h => ⟨object, h, rfl⟩

theorem HasType.of_sub {t t' : ValueType} (h : HasType types heap v t)
    (hsub : ValueSub types t t') : HasType types heap v t' := by
  cases h with
  | num k value =>
    cases hsub with
    | num => exact .num k value
  | rtt h => exact .rtt (h.trans hsub)
  | null h =>
    cases hsub with
    | ref hn hh =>
      obtain rfl := hn rfl
      exact .null _
  | ref hh halloc =>
    cases hsub with
    | ref hn hh' => exact .ref (hh.trans hh') halloc

theorem HasType.extend {t : ValueType} (h : HasType types heap v t)
    (hext : HeapExtends heap heap') : HasType types heap' v t := by
  cases h with
  | num k value => exact .num k value
  | rtt h => exact .rtt h
  | null h => exact .null h
  | ref hh halloc =>
    refine .ref hh ?_
    intro d name fields hd hkind
    obtain ⟨object, hobject, htype⟩ := halloc d name fields hd hkind
    obtain ⟨object', hobject', htype'⟩ := hext _ object hobject
    exact ⟨object', hobject', htype'.trans htype⟩

theorem HasTypes.of_sub {ts' : List ValueType} (h : HasTypes types heap vs ts)
    (hsub : List.Forall₂ (ValueSub types) ts ts') : HasTypes types heap vs ts' :=
  Lib.forall₂_comp .of_sub h hsub

theorem HasTypes.extend (h : HasTypes types heap vs ts)
    (hext : HeapExtends heap heap') : HasTypes types heap' vs ts :=
  h.imp fun _ _ hv => hv.extend hext

theorem HasType.i32_inv (h : HasType types heap v .i32) : ∃ value, v = .num .i32 value := by
  cases h with
  | num k value => exact ⟨value, rfl⟩
  | rtt h => cases h

theorem HasType.ref_inv {h : HeapType} (hv : HasType types heap v (.ref h n)) :
    (v = .null ∧ n = true) ∨
      ∃ h' a, v = .ref h' a ∧ HeapSub types h' h ∧ Allocated types heap h' a := by
  cases hv with
  | rtt h => cases h
  | null h => exact Or.inl ⟨rfl, rfl⟩
  | ref hsub halloc => exact Or.inr ⟨_, _, rfl, hsub, halloc⟩

/-- Writing a value of the type of the field keeps all objects well typed. -/
theorem HeapTyped.set_field (h : HeapTyped types heap) {a : Nat} {object : StructObject}
    (hobject : heap[a]? = some object) (hv : ∀ name fields (f : FieldType),
      (types[object.type]?).map DefType.kind = some (.struct name fields) →
      fields[i]? = some f → HasType types heap v f.type.unpacked) :
    HeapTyped types (heap.set a { object with fields := object.fields.set i v }) ∧
      HeapExtends heap (heap.set a { object with fields := object.fields.set i v }) := by
  have ha : a < heap.length := (List.getElem?_eq_some_iff.1 hobject).1
  have hext : HeapExtends heap (heap.set a { object with fields := object.fields.set i v }) := by
    intro b other hb
    by_cases hab : a = b
    · subst hab
      obtain rfl := some.inj (hobject.symm.trans hb)
      exact ⟨_, List.getElem?_set_self ha, rfl⟩
    · exact ⟨other, by rw [List.getElem?_set_ne hab]; exact hb, rfl⟩
  refine ⟨?_, hext⟩
  intro b other hb
  by_cases hab : a = b
  · subst hab
    obtain rfl : { object with fields := object.fields.set i v } = other := by
      simpa [ha] using hb
    obtain ⟨name, fields, hkind, hfields⟩ := h a object hobject
    refine ⟨name, fields, hkind, Lib.forall₂_set (hfields.imp fun _ _ hw => hw.extend hext) ?_⟩
    intro f hf
    exact (hv name fields f hkind hf).extend hext
  · rw [List.getElem?_set_ne hab] at hb
    obtain ⟨name, fields, hkind, hfields⟩ := h b other hb
    exact ⟨name, fields, hkind, hfields.imp fun _ _ hw => hw.extend hext⟩

end Values

/-! ## Objects and functions behind references -/

section References

variable {ctx : InstrContext} {heap : Heap}

theorem InstrContext.fieldType?_eq_some :
    ctx.fieldType? d i = some f ↔
      ∃ name fields, ctx.kind? d = some (.struct name fields) ∧ fields[i]? = some f := by
  rw [fieldType?]
  split
  · rename_i name fields hkind
    simp [hkind]
  · rename_i hnot
    constructor
    · intro h
      cases h
    · intro ⟨name, fields, hkind, _⟩
      exact (hnot name fields hkind).elim

theorem InstrContext.functionType?_eq_some :
    ctx.functionType? d = some (inputs, outputs) ↔
      ctx.kind? d = some (.function inputs outputs) := by
  rw [functionType?]
  split
  · rename_i hkind
    simp [hkind]
  · rename_i hnot
    constructor
    · intro h
      cases h
    · intro hkind
      exact (hnot inputs outputs hkind).elim

section

variable (hwf : TypesWellFormed ctx.types) (hv : HasType ctx.types heap v (.ref (.defined d) n))
include hwf hv

/-- The object behind a reference to a struct type has the field, with a type that can stand for
the type of the field. -/
theorem object_of_hasType (hf : ctx.fieldType? d i = some f) :
    v = .null ∨ ∃ h a object name fields g, v = .ref h a ∧ heap[a]? = some object ∧
      (ctx.types[object.type]?).map DefType.kind = some (.struct name fields) ∧
      fields[i]? = some g ∧ FieldSub ctx.types g f := by
  obtain ⟨_, _, hkind, hfield⟩ := fieldType?_eq_some.1 hf
  rcases hv.ref_inv with ⟨rfl, _⟩ | ⟨h, a, rfl, hsub, halloc⟩
  · exact Or.inl rfl
  · obtain ⟨e, k, rfl, hk, hkindSub⟩ := hsub.kindSub hwf hkind
    cases hkindSub with
    | @struct name _ fields _ hfields =>
      obtain ⟨object, hobject, rfl⟩ := halloc e name fields rfl hk
      obtain ⟨g, hg, hgf⟩ := hfields i f hfield
      exact Or.inr ⟨_, a, object, name, fields, g, rfl, hobject, hk, hg, hgf⟩

/-- The function behind a reference to a function type accepts its inputs and returns its
outputs. -/
theorem function_of_hasType (hd : ctx.functionType? d = some (inputs, outputs)) :
    v = .null ∨ ∃ e a inputs' outputs', v = .ref (.defined e) a ∧
      ctx.functionType? e = some (inputs', outputs') ∧
      List.Forall₂ (ValueSub ctx.types) inputs inputs' ∧
      List.Forall₂ (ValueSub ctx.types) outputs' outputs := by
  have hkind := functionType?_eq_some.1 hd
  rcases hv.ref_inv with ⟨rfl, _⟩ | ⟨h, a, rfl, hsub, _⟩
  · exact Or.inl rfl
  · obtain ⟨e, k, rfl, hk, hkindSub⟩ := hsub.kindSub hwf hkind
    cases hkindSub with
    | function hins houts =>
      exact Or.inr ⟨e, a, _, _, rfl, functionType?_eq_some.2 hk, hins, houts⟩

end

end References

/-! ## Plain instructions -/

section Plain

variable {ctx : InstrContext} {env : Environment} {locals : List Val} {heap : Heap}

/-- What a plain instruction may leave behind: results of its output types, or a trap. -/
def PlainResult.Safe (ctx : InstrContext) (heap : Heap) (outputs : List ValueType) :
    PlainResult → Prop
  | .values results locals heap' =>
    HasTypes ctx.types heap' results outputs.reverse ∧
      HasTypes ctx.types heap' locals ctx.locals ∧ HeapTyped ctx.types heap' ∧
      HeapExtends heap heap'
  | .trap => True
  | .stuck => False

theorem PlainResult.Safe.pure {results locals : List Val}
    (hheap : HeapTyped ctx.types heap) (hlocals : HasTypes ctx.types heap locals ctx.locals)
    (hresults : HasTypes ctx.types heap results outputs.reverse) :
    (PlainResult.values results locals heap).Safe ctx heap outputs :=
  ⟨hresults, hlocals, hheap, .refl heap⟩

theorem exec_call (henv : env.RespectsTypes ctx) (hheap : HeapTyped ctx.types heap)
    (hlocals : HasTypes ctx.types heap locals ctx.locals) {f : Nat}
    (hsig : ctx.signature (.call f) = some (inputs, outputs))
    (hargs : HasTypes ctx.types heap args inputs.reverse) :
    ((call f).exec ctx env locals heap args).Safe ctx heap outputs := by
  obtain ⟨d, hd, htype⟩ := bind_eq_some_iff.1 hsig
  simp only [exec, hd]
  cases hinvoke : env.invoke d f args heap with
  | none => trivial
  | some result =>
    obtain ⟨hresults, hheap', hext⟩ :=
      henv d f inputs outputs args heap result.1 result.2 htype hheap hargs hinvoke
    exact ⟨hresults, hlocals.extend hext, hheap', hext⟩

section

variable (hwf : TypesWellFormed ctx.types) (hheap : HeapTyped ctx.types heap)
  (hlocals : HasTypes ctx.types heap locals ctx.locals) (hf : ctx.fieldType? d i = some f)
include hwf hheap hlocals hf

theorem exec_structGet (hv : HasType ctx.types heap v (.ref (.defined d) true)) :
    ((structGet d i).exec ctx env locals heap [v]).Safe ctx heap [f.type.unpacked] := by
  rcases object_of_hasType hwf hv hf with
    rfl | ⟨h, a, object, name, fields, g, rfl, hobject, hkind, hg, hsub⟩
  · trivial
  · obtain ⟨name', fields', hkind', hfields⟩ := hheap a object hobject
    obtain ⟨rfl, rfl⟩ : name = name' ∧ fields = fields' := by
      simpa using hkind.symm.trans hkind'
    obtain ⟨w, hw, hwtype⟩ := Lib.forall₂_getElem? hfields hg
    simp only [exec, hobject, bind_some, hw]
    exact .pure hheap hlocals (.cons (hwtype.of_sub hsub.covariant) .nil)

theorem exec_structSet {w : Val} (hmutable : f.mutable = true)
    (hv : HasType ctx.types heap v (.ref (.defined d) true))
    (hw : HasType ctx.types heap w f.type.unpacked) :
    ((structSet d i).exec ctx env locals heap [w, v]).Safe ctx heap [] := by
  rcases object_of_hasType hwf hv hf with
    rfl | ⟨h, a, object, name, fields, g, rfl, hobject, hkind, hg, hsub⟩
  · trivial
  have hset := hheap.set_field (i := i) (v := w) hobject ?_
  · simp only [exec, hobject]
    exact ⟨.nil, hlocals.extend hset.2, hset.1, hset.2⟩
  · -- A mutable field has the same type in the object's own type.
    intro name' fields' f' hkind' hf'
    obtain ⟨rfl, rfl⟩ : name = name' ∧ fields = fields' := by
      simpa using hkind.symm.trans hkind'
    obtain rfl := some.inj (hg.symm.trans hf')
    exact hsub.invariant hmutable ▸ hw

end

theorem PlainInstr.exec_safe (hwf : TypesWellFormed ctx.types) (henv : env.RespectsTypes ctx)
    (hheap : HeapTyped ctx.types heap) (hlocals : HasTypes ctx.types heap locals ctx.locals)
    {p : PlainInstr} (hsig : ctx.signature p = some (inputs, outputs))
    (hmutable : ∀ d i f, p = .structSet d i → ctx.fieldType? d i = some f → f.mutable = true)
    (hargs : HasTypes ctx.types heap args inputs.reverse) :
    (p.exec ctx env locals heap args).Safe ctx heap outputs := by
  cases p with
  | nop =>
    cases hsig
    exact .pure hheap hlocals .nil
  | call f => exact exec_call henv hheap hlocals hsig hargs
  | select t =>
    cases hsig
    cases hargs with
    | cons hc hrest =>
      obtain ⟨c, rfl⟩ := hc.i32_inv
      cases hrest with
      | cons hsecond hrest =>
        cases hrest with
        | cons hfirst hrest =>
          cases hrest
          refine .pure hheap hlocals (.cons ?_ .nil)
          split
          · exact hsecond
          · exact hfirst
  | localGet x =>
    obtain ⟨t, ht, hsig⟩ := map_eq_some_iff.1 hsig
    cases hsig
    obtain ⟨v, hv, htype⟩ := Lib.forall₂_getElem? hlocals ht
    simp only [exec, hv]
    exact .pure hheap hlocals (.cons htype .nil)
  | localSet x =>
    obtain ⟨t, ht, hsig⟩ := map_eq_some_iff.1 hsig
    cases hsig
    cases hargs with
    | cons hv hrest =>
      cases hrest
      refine .pure hheap (Lib.forall₂_set hlocals ?_) .nil
      intro t' ht'
      exact some.inj (ht.symm.trans ht') ▸ hv
  | localTee x =>
    obtain ⟨t, ht, hsig⟩ := map_eq_some_iff.1 hsig
    cases hsig
    cases hargs with
    | cons hv hrest =>
      cases hrest
      refine .pure hheap (Lib.forall₂_set hlocals ?_) (.cons hv .nil)
      intro t' ht'
      exact some.inj (ht.symm.trans ht') ▸ hv
  | const kind value =>
    have houtputs : outputs = [.num kind] := by
      cases kind <;> simp [signature] at hsig <;> simp [hsig]
    subst houtputs
    exact .pure hheap hlocals (.cons (.num kind value) .nil)
  | numeric op =>
    cases hsig
    exact .pure hheap hlocals (.cons (.num op.output _) .nil)
  | structGet d i =>
    simp only [signature] at hsig
    split at hsig
    · rename_i t _ hf
      cases hsig
      cases hargs with
      | cons hv hrest =>
        cases hrest
        exact exec_structGet hwf hheap hlocals hf hv
    · cases hsig
  | structSet d i =>
    obtain ⟨f, hf, hsig⟩ := map_eq_some_iff.1 hsig
    cases hsig
    cases hargs with
    | cons hw hrest =>
      cases hrest with
      | cons hv hrest =>
        cases hrest
        exact exec_structSet hwf hheap hlocals hf (hmutable d i f rfl hf) hv hw

end Plain

end Dart2Wasm.WasmBuilder
