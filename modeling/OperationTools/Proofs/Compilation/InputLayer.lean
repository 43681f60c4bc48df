import OperationTools.Proofs.Compilation.InputConformance

/-!
# The first layer of arguments

An argument is compiled with no type open and all levels left, so the outermost type is never cut:
a scalar or enum is checked exactly, and an input object by the fields that it knows, whatever was
compiled before. Further inside a validator may be cut or come from another place. So what an
operation accepts lies between what conforms to its arguments and what conforms in the first layer.

## Main definitions

* `InputTypes.Outer`: the validators of an outermost type
* `InputTypes.FirstLayer`: arguments that conform in the first layer

## Main results

* `InputTypes.exists_outer_of_thread`: no argument is cut at its outermost type
* `InputTypes.accepts_between_conformsTo_firstLayer`: what the validator of an operation accepts
-/

namespace OperationTools.InputTypes

variable (types : InputTypes)

/-- The validator of an outermost type: it is not cut. -/
inductive Outer (n : String) : Validator → Prop where
  | scalar (hb : types.schema.body? n = some .scalar) : Outer n (types.scalars.validator n)
  | enum {values : List String} (hb : types.schema.body? n = some (.enum (some values))) :
      Outer n (enumValidator values)
  | input {fields : List InputField} {part : TypeRef → Validator}
      (hb : types.schema.body? n = some (.input fields)) : Outer n (types.node n fields part)
  | foreign (hb : (types.schema.body? n).all (·.isComposite) = true) : Outer n .any

/-- An object gives a value for each non-null field that its validator knows. -/
def GivesRequired (fields : List InputField) (x : Json) : Prop :=
  ∃ entries, x = .obj entries ∧ ∀ f ∈ types.knownFields fields, f.type.isNonNull = true →
    ∃ y, entries.lookup f.name = some y ∧ y ≠ .null

/-- Arguments conform in the first layer: none that is required is left out, scalars and enums
conform, and every object that stands for an input object gives its required fields. -/
structure FirstLayer (op : Operation) (entries : List (String × Json)) : Prop where
  required : ∀ a ∈ op.arguments, a.mayBeOmitted = false →
    ∃ x, entries.lookup a.name = some x ∧ x ≠ .null
  leaves : ∀ a ∈ op.arguments, ∀ r, a.type = some r → types.schema.isLeaf r.name = true →
    ∀ x, entries.lookup a.name = some x → types.Conforms r x
  inputs : ∀ a ∈ op.arguments, ∀ r fields, a.type = some r →
    types.schema.body? r.name = some (.input fields) →
      ∀ x, entries.lookup a.name = some x → r.Holds (types.GivesRequired fields) x

variable {types}

/-! ## The outermost type is not cut -/

theorem outer_of_yields {left : Nat} {r : TypeRef} {s t : Compilation} {v : Validator}
    (h : (types.ofType (left + 1) [] r).Yields s v t) (hs : types.Sound s.memo) :
    ∃ w, types.Outer r.name w ∧ v = r.wrap w := by
  obtain ⟨w, hw, rfl⟩ := types.yields_ofType_succ_iff.1 h
  refine ⟨w, ?_, rfl⟩
  cases hw with
  | scalar hb => exact .scalar hb
  | foreign hb => exact .foreign hb
  | keptEnum _ hk =>
    obtain ⟨values, hb, rfl⟩ := hs.enums _ _ hk
    exact .enum hb
  | madeEnum hb => exact .enum hb
  | kept _ hk =>
    obtain ⟨fields, part, hb, rfl, -⟩ := hs.inputs _ _ hk
    exact .input hb
  | insideEnum _ _ hv | inside _ _ hv =>
    cases hv
  | made hb hk _ hvs =>
    obtain ⟨part, he, -⟩ := exists_node ((types.open_nil s.memo).noted hb hk) hvs
    rw [he]
    exact .input hb

/-- In a thread of arguments no outermost type is cut. -/
theorem exists_outer_of_thread {l : List (Option TypeRef)} {part : Option TypeRef → Validator}
    {s t : Compilation}
    (h : Thread (fun type? => (types.ofType? (types.levelsLeft 0) [] type?).Yields) l s
      (l.map part) t)
    (hs : types.Sound s.memo) {r : TypeRef} (hm : some r ∈ l) :
    ∃ w, types.Outer r.name w ∧ part (some r) = r.wrap w := by
  have hall := (h.preserves_and (P := fun u => types.Sound u.memo)
    (Q := fun (_ : Memo) (type? : Option TypeRef) (v : Validator) =>
      ∀ r, type? = some r → ∃ w, types.Outer r.name w ∧ v = r.wrap w)
    (fun _ _ _ _ h => memo_le_of_yields_argument h) (fun _ _ _ _ _ h => h)
    (fun type? s v t h hs => ⟨(sound_of_yields_argument h hs).1, by
      rintro r rfl
      rw [ofType?, levelsLeft_zero] at h
      exact outer_of_yields h hs⟩) hs).2
  exact hall (some r) hm r rfl

/-! ## What is accepted in the first layer -/

/-- At a leaf nothing but what conforms is accepted. -/
theorem Outer.conforms_of_isLeaf {n : String} {w : Validator} (h : types.Outer n w)
    (hl : types.schema.isLeaf n = true) {x : Json} (hx : x ≠ .null) (ha : w.accepts x = true) :
    types.Conforms (.named n) x := by
  cases h with
  | scalar hb => exact (accepts_scalar_iff_conforms hb hx).1 ha
  | enum hb => exact (accepts_enumValidator_iff_conforms hb hx).1 ha
  | input hb => simp [Schema.isLeaf, hb, TypeBody.isLeaf] at hl
  | foreign hb => exact .foreign hb

/-- An input object that is accepted gives its required fields. -/
theorem Outer.givesRequired (hl : types.schema.Lawful) {n : String} {w : Validator}
    (h : types.Outer n w) {fields : List InputField}
    (hb : types.schema.body? n = some (.input fields)) {x : Json} (ha : w.accepts x = true) :
    types.GivesRequired fields x := by
  cases h with
  | input hb' =>
    cases hb.symm.trans hb'
    obtain ⟨entries, rfl, hfields⟩ := (accepts_node_iff hl hb).1 ha
    refine ⟨entries, rfl, fun f hf hr => ?_⟩
    exact (Validator.takesAt_iff.1 (hfields f hf)).1 (by rw [hr]; rfl)
  | foreign hb' => simp [hb, TypeBody.isComposite] at hb'
  | scalar hb' | enum hb' => simp [hb] at hb'

/-- What an operation accepts conforms in the first layer. -/
theorem firstLayer_of_accepts (hl : types.schema.Lawful) {op : Operation}
    (hd : (op.arguments.map (·.name)).Nodup) {part : Option TypeRef → Validator}
    (hp : ∀ a ∈ op.arguments, ∀ r, a.type = some r →
      ∃ w, types.Outer r.name w ∧ part (some r) = r.wrap w)
    {x : Json} (h : (argumentsOf op part).accepts x = true) :
    ∃ entries, x = .obj entries ∧ types.FirstLayer op entries := by
  obtain ⟨entries, rfl, htaken⟩ := (accepts_argumentsOf_iff hd).1 h
  have hgiven : ∀ a ∈ op.arguments, ∀ r, a.type = some r → ∀ x, entries.lookup a.name = some x →
      ∃ w, types.Outer r.name w ∧ r.Holds (fun y => w.accepts y = true) x := by
    intro a ha r hr x hx
    obtain ⟨w, hw, hpart⟩ := hp a ha r hr
    have hat := htaken a ha
    rw [hr, hpart, hx, mayBeOmitted_of_type hr] at hat
    exact ⟨w, hw, TypeRef.takesAt_wrap_iff.1 hat⟩
  refine ⟨entries, rfl, fun a ha ho => (Validator.takesAt_iff.1 (htaken a ha)).1 ho, ?_, ?_⟩
  · intro a ha r hr hleaf x hx
    obtain ⟨w, hw, hholds⟩ := hgiven a ha r hr x hx
    exact conforms_iff_holds.2 (hholds.mono fun y hy ha => hw.conforms_of_isLeaf hleaf hy ha)
  · intro a ha r fields hr hb x hx
    obtain ⟨w, hw, hholds⟩ := hgiven a ha r hr x hx
    exact hholds.mono fun y _ ha => hw.givesRequired hl hb ha

/-- After any operations the validator of another one accepts all arguments that conform, and only
such that conform in the first layer. Where enums are readable there is such a validator. -/
theorem accepts_between_conformsTo_firstLayer (hl : types.schema.Lawful) (history : List Operation)
    {op : Operation} (hd : (op.arguments.map (·.name)).Nodup) :
    (types.schema.Readable →
      types.Compiles history ∧ ∃ v, types.validatorAfter history op = .ok v) ∧
    (types.Compiles history → ∀ v, types.validatorAfter history op = .ok v →
      (∀ entries, types.ConformsTo op entries → v.accepts (.obj entries) = true) ∧
      ∀ x, v.accepts x = true → ∃ entries, x = .obj entries ∧ types.FirstLayer op entries) := by
  refine ⟨fun hr => exists_validatorAfter hr history op, fun hh v hv => ?_⟩
  have hsound := sound_memoAfter hh
  obtain ⟨t, h⟩ := validatorAfter_eq_ok_iff.1 hv
  obtain ⟨part, rfl, hp⟩ := yields_ofOperation_iff.1 h
  constructor
  · intro entries hx
    exact accepts_argumentsOf_of_conformsTo hl hd
      (fun a ha => standsFor_of_thread hp hsound (List.mem_map_of_mem ha)) hx
  · intro x hx
    refine firstLayer_of_accepts hl hd (fun a ha r hr => ?_) hx
    exact exists_outer_of_thread hp hsound (hr ▸ List.mem_map_of_mem ha)

/-- After `first` was compiled, `second` accepts a value that conforms in the first layer only. -/
theorem firstLayer_second_after_first :
    nest.schema.Lawful ∧ ((nestOperation "second" "b" "B").arguments.map (·.name)).Nodup ∧
      nest.schema.Readable ∧ ∃ v,
        nest.validatorAfter [nestOperation "first" "a" "A"] (nestOperation "second" "b" "B") =
          .ok v ∧ v.accepts nestValue = true ∧
        nest.FirstLayer (nestOperation "second" "b" "B") nestValue.entries := by
  have hl : nest.schema.Lawful := by decide +kernel
  have hd : ((nestOperation "second" "b" "B").arguments.map (·.name)).Nodup := by decide
  obtain ⟨hexists, hbetween⟩ :=
    accepts_between_conformsTo_firstLayer hl [nestOperation "first" "a" "A"] hd
  have hr : nest.schema.Readable := by decide +kernel
  obtain ⟨hh, -⟩ := hexists hr
  refine ⟨hl, hd, hr, _, rfl, by decide +kernel, ?_⟩
  obtain ⟨entries, he, hlayer⟩ := (hbetween hh _ rfl).2 nestValue (by decide +kernel)
  rw [he]
  exact hlayer

end OperationTools.InputTypes
