import OperationTools.Proofs.Compilation.InputSharing
import OperationTools.Proofs.Validator.Place

/-!
# Conforming arguments

A value conforms to an input type by recursion on the type: what is non-null has a value, lists are
arrays of conforming items, scalars are up to their registered validators, enum values are among the
declared ones, and the fields of input objects conform to their own types. Nothing is cut and
nothing depends on what was compiled before.

Whatever stands for a reference in a memo accepts what conforms to it: a validator may be cut, and
then it accepts more, but it never asks for more than the type does.

## Main definitions

* `TypeRef.Holds`: a property of all values that stand for the named type of a reference
* `InputTypes.Conforms`: values that conform to a type
* `InputTypes.ConformsTo`: values that conform to the arguments of an operation
* `Schema.Readable`: the values of every enum can be told

## Main results

* `InputTypes.Stands.takesAt_of_conforms`: standing validators accept what conforms
* `InputTypes.accepts_argumentsOf_iff`: the validator of an operation takes arguments one by one
* `InputTypes.exists_validatorAfter`: where enums are readable every operation has a validator
-/

namespace OperationTools

/-- The values of every enum can be told. -/
def Schema.Readable (schema : Schema) : Prop := ∀ t ∈ schema.types, t.body ≠ .enum none

instance (schema : Schema) : Decidable schema.Readable :=
  inferInstanceAs (Decidable (∀ t ∈ schema.types, t.body ≠ .enum none))

namespace TypeRef

/-- A value has the lists and the values that a reference asks for, and a property holds of
everything in it that stands for the named type. -/
def Holds (P : Json → Prop) : TypeRef → Json → Prop
  | .named _, x => x = .null ∨ P x
  | .nonNull inner, x => x ≠ .null ∧ inner.Holds P x
  | .list item, x => x = .null ∨ ∃ items, x = .arr items ∧ ∀ y ∈ items, item.Holds P y

theorem Holds.mono {P Q : Json → Prop} (h : ∀ x, x ≠ .null → P x → Q x) {r : TypeRef} {x : Json}
    (hx : r.Holds P x) : r.Holds Q x := by
  induction r generalizing x with
  | named n => exact (Decidable.em (x = .null)).imp id fun hne => h x hne (hx.resolve_left hne)
  | nonNull inner ih => exact ⟨hx.1, ih hx.2⟩
  | list item ih =>
    rcases hx with hx | ⟨items, hx, hitems⟩
    · exact .inl hx
    · exact .inr ⟨items, hx, fun y hy => ih (hitems y hy)⟩

/-- The validator of a reference takes what has its lists and values, with the named type left to
the validator inside. -/
theorem takesAt_wrap_iff {r : TypeRef} {v : Validator} {x : Json} :
    (r.wrap v).takesAt (!r.isNonNull) (some x) = true ↔
      r.Holds (fun y => v.accepts y = true) x := by
  induction r generalizing x with
  | named n =>
    by_cases hx : x = .null
    · simp [hx, Holds, isNonNull]
    · rw [Validator.takesAt_some hx, Holds, or_iff_right hx, wrap]
  | nonNull inner ih =>
    by_cases hx : x = .null
    · simp [hx, Holds, isNonNull]
    · rw [Holds, ← ih, Validator.takesAt_some hx, Validator.takesAt_some hx, and_iff_right hx, wrap]
  | list item ih =>
    by_cases hx : x = .null
    · simp [hx, Holds, isNonNull]
    · rw [Validator.takesAt_some hx, Holds, or_iff_right hx, wrap, Validator.accepts_list_iff]
      simp only [ih]

end TypeRef

namespace InputTypes

variable (types : InputTypes)

/-- A value conforms to a type. -/
inductive Conforms : TypeRef → Json → Prop where
  /-- Only what is non-null needs a value. -/
  | null {r : TypeRef} (hr : r.isNonNull = false) : Conforms r .null
  | nonNull {inner : TypeRef} {x : Json} (hx : x ≠ .null) (h : Conforms inner x) :
      Conforms (.nonNull inner) x
  | list {item : TypeRef} {items : List Json} (h : ∀ x ∈ items, Conforms item x) :
      Conforms (.list item) (.arr items)
  /-- A scalar with an entry in the table takes what the validator in the entry accepts. -/
  | scalar {n : String} {x : Json} {v : Validator} (hb : types.schema.body? n = some .scalar)
      (hv : types.scalars.entries.lookup n = some v) (h : v.accepts x = true) :
      Conforms (.named n) x
  /-- A scalar without an entry takes texts. -/
  | unlisted {n s : String} (hb : types.schema.body? n = some .scalar)
      (hv : types.scalars.entries.lookup n = none) : Conforms (.named n) (.str s)
  /-- An enum without values takes any string. -/
  | enum {n s : String} {values : List String}
      (hb : types.schema.body? n = some (.enum (some values))) (hs : values = [] ∨ s ∈ values) :
      Conforms (.named n) (.str s)
  /-- Keys that are no fields are ignored. -/
  | input {n : String} {fields : List InputField} {entries : List (String × Json)}
      (hb : types.schema.body? n = some (.input fields))
      (hrequired : ∀ f ∈ fields, f.type.isNonNull = true → ∃ x, entries.lookup f.name = some x)
      (hfields : ∀ f ∈ fields, ∀ x, entries.lookup f.name = some x → Conforms f.type x) :
      Conforms (.named n) (.obj entries)
  /-- What is no input type takes everything. -/
  | foreign {n : String} {x : Json} (hb : (types.schema.body? n).all (·.isComposite) = true) :
      Conforms (.named n) x

/-- A value conforms to the arguments of an operation: it is an object that gives every argument
that may not be left out, and each argument that it gives conforms to its type, if that is known. -/
structure ConformsTo (op : Operation) (entries : List (String × Json)) : Prop where
  required : ∀ a ∈ op.arguments, a.mayBeOmitted = false →
    ∃ x, entries.lookup a.name = some x ∧ x ≠ .null
  typed : ∀ a ∈ op.arguments, ∀ r, a.type = some r → ∀ x, entries.lookup a.name = some x →
    types.Conforms r x

variable {types}

/-- Lists and non-null marks are looked at first, and then the named type. -/
theorem conforms_iff_holds {r : TypeRef} {x : Json} :
    types.Conforms r x ↔ r.Holds (types.Conforms (.named r.name)) x := by
  induction r generalizing x with
  | named n =>
    refine ⟨.inr, fun h => h.elim ?_ id⟩
    rintro rfl
    exact .null rfl
  | nonNull inner ih =>
    constructor
    · intro h
      cases h with
      | null hr => cases hr
      | nonNull hx h => exact ⟨hx, ih.1 h⟩
    · rintro ⟨hx, h⟩
      exact .nonNull hx (ih.2 h)
  | list item ih =>
    constructor
    · intro h
      cases h with
      | null => exact .inl rfl
      | list h => exact .inr ⟨_, rfl, fun y hy => ih.1 (h y hy)⟩
    · rintro (rfl | ⟨items, rfl, h⟩)
      · exact .null rfl
      · exact .list fun y hy => ih.2 (h y hy)

/-! ## What enums and input objects accept -/

/-- The validator of an enum accepts its values, or any string if it has none. -/
theorem accepts_enumValidator_iff {values : List String} {x : Json} :
    (enumValidator values).accepts x = true ↔ ∃ s, x = .str s ∧ (values = [] ∨ s ∈ values) := by
  have hreport : (enumValidator values).report x = (enumValidator values).shallowReport x := by
    match values with
    | [] | [_] | _ :: _ :: _ => cases x <;> rfl
  rw [Validator.accepts_iff_issues, hreport]
  match values with
  | [] => cases x <;> simp [enumValidator, Validator.shallowReport]
  | [value] => by_cases hx : x = .str value <;> simp [enumValidator, Validator.shallowReport, hx]
  | value :: other :: rest =>
    have hstr : ∀ (values : List String) (s : String),
        ((Validator.enumeration values).shallowReport (.str s)).issues = [] ↔ s ∈ values := by
      intro values s
      by_cases hs : s ∈ values <;> simp [Validator.shallowReport, hs]
    cases x with
    | str s => simpa [enumValidator] using hstr (value :: other :: rest) s
    | _ => simp [enumValidator, Validator.shallowReport]

theorem accepts_enumValidator_iff_conforms {n : String} {values : List String}
    (hb : types.schema.body? n = some (.enum (some values))) {x : Json} (hx : x ≠ .null) :
    (enumValidator values).accepts x = true ↔ types.Conforms (.named n) x := by
  rw [accepts_enumValidator_iff]
  constructor
  · rintro ⟨s, rfl, hs⟩
    exact .enum hb hs
  · intro h
    cases h with
    | null => exact absurd rfl hx
    | enum hb' hs =>
      cases hb.symm.trans hb'
      exact ⟨_, rfl, hs⟩
    | foreign hb' => simp [hb, TypeBody.isComposite] at hb'
    | scalar hb' | unlisted hb' | input hb' => simp [hb] at hb'

theorem accepts_scalar_iff_conforms {n : String} (hb : types.schema.body? n = some .scalar)
    {x : Json} (hx : x ≠ .null) :
    (types.scalars.validator n).accepts x = true ↔ types.Conforms (.named n) x := by
  unfold ScalarTable.validator
  constructor
  · intro h
    cases hv : types.scalars.entries.lookup n with
    | some v =>
      rw [hv] at h
      exact .scalar hb hv h
    | none =>
      rw [hv] at h
      have htext : (enumValidator []).accepts x = true := h
      obtain ⟨s, rfl, -⟩ := accepts_enumValidator_iff.1 htext
      exact .unlisted hb hv
  · intro h
    cases h with
    | null => exact absurd rfl hx
    | scalar _ hv h => rwa [hv]
    | unlisted _ hv => rw [hv]; rfl
    | foreign hb' => simp [hb, TypeBody.isComposite] at hb'
    | enum hb' | input hb' => simp [hb] at hb'

/-- The validator of an input object takes objects whose known fields are taken. -/
theorem accepts_node_iff (hl : types.schema.Lawful) {n : String} {fields : List InputField}
    (hb : types.schema.body? n = some (.input fields)) {part : TypeRef → Validator} {x : Json} :
    (types.node n fields part).accepts x = true ↔ ∃ entries, x = .obj entries ∧
      ∀ f ∈ types.knownFields fields,
        (part f.type).takesAt (!f.type.isNonNull) (entries.lookup f.name) = true := by
  have hn : (((types.knownFields fields).map fun f => member f (part f.type)).map
      (·.name)).Nodup := by
    rw [List.map_map]
    exact nodup_knownFields hl hb
  rw [node, Validator.accepts_object_iff hn]
  simp only [List.forall_mem_map, member]

/-! ## Standing validators accept what conforms -/

/-- A standing validator takes what conforms to its reference. -/
theorem Stands.takesAt_of_conforms (hl : types.schema.Lawful) {memo : Memo} {r : TypeRef}
    {v : Validator} (h : types.Stands memo r v) {x : Json} (hx : types.Conforms r x) :
    v.takesAt (!r.isNonNull) (some x) = true := by
  -- induction on why the validator stands; only the parts that are not cut look at the value
  induction h generalizing x with
  | cut r =>
    by_cases hne : x = .null
    · subst hne
      cases hx with
      | null hr => simp [hr]
      | nonNull hne => exact absurd rfl hne
      | scalar | foreign => rfl
    · rw [Validator.takesAt_some hne]
      exact Validator.accepts_any x
  | list _ ih =>
    cases hx with
    | null => rfl
    | list hitems => exact Validator.accepts_list_iff.2 ⟨_, rfl, fun y hy => ih (hitems y hy)⟩
  | nonNull _ ih =>
    cases hx with
    | null hr => cases hr
    | nonNull hne hx =>
      have := ih hx
      rwa [Validator.takesAt_some hne] at this ⊢
  | scalar hb =>
    by_cases hne : x = .null
    · subst hne; rfl
    · rw [Validator.takesAt_some hne]
      exact (accepts_scalar_iff_conforms hb hne).2 hx
  | enum hb =>
    by_cases hne : x = .null
    · subst hne; rfl
    · rw [Validator.takesAt_some hne]
      exact (accepts_enumValidator_iff_conforms hb hne).2 hx
  | inside hb =>
    cases hx with
    | null => rfl
    | input => rfl
    | foreign hb' => simp [hb, TypeBody.isComposite] at hb'
    | scalar hb' | unlisted hb' | enum hb' => simp [hb] at hb'
  | @whole n fields part hb _ _ ih =>
    cases hx with
    | null => rfl
    | foreign hb' => simp [hb, TypeBody.isComposite] at hb'
    | scalar hb' | unlisted hb' | enum hb' => simp [hb] at hb'
    | @input _ _ entries hb' hrequired hfields =>
      cases hb.symm.trans hb'
      refine (accepts_node_iff hl hb).2 ⟨entries, rfl, fun f hf => ?_⟩
      have hf' : f ∈ fields := List.mem_of_mem_take hf
      cases hx : entries.lookup f.name with
      | none =>
        cases hr : f.type.isNonNull with
        | false => rfl
        | true =>
          obtain ⟨x, hx'⟩ := hrequired f hf' hr
          cases hx.symm.trans hx'
      | some y => exact ih f.type (List.mem_map_of_mem hf) (hfields f hf' y hx)

/-! ## Operations -/

/-- Whether an argument of a known type may be left out is up to the type. -/
theorem mayBeOmitted_of_type {a : Variable} {r : TypeRef} (h : a.type = some r) :
    a.mayBeOmitted = !r.isNonNull := by
  rw [Variable.mayBeOmitted, h]

/-- The validator of an operation accepts objects in which every argument is taken. -/
theorem accepts_argumentsOf_iff {op : Operation} (hd : (op.arguments.map (·.name)).Nodup)
    {part : Option TypeRef → Validator} {x : Json} :
    (argumentsOf op part).accepts x = true ↔ ∃ entries, x = .obj entries ∧
      ∀ a ∈ op.arguments,
        (part a.type).takesAt a.mayBeOmitted (entries.lookup a.name) = true := by
  have hn : ((op.arguments.map fun a => argument a (part a.type)).map (·.name)).Nodup := by
    rwa [List.map_map]
  rw [argumentsOf_eq hd, Validator.accepts_object_iff hn]
  simp only [List.forall_mem_map, argument]

/-- What stands for the arguments of an operation accepts all that conforms to them. -/
theorem accepts_argumentsOf_of_conformsTo (hl : types.schema.Lawful) {op : Operation}
    (hd : (op.arguments.map (·.name)).Nodup) {memo : Memo} {part : Option TypeRef → Validator}
    (hp : ∀ a ∈ op.arguments, types.StandsFor memo a.type (part a.type))
    {entries : List (String × Json)} (h : types.ConformsTo op entries) :
    (argumentsOf op part).accepts (.obj entries) = true := by
  refine (accepts_argumentsOf_iff hd).2 ⟨entries, rfl, fun a ha =>
    Validator.takesAt_iff.2 ⟨h.required a ha, fun x hx hne => ?_⟩⟩
  have hstands := hp a ha
  cases hr : a.type with
  | none =>
    rw [hr] at hstands
    rw [show part none = .any from hstands, Validator.accepts_any]
  | some r =>
    rw [hr] at hstands
    have htaken := Stands.takesAt_of_conforms hl hstands (h.typed a ha r hr x hx)
    rwa [Validator.takesAt_some hne] at htaken

/-! ## Validators exist -/

theorem total_ofNamed (hr : types.schema.Readable)
    {inner : List String → TypeRef → TryCompile Validator}
    (hi : ∀ visited r, (inner visited r).Total) (visited : List String) (n : String) :
    (types.ofNamed inner visited n).Total := by
  unfold ofNamed
  split
  · exact TryCompile.total_pure _
  · rename_i values hb
    refine (TryCompile.total_lift _).bind fun kept => ?_
    cases kept with
    | some v => exact TryCompile.total_pure v
    | none =>
      cases values with
      | none => exact absurd rfl (hr _ (Schema.mem_of_body? hb))
      | some vals =>
        show TryCompile.Total (if visited.contains n then _ else _)
        split
        · exact TryCompile.total_pure _
        · exact TryCompile.total_lift _
  · refine (TryCompile.total_lift _).bind fun kept => ?_
    cases kept with
    | some v => exact TryCompile.total_pure v
    | none =>
      show TryCompile.Total (if visited.contains n then _ else _)
      split
      · exact TryCompile.total_pure _
      · refine (TryCompile.total_lift _).bind fun _ => ?_
        refine TryCompile.Total.bind (TryCompile.total_mapM fun f _ => ?_) fun _ =>
          TryCompile.total_lift _
        exact (hi _ _).bind fun _ => TryCompile.total_pure _
  · exact TryCompile.total_pure _

theorem total_ofType (hr : types.schema.Readable) (left : Nat) (visited : List String)
    (r : TypeRef) : (types.ofType left visited r).Total := by
  induction left generalizing visited r with
  | zero => exact (TryCompile.total_lift _).bind fun _ => TryCompile.total_pure _
  | succ left ih =>
    rw [ofType]
    induction r with
    | named n => exact total_ofNamed hr ih visited n
    | nonNull inner ih' => exact ih'
    | list item ih' => exact ih'.bind fun _ => TryCompile.total_pure _

theorem total_ofOperation (hr : types.schema.Readable) (op : Operation) :
    (types.ofOperation op).Total := by
  refine TryCompile.Total.bind (TryCompile.total_mapM fun a _ => ?_) fun _ =>
    TryCompile.total_pure _
  refine TryCompile.Total.bind ?_ fun _ => TryCompile.total_pure _
  unfold ofVariable
  cases a.type with
  | some r => exact total_ofType hr _ _ r
  | none =>
    rw [ofType?]
    split
    · exact (TryCompile.total_lift _).bind fun _ => TryCompile.total_pure _
    · exact (TryCompile.total_pure ()).bind fun _ => TryCompile.total_pure _

/-- Where the values of all enums can be told, every operation has a validator after any others. -/
theorem exists_validatorAfter (hr : types.schema.Readable) (history : List Operation)
    (op : Operation) :
    types.Compiles history ∧ ∃ v, types.validatorAfter history op = .ok v :=
  ⟨(TryCompile.total_mapM fun o _ => total_ofOperation hr o).exists_ok {},
    (total_ofOperation hr op).exists_ok _⟩

end InputTypes

end OperationTools
