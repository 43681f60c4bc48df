import OperationTools.Proofs.Schema.Closed

/-!
# Selectable schemas

A selection goes from a composite type to its fields and narrowings. In a selectable schema every
step leads to a leaf or to another composite type: no field returns an input object, and no union
has members without parts.

## Main definitions

* `Schema.FieldsSelectable`: every field has a leaf or a composite type
* `Schema.MembersSelectable`, `Schema.NoLeafMembers`: every member of a union is composite, or at
  least no leaf

## Main results

* `Schema.Closed.fieldsSelectable_iff`: in closed schemas only input objects cannot be selected
* `Schema.fieldType?_eq`: the fields of a composite type are looked up by name
* `Schema.Lawful.isComposite_of_part?`: a key that leads to no leaf leads to a composite type
-/

namespace OperationTools

/-- The members of a union. -/
def TypeBody.members : TypeBody → List String
  | .union members => members
  | _ => []

namespace Schema

/-- Every field has a leaf or a composite type. -/
def FieldsSelectable (schema : Schema) : Prop :=
  ∀ t ∈ schema.types, ∀ f ∈ t.body.fields,
    schema.isLeaf f.type.name = true ∨ schema.isComposite f.type.name = true

instance (schema : Schema) : Decidable schema.FieldsSelectable :=
  inferInstanceAs (Decidable (∀ t ∈ schema.types, ∀ f ∈ t.body.fields, _ ∨ _))

/-- Every member of a union is composite: none is a scalar, an enum or an input object. -/
def MembersSelectable (schema : Schema) : Prop :=
  ∀ t ∈ schema.types, ∀ m ∈ t.body.members, schema.isComposite m = true

instance (schema : Schema) : Decidable schema.MembersSelectable :=
  inferInstanceAs (Decidable (∀ t ∈ schema.types, ∀ m ∈ t.body.members, _ = true))

/-- No scalar or enum is a member of a union. -/
def NoLeafMembers (schema : Schema) : Prop :=
  ∀ t ∈ schema.types, ∀ m ∈ t.body.members, schema.isLeaf m = false

instance (schema : Schema) : Decidable schema.NoLeafMembers :=
  inferInstanceAs (Decidable (∀ t ∈ schema.types, ∀ m ∈ t.body.members, _ = false))

variable {schema : Schema} {n key m : String} {body : TypeBody}

/-- In a closed schema the fields are selectable unless one of them returns an input object. -/
theorem Closed.fieldsSelectable_iff (hc : schema.Closed) :
    schema.FieldsSelectable ↔ ∀ t ∈ schema.types, ∀ f ∈ t.body.fields, ∀ fields,
      schema.body? f.type.name ≠ some (.input fields) := by
  refine forall₂_congr fun t ht => forall₂_congr fun f hf => ?_
  have hhas := hc t ht _ (TypeBody.mem_typeNames_of_mem_fields hf)
  obtain ⟨body, hb⟩ := Option.isSome_iff_exists.1 hhas
  cases body <;> simp [isLeaf, isComposite, hb, TypeBody.isLeaf, TypeBody.isComposite]

/-- No composite type is a leaf. -/
theorem isLeaf_eq_false_of_isComposite (hc : schema.isComposite n = true) :
    schema.isLeaf n = false := by
  refine eq_false_of_ne_true fun hl => ?_
  rw [isComposite_eq_false_of_isLeaf hl] at hc
  cases hc

theorem exists_body?_of_isComposite (hc : schema.isComposite n = true) :
    ∃ body, schema.body? n = some body ∧ body.isComposite = true := by
  cases hb : schema.body? n with
  | none => simp [isComposite, hb] at hc
  | some body => exact ⟨body, rfl, by simpa [isComposite, hb] using hc⟩

/-- The fields of a composite type are looked up by name. -/
theorem fieldType?_eq (hb : schema.body? n = some body) (hc : body.isComposite = true)
    (key : String) :
    schema.fieldType? n key = (body.fields.find? (·.name == key)).map (·.type.name) := by
  rw [fieldType?, hb]
  cases body with
  | object | interface | union => rfl
  | scalar | enum | input => cases hc

/-- A type is narrowed to composite types. -/
theorem Lawful.isComposite_of_mem_narrowings (hl : schema.Lawful)
    (hmembers : schema.MembersSelectable) {implementers : Bool}
    (hm : m ∈ schema.narrowings implementers n) : schema.isComposite m = true := by
  unfold narrowings at hm
  split at hm
  · rename_i members hb
    exact hmembers _ (mem_of_body? hb) m hm
  · split at hm
    · exact hl.isComposite_of_mem_possibleTypes hm
    · cases hm
  · cases hm

/-- A key of a composite type that leads to no leaf leads to a composite type. -/
theorem Lawful.isComposite_of_part? (hl : schema.Lawful) (hfields : schema.FieldsSelectable)
    (hmembers : schema.MembersSelectable) (hc : schema.isComposite n = true) {implementers : Bool}
    (hp : schema.part? implementers n key = some (.composite m)) :
    schema.isComposite m = true := by
  obtain ⟨body, hb, hc⟩ := exists_body?_of_isComposite hc
  rw [part?, fieldType?_eq hb hc] at hp
  cases hf : body.fields.find? (·.name == key) with
  | some f =>
    rw [hf] at hp
    have hsel := hfields _ (mem_of_body? hb) f (List.mem_of_find?_eq_some hf)
    cases hleaf : schema.isLeaf f.type.name with
    | true => simp [hleaf] at hp
    | false =>
      simp only [Option.map_some, hleaf, Bool.false_eq_true, if_false, Option.some.injEq,
        Part.composite.injEq] at hp
      rw [← hp]
      exact hsel.resolve_left (by simp [hleaf])
  | none =>
    simp only [hf, Option.map_none, List.contains_iff_mem] at hp
    split at hp
    · cases hp
      exact hl.isComposite_of_mem_narrowings hmembers ‹_›
    · cases hp

/-- A type is narrowed to types that are no leaves, if no member of a union is one. -/
theorem Lawful.isLeaf_eq_false_of_mem_narrowings (hl : schema.Lawful)
    (hmembers : schema.NoLeafMembers) {implementers : Bool}
    (hm : m ∈ schema.narrowings implementers n) : schema.isLeaf m = false := by
  unfold narrowings at hm
  split at hm
  · rename_i members hb
    exact hmembers _ (mem_of_body? hb) m hm
  · split at hm
    · exact isLeaf_eq_false_of_isComposite (hl.isComposite_of_mem_possibleTypes hm)
    · cases hm
  · cases hm

/-- A key that leads to no leaf leads to a type that is none, if no member of a union is one. -/
theorem Lawful.isLeaf_eq_false_of_part? (hl : schema.Lawful) (hmembers : schema.NoLeafMembers)
    {implementers : Bool} (hp : schema.part? implementers n key = some (.composite m)) :
    schema.isLeaf m = false := by
  unfold part? at hp
  split at hp
  · split at hp
    · cases hp
    · cases hp
      exact eq_false_of_ne_true ‹_›
  · split at hp
    · rename_i hm
      cases hp
      exact hl.isLeaf_eq_false_of_mem_narrowings hmembers (List.contains_iff_mem.1 hm)
    · cases hp

end Schema

end OperationTools
