import OperationTools.Entries
import OperationTools.Json.Comparison
import OperationTools.Validator.JsonSchema

/-!
# What published schemas say

A schema is read as any consumer of JSON Schema reads it, from its written form alone. A keyword
restrains the values of one kind and lets all others pass; what is no keyword here, such as
`default`, says nothing. The truth values are schemas as well: `true` admits everything and `false`
nothing.

Values are compared as the standard compares them: numbers by their magnitude, objects key by key in
any order, and a truth value is no number. An integer is a number without a fractional part, however
it is written.

## Main definitions

* `Json.typeNames`: the names of the types that a value has
* `Json.equals`: whether two values are equal
* `Json.satisfies`: whether a value satisfies a schema

## Main results

* `JsonSchema.satisfies_array_iff`, `JsonSchema.satisfies_nullable_iff`,
  `JsonSchema.satisfies_object_iff`: what published schemas say, read off their written form
-/

namespace OperationTools

namespace Json

/-- The names of the types that a value has. -/
def typeNames : Json → List String
  | .null => ["null"]
  | .bool _ => ["boolean"]
  | .int _ => ["integer", "number"]
  | .float y => (if y.toInt?.isSome then ["integer"] else []) ++ ["number"]
  | .str _ => ["string"]
  | .arr _ => ["array"]
  | .obj _ => ["object"]

/-- Whether two values without parts are equal. -/
def equalScalars : Json → Json → Bool
  | .bool a, .bool b => a == b
  | .bool _, _ | _, .bool _ => false
  | x, y => x.sameScalar y

mutual

/-- Whether two values are equal. -/
def equals : Json → Json → Bool
  | .arr xs, .arr ys => equalItems xs ys
  | .obj xs, .obj ys => xs.length == ys.length && equalEntries xs ys
  | x, y => equalScalars x y

/-- Whether the items of two arrays are equal, one by one. -/
def equalItems : List Json → List Json → Bool
  | [], [] => true
  | x :: xs, y :: ys => equals x y && equalItems xs ys
  | _, _ => false

/-- Whether the entries of an object are found among those of another one. -/
def equalEntries : List (String × Json) → List (String × Json) → Bool
  | [], _ => true
  | (key, x) :: rest, ys => (ys.lookup key).any (fun y => equals x y) && equalEntries rest ys

end

/-- A text is equal to itself alone. -/
@[simp] theorem equals_str_iff {x : Json} {s : String} : x.equals (.str s) = true ↔ x = .str s := by
  cases x <;> simp [equals, equalScalars, sameScalar, integer?]

section TypeNames

variable {x : Json}

theorem mem_typeNames_string_iff : "string" ∈ x.typeNames ↔ ∃ s, x = .str s := by
  cases x <;> simp [typeNames]

theorem mem_typeNames_array_iff : "array" ∈ x.typeNames ↔ ∃ items, x = .arr items := by
  cases x <;> simp [typeNames]

theorem mem_typeNames_object_iff : "object" ∈ x.typeNames ↔ ∃ entries, x = .obj entries := by
  cases x <;> simp [typeNames]

theorem mem_typeNames_null_iff : "null" ∈ x.typeNames ↔ x = .null := by
  cases x <;> simp [typeNames]

end TypeNames

/-- The items of an array; any other value has none. -/
def items : Json → List Json
  | .arr items => items
  | _ => []

/-- Whether a value has a type of the given name. -/
def hasType (x : Json) : Json → Bool
  | .str name => x.typeNames.contains name
  | _ => false

/-- Whether an object has an entry under the given key. -/
def hasKey (x : Json) : Json → Bool
  | .str key => (x.entries.lookup key).isSome
  | _ => false

mutual

/-- Whether a value satisfies a schema. -/
def satisfies (x : Json) : Json → Bool
  | .bool admitted => admitted
  | .obj keywords =>
    satisfiesAll x (((keywords.lookup "properties").getD .null).entries.map (·.1)) keywords
  | _ => false
termination_by structural schema => schema

/-- Whether a value satisfies every keyword of a schema with the given properties. -/
def satisfiesAll (x : Json) (properties : List String) : List (String × Json) → Bool
  | [] => true
  | keyword :: rest => satisfiesKeyword x properties keyword && satisfiesAll x properties rest
termination_by structural keywords => keywords

/-- Whether a value satisfies one keyword of a schema with the given properties. -/
def satisfiesKeyword (x : Json) (properties : List String) : String × Json → Bool
  | ("type", .arr names) => names.any fun name => x.hasType name
  | ("type", name) => x.hasType name
  | ("const", value) => x.equals value
  | ("enum", .arr values) => values.any fun value => x.equals value
  | ("anyOf", .arr schemas) => satisfiesAny x schemas
  | ("items", schema) => x.items.all fun y => satisfies y schema
  | ("properties", .obj schemas) => entriesSatisfy x schemas
  | ("required", .arr keys) => x.kind != .object || keys.all fun key => x.hasKey key
  | ("additionalProperties", schema) =>
    x.entries.all fun e => properties.contains e.1 || satisfies e.2 schema
  | _ => true
termination_by structural keyword => keyword

/-- Whether a value satisfies one of several schemas. -/
def satisfiesAny (x : Json) : List Json → Bool
  | [] => false
  | schema :: rest => satisfies x schema || satisfiesAny x rest
termination_by structural schemas => schemas

/-- Whether the entries of an object satisfy the schemas that are given for their keys. -/
def entriesSatisfy (x : Json) : List (String × Json) → Bool
  | [] => true
  | (key, schema) :: rest =>
    ((x.entries.lookup key).all fun y => satisfies y schema) && entriesSatisfy x rest
termination_by structural schemas => schemas

end

theorem satisfiesAll_append (x : Json) (properties : List String)
    (keywords others : List (String × Json)) :
    satisfiesAll x properties (keywords ++ others) =
      (satisfiesAll x properties keywords && satisfiesAll x properties others) := by
  induction keywords with
  | nil => simp [satisfiesAll]
  | cons keyword rest ih => simp [satisfiesAll, ih, Bool.and_assoc]

theorem entriesSatisfy_iff {x : Json} {schemas : List (String × Json)} :
    entriesSatisfy x schemas = true ↔
      ∀ e ∈ schemas, ∀ y, x.entries.lookup e.1 = some y → y.satisfies e.2 = true := by
  induction schemas with
  | nil => simp [entriesSatisfy]
  | cons e rest ih =>
    rw [entriesSatisfy, Bool.and_eq_true, ih, List.forall_mem_cons]
    apply and_congr_left'
    cases x.entries.lookup e.1 <;> simp

end Json

namespace JsonSchema

open Json

-- the equations of the keywords are needed in all that follows
attribute [local simp] toJson satisfies satisfiesAll satisfiesKeyword

variable {x : Json}

@[simp] theorem satisfies_anything : x.satisfies anything.toJson = true := by
  simp

theorem satisfies_ofType_iff {type : SchemaType} :
    x.satisfies (ofType type).toJson = true ↔ type.name ∈ x.typeNames := by
  simp [hasType]

theorem satisfies_oneOfTypes_iff {types : List SchemaType} :
    x.satisfies (oneOfTypes types).toJson = true ↔ ∃ type ∈ types, type.name ∈ x.typeNames := by
  simp [hasType]

theorem satisfies_const_iff {value : Json} :
    x.satisfies (const value).toJson = true ↔ x.equals value = true := by
  simp

theorem satisfies_enumeration_iff {values : List String} :
    x.satisfies (enumeration values).toJson = true ↔ ∃ s ∈ values, x = .str s := by
  simp only [toJson, satisfies, satisfiesAll, satisfiesKeyword, hasType, List.any_map,
    List.any_eq_true, Function.comp_apply, equals_str_iff, Bool.and_eq_true, Bool.and_true,
    List.contains_iff_mem, mem_typeNames_string_iff, and_iff_right_iff_imp]
  rintro ⟨s, -, rfl⟩
  exact ⟨s, rfl⟩

theorem satisfies_array_iff {schema : JsonSchema} :
    x.satisfies (array schema).toJson = true ↔
      ∃ items, x = .arr items ∧ ∀ y ∈ items, y.satisfies schema.toJson = true := by
  simp only [toJson, satisfies, satisfiesAll, satisfiesKeyword, hasType, Bool.and_eq_true,
    Bool.and_true, List.contains_iff_mem, mem_typeNames_array_iff, List.all_eq_true]
  constructor
  · rintro ⟨⟨items, rfl⟩, h⟩
    exact ⟨items, rfl, h⟩
  · rintro ⟨items, rfl, h⟩
    exact ⟨⟨items, rfl⟩, h⟩

theorem satisfies_orNull_iff {schema : JsonSchema} :
    x.satisfies (orNull schema).toJson = true ↔ x = .null ∨ x.satisfies schema.toJson = true := by
  simp only [toJson, satisfies, satisfiesAll, satisfiesKeyword, satisfiesAny, hasType,
    Bool.or_eq_true, Bool.and_true, Bool.or_false, List.contains_iff_mem, mem_typeNames_null_iff]
  exact or_comm

/-- A schema that is made nullable admits null besides what it admits. -/
theorem satisfies_nullable_iff {schema : JsonSchema} :
    x.satisfies schema.nullable.toJson = true ↔ x = .null ∨ x.satisfies schema.toJson = true := by
  cases schema with
  | anything => simp [nullable]
  | _ => exact satisfies_orNull_iff

/-- An object satisfies the schema of its properties if what stands under each of them satisfies its
own schema and none is missing that is required. A closed schema admits no other keys. -/
theorem satisfies_object_iff {properties : List (String × JsonSchema)} {required : List String}
    {closed : Bool} :
    x.satisfies (object properties required closed).toJson = true ↔
      ∃ entries, x = .obj entries ∧
        (∀ e ∈ properties, ∀ y, entries.lookup e.1 = some y → y.satisfies e.2.toJson = true) ∧
        (∀ key ∈ required, (entries.lookup key).isSome = true) ∧
        (closed = true → ∀ e ∈ entries, e.1 ∈ properties.map (·.1)) := by
  have hnames : ((((object properties required closed).toJson.entries.lookup "properties").getD
      .null).entries.map (·.1)) = properties.map (·.1) := by
    simp [List.lookup_cons]
  have hrequired : satisfiesAll x (properties.map (·.1))
      (if required.isEmpty then [] else [("required", .arr (required.map .str))]) = true ↔
        (x.kind = .object → ∀ key ∈ required, (x.entries.lookup key).isSome = true) := by
    cases required with
    | nil => simp
    | cons key rest =>
      simp only [List.isEmpty_cons, Bool.false_eq_true, if_false, satisfiesAll, satisfiesKeyword,
        hasKey, Bool.and_true, Bool.or_eq_true, bne_iff_ne, List.all_eq_true, List.forall_mem_map]
      exact Decidable.imp_iff_not_or.symm
  have hclosed : satisfiesAll x (properties.map (·.1))
      (if closed then [("additionalProperties", .bool false)] else []) = true ↔
        (closed = true → ∀ e ∈ x.entries, e.1 ∈ properties.map (·.1)) := by
    cases closed <;> simp
  rw [toJson, Json.entries_obj] at hnames
  rw [toJson, satisfies, hnames, satisfiesAll_append, satisfiesAll_append, Bool.and_eq_true,
    Bool.and_eq_true, hrequired, hclosed]
  simp only [satisfiesAll, satisfiesKeyword, hasType, Bool.and_eq_true, Bool.and_true,
    List.contains_iff_mem, mem_typeNames_object_iff, entriesSatisfy_iff, propertiesToJson_eq_map,
    List.forall_mem_map]
  constructor
  · rintro ⟨⟨⟨⟨entries, rfl⟩, hproperties⟩, hkeys⟩, hknown⟩
    exact ⟨entries, rfl, hproperties, hkeys rfl, hknown⟩
  · rintro ⟨entries, rfl, hproperties, hkeys, hknown⟩
    exact ⟨⟨⟨⟨entries, rfl⟩, hproperties⟩, fun _ => hkeys⟩, hknown⟩

end JsonSchema

end OperationTools
