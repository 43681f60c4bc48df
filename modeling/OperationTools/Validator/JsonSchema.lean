import OperationTools.Entries
import OperationTools.Validator.Basic

/-!
# Published schemas

Every validator is published as a JSON Schema, written with the keywords `type`, `const`, `enum`,
`anyOf`, `items`, `properties`, `required` and `additionalProperties`. A schema says nothing about
the keys that a validator looks up lazily.

## Main definitions

* `JsonSchema`: the schemas that are published
* `JsonSchema.toJson`: their written form
* `Validator.published`: the schema of a validator
-/

namespace OperationTools

/-- The types that a schema names. -/
inductive SchemaType where
  | string | integer | number | boolean | array | object
deriving DecidableEq, Repr

/-- The name of a type. -/
def SchemaType.name : SchemaType → String
  | .string => "string"
  | .integer => "integer"
  | .number => "number"
  | .boolean => "boolean"
  | .array => "array"
  | .object => "object"

/-- A published schema. -/
inductive JsonSchema where
  /-- The schema without keywords. -/
  | anything
  | ofType (type : SchemaType)
  | oneOfTypes (types : List SchemaType)
  | const (value : Json)
  /-- A string among the given ones. -/
  | enumeration (values : List String)
  | array (items : JsonSchema)
  /-- What a schema admits, or null. -/
  | orNull (schema : JsonSchema)
  /-- An object. The keys of a closed object are among its properties. -/
  | object (properties : List (String × JsonSchema)) (required : List String) (closed : Bool)

namespace JsonSchema

mutual

/-- The written form of a schema. -/
def toJson : JsonSchema → Json
  | .anything => .obj []
  | .ofType type => .obj [("type", .str type.name)]
  | .oneOfTypes types => .obj [("type", .arr (types.map fun type => .str type.name))]
  | .const value => .obj [("const", value)]
  | .enumeration values => .obj [("type", .str "string"), ("enum", .arr (values.map .str))]
  | .array items => .obj [("type", .str "array"), ("items", items.toJson)]
  | .orNull schema =>
    .obj [("anyOf", .arr [schema.toJson, .obj [("type", .str "null")]])]
  | .object properties required closed =>
    .obj ([("type", .str "object"), ("properties", .obj (propertiesToJson properties))] ++
      (if required.isEmpty then [] else [("required", .arr (required.map .str))]) ++
      (if closed then [("additionalProperties", .bool false)] else []))

/-- The written forms of properties. -/
def propertiesToJson : List (String × JsonSchema) → List (String × Json)
  | [] => []
  | (name, schema) :: rest => (name, schema.toJson) :: propertiesToJson rest

end

@[simp] theorem propertiesToJson_eq_map (properties : List (String × JsonSchema)) :
    propertiesToJson properties = properties.map fun e => (e.1, e.2.toJson) := by
  induction properties with
  | nil => rfl
  | cons e rest ih => simp [propertiesToJson, ih]

/-- A schema that admits null besides; the schema without keywords does already. -/
def nullable : JsonSchema → JsonSchema
  | .anything => .anything
  | schema => .orNull schema

end JsonSchema

namespace Validator

mutual

/-- The published schema of a validator. -/
def published : Validator → JsonSchema
  | .any => .anything
  | .string => .ofType .string
  | .integer => .ofType .integer
  | .number => .ofType .number
  | .boolean => .ofType .boolean
  | .literal value => .const value
  | .enumeration values => .enumeration values
  | .list item nullItems =>
    .array (if nullItems then (published item).nullable else published item)
  | .object _ true _ => .ofType .object
  | .object _ false fields =>
    .object (memberSchemas fields) ((fields.filter (!·.optional)).map (·.name)) false
  | .leaf => .ofType .boolean
  | .anySelection => .oneOfTypes [.object, .boolean]
  | .openSelection .. | .lazySelection .. => .ofType .object
  | .strictSelection _ fields fragments =>
    let declared := (childSchemas fields).foldl
      (fun acc e => Entries.insert e.1 e.2 acc) [(typenameKey, .ofType .boolean)]
    let all := (childSchemas fragments).foldl
      (fun acc e => Entries.insertNew e.1 e.2 acc) declared
    .object all [] true

/-- The schemas of the fields of an object; those of optional fields admit null. -/
def memberSchemas : List (Member Validator) → List (String × JsonSchema)
  | [] => []
  | ⟨name, optional, v⟩ :: rest =>
    (name, if optional then (published v).nullable else published v) :: memberSchemas rest

/-- The schemas of the parts of a selection. -/
def childSchemas : List (String × Validator) → List (String × JsonSchema)
  | [] => []
  | (name, v) :: rest => (name, published v) :: childSchemas rest

end

@[simp] theorem memberSchemas_eq_map (fields : List (Member Validator)) :
    memberSchemas fields = fields.map fun m =>
      (m.name, if m.optional then (published m.validator).nullable else published m.validator) := by
  induction fields with
  | nil => rfl
  | cons m rest ih => simp [memberSchemas, ih]

@[simp] theorem childSchemas_eq_map (children : List (String × Validator)) :
    childSchemas children = children.map fun e => (e.1, published e.2) := by
  induction children with
  | nil => rfl
  | cons e rest ih => simp [childSchemas, ih]

end Validator

end OperationTools
