import OperationTools.Schema.Basic

/-!
# Introspection types

Every schema has types that describe schemas: their types, fields, arguments, enum values and
directives.

## Main definitions

* `Introspection.types`: the types that describe schemas
-/

namespace OperationTools.Introspection

/-- The reference to a type that is not null. -/
def needed (name : String) : TypeRef := .nonNull (.named name)

/-- The reference to a list without nulls. -/
def listOf (name : String) : TypeRef := .list (needed name)

/-- A field without arguments. -/
def plain (name : String) (type : TypeRef) (description : Option String := none) : Field :=
  { name, type, description }

/-- A field with a switch that includes what should no longer be used. -/
def switched (name : String) (type : TypeRef) (description : Option String := none) : Field :=
  { name, type, arguments := [⟨"includeDeprecated", needed "Boolean", none⟩], description }

/-- An optional text. -/
def text (name : String) : Field := plain name (.named "String")

/-- Whether something should no longer be used, and why. -/
def deprecation : List Field :=
  [plain "isDeprecated" (needed "Boolean"), text "deprecationReason"]

/-- An object type. -/
def object (name : String) (fields : List Field) : TypeDefinition := ⟨name, .object [] fields⟩

/-- The type that describes a schema. -/
def schemaType : TypeDefinition := object "__Schema" [
  text "description",
  plain "types" (.nonNull (listOf "__Type"))
    (some "A list of all types supported by this server."),
  plain "queryType" (needed "__Type") (some "The type that query operations will be rooted at."),
  plain "mutationType" (.named "__Type") (some
    ("If this server supports mutation, the type that mutation operations will be rooted at.")),
  plain "subscriptionType" (.named "__Type") (some
    ("If this server supports subscription, " ++
      "the type that subscription operations will be rooted at.")),
  switched "directives" (.nonNull (listOf "__Directive"))
    (some "A list of all directives supported by this server.")]

/-- The type that describes a type. -/
def typeType : TypeDefinition := object "__Type" [
  plain "kind" (needed "__TypeKind"), text "name", text "description", text "specifiedByURL",
  switched "fields" (listOf "__Field"), plain "interfaces" (listOf "__Type"),
  plain "possibleTypes" (listOf "__Type"), switched "enumValues" (listOf "__EnumValue"),
  switched "inputFields" (listOf "__InputValue"), plain "ofType" (.named "__Type"),
  plain "isOneOf" (.named "Boolean")]

/-- The type that describes the kinds of types. -/
def typeKindType : TypeDefinition := ⟨"__TypeKind", .enum <| some
  ["SCALAR", "OBJECT", "INTERFACE", "UNION", "ENUM", "INPUT_OBJECT", "LIST", "NON_NULL"]⟩

/-- The type that describes a field. -/
def fieldType : TypeDefinition := object "__Field" ([
  plain "name" (needed "String"), text "description",
  switched "args" (.nonNull (listOf "__InputValue")), plain "type" (needed "__Type")]
    ++ deprecation)

/-- The type that describes an argument or input field. -/
def inputValueType : TypeDefinition := object "__InputValue" ([
  plain "name" (needed "String"), text "description", plain "type" (needed "__Type"),
  plain "defaultValue" (.named "String") (some
    ("A GraphQL-formatted string representing the default value for this input value."))]
    ++ deprecation)

/-- The type that describes an enum value. -/
def enumValueType : TypeDefinition := object "__EnumValue" ([
  plain "name" (needed "String"), text "description"] ++ deprecation)

/-- The type that describes a directive. -/
def directiveType : TypeDefinition := object "__Directive" ([
  plain "name" (needed "String"), text "description", plain "isRepeatable" (needed "Boolean"),
  plain "locations" (.nonNull (listOf "__DirectiveLocation")),
  switched "args" (.nonNull (listOf "__InputValue"))] ++ deprecation)

/-- The type that describes the places where directives stand. -/
def directiveLocationType : TypeDefinition := ⟨"__DirectiveLocation", .enum <| some
  ["QUERY", "MUTATION", "SUBSCRIPTION", "FIELD", "FRAGMENT_DEFINITION", "FRAGMENT_SPREAD",
    "INLINE_FRAGMENT", "VARIABLE_DEFINITION", "FRAGMENT_VARIABLE_DEFINITION", "SCHEMA", "SCALAR",
    "OBJECT", "FIELD_DEFINITION", "ARGUMENT_DEFINITION", "INTERFACE", "UNION", "ENUM",
    "ENUM_VALUE", "INPUT_OBJECT", "INPUT_FIELD_DEFINITION", "DIRECTIVE_DEFINITION"]⟩

/-- The types that describe schemas. -/
def types : List TypeDefinition :=
  [schemaType, directiveType, directiveLocationType, typeType, fieldType, inputValueType,
    enumValueType, typeKindType]

end OperationTools.Introspection
