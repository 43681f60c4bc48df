/-!
# Type graphs

A schema is a list of named types in the order of their definition, with a root type for each kind
of operation. A type reference names a type, possibly inside lists and non-null marks.

## Main definitions

* `TypeRef`: references, their literals and their named types
* `Field`, `InputField`, `Argument`: the parts of types
* `TypeBody`, `TypeDefinition`: named types
* `OperationKind`, `Schema`: type graphs and their roots
* `Schema.body?`: the type of a name
* `Schema.possibleTypes`: the object types that implement an interface
* `Schema.part?`: what a key of a selection stands for
-/

namespace OperationTools

/-! ## References -/

/-- A reference to a type. -/
inductive TypeRef where
  | named (name : String)
  | list (item : TypeRef)
  | nonNull (inner : TypeRef)
deriving DecidableEq, Repr, Inhabited

namespace TypeRef

/-- The literal of a reference. -/
def literal : TypeRef → String
  | .named name => name
  | .list item => "[" ++ item.literal ++ "]"
  | .nonNull inner => inner.literal ++ "!"

/-- The name inside all marks. -/
def name : TypeRef → String
  | .named name => name
  | .list item => item.name
  | .nonNull inner => inner.name

@[simp] theorem name_named (name : String) : (named name).name = name := rfl

@[simp] theorem name_list (item : TypeRef) : (list item).name = item.name := rfl

@[simp] theorem name_nonNull (inner : TypeRef) : (nonNull inner).name = inner.name := rfl

/-- Whether the outermost mark is non-null. -/
def isNonNull : TypeRef → Bool
  | .nonNull _ => true
  | _ => false

/-- Whether the reference is to a list, non-null or not. -/
def isList : TypeRef → Bool
  | .list _ | .nonNull (.list _) => true
  | _ => false

end TypeRef

/-! ## Types -/

/-- An argument of a field. -/
structure Argument where
  name : String
  type : TypeRef
  description : Option String := none
deriving DecidableEq, Repr

/-- A field of an object or interface type. -/
structure Field where
  name : String
  type : TypeRef
  arguments : List Argument := []
  description : Option String := none
deriving DecidableEq, Repr

/-- Whether a field cannot be asked for without an argument. -/
def Field.needsArguments (f : Field) : Bool :=
  f.arguments.any (·.type.isNonNull)

/-- A field of an input object type. -/
structure InputField where
  name : String
  type : TypeRef
  description : Option String := none
deriving DecidableEq, Repr

/-- What a named type is. -/
inductive TypeBody where
  | scalar
  | object (interfaces : List String) (fields : List Field)
  | interface (interfaces : List String) (fields : List Field)
  | union (members : List String)
  /-- The values of an enum cannot be told if a note on one of them cannot be read. -/
  | enum (values : Option (List String))
  | input (fields : List InputField)
deriving DecidableEq, Repr

namespace TypeBody

/-- Scalars and enums are leaves: they have no selection. -/
def isLeaf : TypeBody → Bool
  | .scalar | .enum _ => true
  | _ => false

/-- Objects, interfaces and unions are composite: they are selected part by part. -/
def isComposite : TypeBody → Bool
  | .object .. | .interface .. | .union _ => true
  | _ => false

/-- The fields of an object or interface type. -/
def fields : TypeBody → List Field
  | .object _ fs | .interface _ fs => fs
  | _ => []

/-- The interfaces that an object or interface type implements. -/
def interfaces : TypeBody → List String
  | .object is _ | .interface is _ => is
  | _ => []

end TypeBody

/-- A named type. -/
structure TypeDefinition where
  name : String
  body : TypeBody
deriving DecidableEq, Repr

/-! ## Schemas -/

/-- The kinds of operations. -/
inductive OperationKind where
  | query | mutation | subscription
deriving DecidableEq, Repr

namespace OperationKind

/-- The keyword of a kind. -/
def keyword : OperationKind → String
  | .query => "query"
  | .mutation => "mutation"
  | .subscription => "subscription"

/-- The kind of a keyword. -/
def ofKeyword? : String → Option OperationKind
  | "query" => some .query
  | "mutation" => some .mutation
  | "subscription" => some .subscription
  | _ => none

@[simp] theorem ofKeyword?_keyword (kind : OperationKind) :
    ofKeyword? kind.keyword = some kind := by
  cases kind <;> rfl

/-- All kinds, in the order in which operations are listed. -/
def all : List OperationKind := [.query, .mutation, .subscription]

theorem mem_all (kind : OperationKind) : kind ∈ all := by
  cases kind <;> decide

/-- The name of the root type of a kind, where none is declared. -/
def defaultRoot : OperationKind → String
  | .query => "Query"
  | .mutation => "Mutation"
  | .subscription => "Subscription"

end OperationKind

/-- A type graph: its types, those that are built in and used among them, and its root types. -/
structure Schema where
  types : List TypeDefinition
  roots : List (OperationKind × String)
deriving DecidableEq, Repr

/-- The scalars that every schema has. -/
def builtInScalars : List String := ["String", "Int", "Float", "Boolean", "ID"]

namespace Schema

/-- The type of a name. -/
def body? (schema : Schema) (name : String) : Option TypeBody :=
  (schema.types.find? (·.name == name)).map (·.body)

/-- Whether a name is that of a type of the schema. -/
def has (schema : Schema) (name : String) : Bool := (schema.body? name).isSome

/-- The name of the root type of a kind. -/
def root? (schema : Schema) (kind : OperationKind) : Option String :=
  schema.roots.lookup kind

/-- Whether a name is that of a scalar or enum. -/
def isLeaf (schema : Schema) (name : String) : Bool :=
  (schema.body? name).any (·.isLeaf)

/-- Whether a name is that of an object, interface or union. -/
def isComposite (schema : Schema) (name : String) : Bool :=
  (schema.body? name).any (·.isComposite)

/-- No type is both a leaf and composite. Input objects are neither. -/
theorem isComposite_eq_false_of_isLeaf {schema : Schema} {name : String}
    (h : schema.isLeaf name = true) : schema.isComposite name = false := by
  unfold isLeaf at h
  unfold isComposite
  cases hb : schema.body? name with
  | none => rfl
  | some body => cases body <;> simp_all [TypeBody.isLeaf, TypeBody.isComposite]

/-- The names of the object types that implement an interface, in the order of their definition. An
object type that lists the interface twice is named twice. -/
def possibleTypes (schema : Schema) (interface : String) : List String :=
  schema.types.flatMap fun t =>
    match t.body with
    | .object interfaces _ => (interfaces.filter (· == interface)).map fun _ => t.name
    | _ => []

end Schema

/-! ## Keys of a selection -/

/-- The key under which every composite type tells its name. -/
def typenameKey : String := "__typename"

/-- What a key of a selection stands for. -/
inductive Part where
  | leaf
  | composite (typeName : String)
deriving DecidableEq, Repr

namespace Schema

/-- The named type of a field or input field. -/
def fieldType? (schema : Schema) (typeName key : String) : Option String :=
  match schema.body? typeName with
  | some (.object _ fields) | some (.interface _ fields) =>
    (fields.find? (·.name == key)).map (·.type.name)
  | some (.input fields) => (fields.find? (·.name == key)).map (·.type.name)
  | _ => none

/-- The names under which a type is narrowed: the members of a union and, if asked for, the object
types that implement an interface. -/
def narrowings (schema : Schema) (implementers : Bool) (typeName : String) : List String :=
  match schema.body? typeName with
  | some (.union members) => members
  | some (.interface ..) => if implementers then schema.possibleTypes typeName else []
  | _ => []

/-- What a key stands for in a selection on a type: a field, else a narrowing. A field is a leaf if
its named type is a scalar or enum. -/
def part? (schema : Schema) (implementers : Bool) (typeName key : String) : Option Part :=
  match schema.fieldType? typeName key with
  | some name => some (if schema.isLeaf name then .leaf else .composite name)
  | none =>
    if (schema.narrowings implementers typeName).contains key then some (.composite key) else none

end Schema

end OperationTools
