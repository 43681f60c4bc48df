import OperationTools.Schema.Introspection
import OperationTools.Schema.Placement

/-!
# Building a type graph

Definitions that agree with each other make a schema: names are defined once, what is named is
defined, extensions extend a type of their own kind, and directives stand where they may, with the
arguments that they take. The parts that extensions add come after the parts of the definition,
wherever the extensions stand.

## Main definitions

* `SchemaFault`: why definitions do not make a schema
* `Schema.ofDefinitions`: the schema of definitions
* `Schema.ofText`: the schema of a text
-/

namespace OperationTools

/-- Why definitions do not make a schema. -/
inductive SchemaFault where
  | severalSchemas
  | repeatedRoot (kind : OperationKind)
  | repeatedType (name : String)
  | repeatedDirective (name : String)
  | repeatedPart (typeName name : String)
  | repeatedArgument (owner name : String)
  | unknownType (name : String)
  | strayExtension (name : String)
  | directive (fault : DirectiveFault)
  | argumentGivenTwice (name : String)
  | repeatedKey
deriving DecidableEq, Repr

/-- Why a text has no schema. The argument of a note, which tells why something should no longer be
used or where it is specified, has to be a text. -/
inductive SchemaError where
  | malformed
  | invalid (fault : SchemaFault)
  | unreadableNote (directive : String)
deriving DecidableEq, Repr

/-- Whether the note that a directive leaves is a text: that of its first use. Nothing needs to be
given if the argument is optional. -/
def hasReadableNote (rule : DirectiveRule) (uses : List DirectiveUse) : Bool :=
  match uses.find? (·.name == rule.name) with
  | none => true
  | some used =>
    rule.arguments.all fun (name, needed) =>
      match used.arguments.lookup name with
      | none => !needed
      | some (.text _) => true
      | some _ => false

namespace TypeParts

/-- The parts belong to types of the same kind. -/
def sameKind (a b : TypeParts) : Bool := a.location = b.location

/-- The parts of a type with those of an extension after them. -/
def append : TypeParts → TypeParts → TypeParts
  | .object is fs, .object js gs => .object (is ++ js) (fs ++ gs)
  | .interface is fs, .interface js gs => .interface (is ++ js) (fs ++ gs)
  | .union ms, .union ns => .union (ms ++ ns)
  | .enum vs, .enum ws => .enum (vs ++ ws)
  | .input fs, .input gs => .input (fs ++ gs)
  | parts, _ => parts

/-- The names of the fields or values of a type. -/
def partNames : TypeParts → List String
  | .object _ fs | .interface _ fs => fs.map (·.name)
  | .enum vs => vs.map (·.name)
  | .input fs => fs.map (·.name)
  | .scalar | .union _ => []

/-- An argument that a field has twice. -/
def repeatedArgument? : TypeParts → Option (String × String)
  | .object _ fs | .interface _ fs =>
    fs.findSome? fun f =>
      (Entries.firstRepeated? (f.arguments.map (·.name))).map (f.name, ·)
  | _ => none

/-- The values of an enum, unless a note on one of them cannot be read. -/
def valueNames (values : List ValueSource) : Option (List String) :=
  if values.all fun v => hasReadableNote .deprecated v.directives then some (values.map (·.name))
  else none

/-- The type that the parts describe. -/
def body : TypeParts → TypeBody
  | .scalar => .scalar
  | .object is fs => .object is (fs.map field)
  | .interface is fs => .interface is (fs.map field)
  | .union ms => .union ms
  | .enum vs => .enum (valueNames vs)
  | .input fs => .input (fs.map fun f => ⟨f.name, f.type, f.description⟩)
where
  /-- The field that is described. -/
  field (f : FieldSource) : Field :=
    { name := f.name
      type := f.type
      arguments := f.arguments.map fun a => ⟨a.name, a.type, a.description⟩
      description := f.description }

end TypeParts

/-- The rule that a directive definition makes. An argument has to be given if it is non-null and
has no default value. -/
def DirectiveSource.rule (d : DirectiveSource) : DirectiveRule :=
  { name := d.name
    arguments := d.arguments.map fun a => (a.name, a.type.isNonNull && a.default.isNone)
    locations := d.locations
    repeatable := d.repeatable }

namespace Definition

/-- An argument that a directive or a field has twice. -/
def repeatedArgument? : Definition → Option (String × String)
  | .type _ _ _ parts => parts.repeatedArgument?
  | .directive d => (Entries.firstRepeated? (d.arguments.map (·.name))).map (d.name, ·)
  | _ => none

end Definition

/-! ## Notes -/

namespace Definition

/-- The notes in a definition or an extension, each by the directive that leaves it and the uses
among which it is found: on what should no longer be used among fields, arguments and input fields,
and on where a scalar is specified. Types that every schema has are not looked at. -/
def notes (known : List String) : Definition → List (DirectiveRule × List DirectiveUse)
  | .type _ name used parts =>
    if known.contains name then []
    else
      match parts with
      | .scalar => [(.specifiedBy, used)]
      | parts => (parts.sites.filter (·.location ≠ .enumValue)).map fun s => (.deprecated, s.uses)
  | .directive d => d.arguments.map fun a => (.deprecated, a.directives)
  | _ => []

end Definition

namespace Schema

/-- The types that every schema has or may have without defining them. -/
def standardTypes : List String := builtInScalars ++ Introspection.types.map (·.name)

/-- The types that are defined, each with the parts of its extensions. -/
def mergedTypes (definitions : List Definition) : List (String × TypeParts) :=
  let extensions := definitions.filterMap Definition.extended?
  (definitions.filterMap Definition.defined?).map fun (name, parts) =>
    (name, (extensions.filter (·.1 == name)).foldl (fun acc e => acc.append e.2) parts)

/-- Why definitions do not make a schema, if they do not. -/
def fault? (definitions : List Definition) : Option SchemaFault :=
  let defined := definitions.filterMap Definition.defined?
  let extensions := definitions.filterMap Definition.extended?
  let directives := definitions.filterMap Definition.directive?
  let named := defined.map (·.1)
  let strayExtension := extensions.find? fun e =>
    !defined.any fun d => d.1 == e.1 && d.2.sameKind e.2
  let rules := directives.map DirectiveSource.rule ++ DirectiveRule.builtIn
  -- one fault is enough, so only the first one is given
  let checks : List (Option SchemaFault) := [
    if 1 < definitions.countP Definition.isSchema then some .severalSchemas else none,
    (Entries.firstRepeated? (definitions.flatMap fun d => d.roots.map (·.1))).map .repeatedRoot,
    (Entries.firstRepeated? named).map .repeatedType,
    (Entries.firstRepeated? (directives.map (·.name))).map .repeatedDirective,
    strayExtension.map fun e => .strayExtension e.1,
    (mergedTypes definitions).findSome? fun (name, parts) =>
      (Entries.firstRepeated? parts.partNames).map (.repeatedPart name),
    (definitions.findSome? Definition.repeatedArgument?).map fun (owner, name) =>
      .repeatedArgument owner name,
    ((definitions.flatMap Definition.typeNames).find? fun name =>
      !(standardTypes ++ named).contains name).map .unknownType,
    -- requests see only what is defined
    ((definitions.flatMap Definition.requestTypeNames).find? (!named.contains ·)).map .unknownType,
    (DirectiveRule.fault? rules (definitions.flatMap Definition.sites)).map .directive,
    ((definitions.flatMap Definition.argumentLists).findSome? fun given =>
      Entries.firstRepeated? (given.map (·.1))).map .argumentGivenTwice,
    if (definitions.flatMap Definition.literals).any Literal.repeatsKey then some .repeatedKey
    else none]
  checks.findSome? id

/-- The root types. Those that the definitions list stand; without a definition of the schema itself
a type with the default name of a root comes first. -/
def rootsOf (definitions : List Definition) (names : List String) :
    List (OperationKind × String) :=
  let listed := definitions.flatMap Definition.roots
  let isDefined := definitions.any Definition.isSchema
  OperationKind.all.filterMap fun kind =>
    if !isDefined && names.contains kind.defaultRoot then some (kind, kind.defaultRoot)
    else (listed.lookup kind).map (kind, ·)

/-- The built-in scalars that are in use: those of the introspection types, those that are defined
once more, and those that types, directives and roots name. -/
def usedScalars (definitions : List Definition) (own : List (String × TypeParts))
    (roots : List (OperationKind × String)) : List TypeDefinition :=
  let named := ["String", "Boolean"] ++ (definitions.filterMap Definition.defined?).map (·.1) ++
    own.flatMap (·.2.typeNames) ++
    (definitions.filterMap Definition.directive?).flatMap (·.arguments.map (·.type.name)) ++
    roots.map (·.2)
  (builtInScalars.filter named.contains).map fun name => ⟨name, .scalar⟩

/-- The schema of definitions that agree with each other. A type that every schema has cannot be
redefined; its definitions are without effect. -/
def assemble (definitions : List Definition) : Schema :=
  let merged := mergedTypes definitions
  let own := merged.filter fun (name, _) => !standardTypes.contains name
  let roots := rootsOf definitions (merged.map (·.1))
  { types := own.map (fun (name, parts) => ⟨name, parts.body⟩) ++ Introspection.types ++
      usedScalars definitions own roots
    roots }

/-- The notes that directives leave in definitions, and those on the directives that are defined:
what stands at the definition of a directive comes before what its extensions add. -/
def notes (definitions : List Definition) : List (DirectiveRule × List DirectiveUse) :=
  let extensions := definitions.filterMap Definition.directiveExtension?
  definitions.flatMap (Definition.notes standardTypes) ++
    (definitions.filterMap Definition.directive?).map fun d =>
      (.deprecated, d.directives ++ (extensions.filter (·.1 == d.name)).flatMap (·.2))

/-- The schema that definitions make. -/
def ofDefinitions (definitions : List Definition) : Except SchemaError Schema :=
  match fault? definitions with
  | some fault => .error (.invalid fault)
  | none =>
    match (notes definitions).find? fun (rule, uses) => !hasReadableNote rule uses with
    | some (rule, _) => .error (.unreadableNote rule.name)
    | none => .ok (assemble definitions)

/-- The schema of a text. -/
def ofText (text : String) : Except SchemaError Schema :=
  match Definition.ofText? text with
  | none => .error .malformed
  | some definitions => ofDefinitions definitions

/-- The names of a schema's own types in ascending order: the built-in scalars and those reserved
for introspection are left out. -/
def typeNames (schema : Schema) : List String :=
  ((schema.types.map (·.name)).filter fun name =>
    !name.startsWith "__" && !builtInScalars.contains name).mergeSort (· ≤ ·)

end Schema

end OperationTools
