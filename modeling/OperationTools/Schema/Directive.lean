import OperationTools.Language.Request

/-!
# Directives

A directive is defined with the places where it may stand, the arguments it takes, and whether it
may stand at one place more than once. Some directives are defined in every schema, unless a schema
defines them itself.

## Main definitions

* `DirectiveLocation`: the places where directives stand
* `DirectiveRule`, `DirectiveRule.builtIn`: definitions of directives
* `Site`: something that directives are attached to
* `DirectiveRule.misuse?`: what is wrong with a directive
* `Request.sites`: what directives are attached to in a request
-/

namespace OperationTools

/-! ## Locations -/

/-- A place where a directive may stand. -/
inductive DirectiveLocation where
  | query | mutation | subscription | field | fragmentDefinition | fragmentSpread | inlineFragment
  | variableDefinition | fragmentVariableDefinition | schema | scalar | object | fieldDefinition
  | argumentDefinition | interface | union | enum | enumValue | inputObject | inputFieldDefinition
  | directiveDefinition
deriving DecidableEq, Repr

namespace DirectiveLocation

/-- The words for the locations. -/
def names : List (String × DirectiveLocation) :=
  [("QUERY", .query), ("MUTATION", .mutation), ("SUBSCRIPTION", .subscription),
    ("FIELD", .field), ("FRAGMENT_DEFINITION", .fragmentDefinition),
    ("FRAGMENT_SPREAD", .fragmentSpread), ("INLINE_FRAGMENT", .inlineFragment),
    ("VARIABLE_DEFINITION", .variableDefinition),
    ("FRAGMENT_VARIABLE_DEFINITION", .fragmentVariableDefinition), ("SCHEMA", .schema),
    ("SCALAR", .scalar), ("OBJECT", .object), ("FIELD_DEFINITION", .fieldDefinition),
    ("ARGUMENT_DEFINITION", .argumentDefinition), ("INTERFACE", .interface), ("UNION", .union),
    ("ENUM", .enum), ("ENUM_VALUE", .enumValue), ("INPUT_OBJECT", .inputObject),
    ("INPUT_FIELD_DEFINITION", .inputFieldDefinition),
    ("DIRECTIVE_DEFINITION", .directiveDefinition)]

/-- The location of a word. -/
def ofName? (word : String) : Option DirectiveLocation := names.lookup word

/-- The location of a kind of operations. -/
def ofKind : OperationKind → DirectiveLocation
  | .query => .query
  | .mutation => .mutation
  | .subscription => .subscription

end DirectiveLocation

/-! ## Rules -/

/-- The definition of a directive. Of each argument it tells whether it has to be given. -/
structure DirectiveRule where
  name : String
  arguments : List (String × Bool)
  locations : List DirectiveLocation
  repeatable : Bool := false
deriving DecidableEq, Repr

/-- What may be wrong with directives. -/
inductive DirectiveFault where
  | unknown (name : String)
  | misplaced (name : String) (location : DirectiveLocation)
  | unknownArgument (name argument : String)
  | missingArgument (name argument : String)
  | repeated (name : String)
deriving DecidableEq, Repr

/-- What the uses of directives belong to. The uses at the definition and the extensions of a
schema, a type or a directive are counted together. -/
inductive SiteOwner where
  | schema
  | type (name : String)
  | directive (name : String)
  | itself
deriving DecidableEq, Repr

/-- Something that directives are attached to. -/
structure Site where
  location : DirectiveLocation
  uses : List DirectiveUse
  owner : SiteOwner := .itself

namespace DirectiveRule

/-- The directive that leaves parts out, and the one that keeps them. -/
def conditional (name : String) : DirectiveRule :=
  { name, arguments := [("if", true)], locations := [.field, .fragmentSpread, .inlineFragment] }

/-- The directive that marks what should no longer be used. -/
def deprecated : DirectiveRule :=
  { name := "deprecated"
    arguments := [("reason", false)]
    locations := [.fieldDefinition, .argumentDefinition, .inputFieldDefinition, .enumValue,
      .directiveDefinition] }

/-- The directive that tells where a scalar is specified. -/
def specifiedBy : DirectiveRule :=
  { name := "specifiedBy", arguments := [("url", true)], locations := [.scalar] }

/-- The directive that marks inputs of which exactly one field is given. -/
def oneOf : DirectiveRule := { name := "oneOf", arguments := [], locations := [.inputObject] }

/-- The directives that every schema has. -/
def builtIn : List DirectiveRule :=
  [conditional "include", conditional "skip", deprecated, specifiedBy, oneOf]

/-- The rule for a name: the first one, so that rules that come before others replace them. -/
def find? (rules : List DirectiveRule) (name : String) : Option DirectiveRule :=
  rules.find? (·.name == name)

/-- What is wrong with a directive at a location. -/
def misuse? (rules : List DirectiveRule) (location : DirectiveLocation) (used : DirectiveUse) :
    Option DirectiveFault :=
  match find? rules used.name with
  | none => some (.unknown used.name)
  | some rule =>
    let given := used.arguments.map (·.1)
    if !rule.locations.contains location then some (.misplaced used.name location)
    else
      match given.find? fun name => !rule.arguments.any (·.1 == name) with
      | some name => some (.unknownArgument used.name name)
      | none =>
        (rule.arguments.find? fun (name, needed) => needed && !given.contains name).map
          fun (name, _) => .missingArgument used.name name

/-- A directive that is repeated among several uses and may not be. -/
def repetition? (rules : List DirectiveRule) (uses : List DirectiveUse) : Option DirectiveFault :=
  let single := (uses.map (·.name)).filter fun name =>
    (find? rules name).any fun rule => !rule.repeatable
  (Entries.firstRepeated? single).map .repeated

/-- All uses with the owner of a site. -/
def usesTogether (sites : List Site) (site : Site) : List DirectiveUse :=
  if site.owner = .itself then site.uses
  else (sites.filter (·.owner = site.owner)).flatMap (·.uses)

/-- What is wrong with the directives at sites. -/
def fault? (rules : List DirectiveRule) (sites : List Site) : Option DirectiveFault :=
  sites.findSome? fun site =>
    (site.uses.findSome? (misuse? rules site.location)).or
      (repetition? rules (usesTogether sites site))

end DirectiveRule

/-! ## Requests -/

namespace Request

mutual

/-- What directives are attached to in a part. -/
def partSites : RequestPart → List Site
  | .field _ used parts => ⟨.field, used, .itself⟩ :: partsSites parts
  | .spread used => [⟨.fragmentSpread, used, .itself⟩]
  | .narrowing _ used parts => ⟨.inlineFragment, used, .itself⟩ :: partsSites parts

/-- What directives are attached to in parts. -/
def partsSites : List RequestPart → List Site
  | [] => []
  | p :: rest => partSites p ++ partsSites rest

end

/-- What directives are attached to in a request. -/
def sites : Request → List Site
  | .operation kind declared used parts =>
    ⟨.ofKind kind, used, .itself⟩ ::
      (declared.map fun v => ⟨.variableDefinition, v.directives, .itself⟩) ++ partsSites parts
  | .fragment _ used parts => ⟨.fragmentDefinition, used, .itself⟩ :: partsSites parts

end Request

end OperationTools
