import OperationTools.Schema.Definition

/-!
# What definitions hold

Definitions name types, give default values and arguments, and have directives at the places that
are defined for them.

## Main definitions

* `Definition.sites`: what directives are attached to
* `Definition.typeNames`: the types that are named
* `Definition.literals`, `Definition.argumentLists`: the literals and arguments that are given
-/

namespace OperationTools

namespace InputSource

/-- What directives are attached to in arguments or input fields. -/
def sites (location : DirectiveLocation) (sources : List InputSource) : List Site :=
  sources.map fun a => ⟨location, a.directives, .itself⟩

/-- The default values of arguments or input fields. -/
def defaults (sources : List InputSource) : List Literal := sources.filterMap (·.default)

end InputSource

namespace TypeParts

/-- Where the directives of a type stand. -/
def location : TypeParts → DirectiveLocation
  | .scalar => .scalar
  | .object .. => .object
  | .interface .. => .interface
  | .union _ => .union
  | .enum _ => .enum
  | .input _ => .inputObject

/-- What directives are attached to in the parts of a type. -/
def sites : TypeParts → List Site
  | .object _ fs | .interface _ fs =>
    fs.flatMap fun f =>
      ⟨.fieldDefinition, f.directives, .itself⟩ ::
        InputSource.sites .argumentDefinition f.arguments
  | .enum vs => vs.map fun v => ⟨.enumValue, v.directives, .itself⟩
  | .input fs => InputSource.sites .inputFieldDefinition fs
  | .scalar | .union _ => []

/-- The names of types that stand in the parts. -/
def typeNames : TypeParts → List String
  | .object is fs | .interface is fs =>
    is ++ fs.flatMap fun f => f.arguments.map (·.type.name) ++ [f.type.name]
  | .union ms => ms
  | .input fs => fs.map (·.type.name)
  | .scalar | .enum _ => []

/-- The default values that stand in the parts. -/
def defaults : TypeParts → List Literal
  | .object _ fs | .interface _ fs => fs.flatMap fun f => InputSource.defaults f.arguments
  | .input fs => InputSource.defaults fs
  | .scalar | .union _ | .enum _ => []

end TypeParts

namespace Definition

/-- What directives are attached to in a definition. -/
def sites : Definition → List Site
  | .type _ name used parts => ⟨parts.location, used, .type name⟩ :: parts.sites
  | .schema _ used _ => [⟨.schema, used, .schema⟩]
  | .directive d =>
    ⟨.directiveDefinition, d.directives, .directive d.name⟩ ::
      InputSource.sites .argumentDefinition d.arguments
  | .directiveExtension name used => [⟨.directiveDefinition, used, .directive name⟩]
  | .request r => r.sites

/-- The names of types that stand in a definition; requests are no definitions. -/
def typeNames : Definition → List String
  | .type _ _ _ parts => parts.typeNames
  | .schema _ _ roots => roots.map (·.2)
  | .directive d => d.arguments.map (·.type.name)
  | .directiveExtension .. | .request _ => []

/-- The names of types that stand in a request. -/
def requestTypeNames : Definition → List String
  | .request r => r.typeNames
  | _ => []

/-- The default values in a definition. -/
def defaults : Definition → List Literal
  | .type _ _ _ parts => parts.defaults
  | .directive d => InputSource.defaults d.arguments
  | .request r => r.defaults
  | .schema .. | .directiveExtension .. => []

/-- The arguments that are given in a definition, to directives and to the fields of requests. -/
def argumentLists (d : Definition) : List ArgumentList :=
  let ofDirectives := d.sites.flatMap fun site => site.uses.map (·.arguments)
  match d with
  | .request r => r.fieldArguments ++ ofDirectives
  | _ => ofDirectives

/-- The literals in a definition. -/
def literals (d : Definition) : List Literal :=
  d.defaults ++ d.argumentLists.flatMap fun given => given.map (·.2)

/-- The name and parts of a type that is defined. -/
def defined? : Definition → Option (String × TypeParts)
  | .type false name _ parts => some (name, parts)
  | _ => none

/-- The name and parts of a type that is extended. -/
def extended? : Definition → Option (String × TypeParts)
  | .type true name _ parts => some (name, parts)
  | _ => none

/-- The directive that is defined. -/
def directive? : Definition → Option DirectiveSource
  | .directive d => some d
  | _ => none

/-- The name of a directive that is extended, and the uses that are added to its own. -/
def directiveExtension? : Definition → Option (String × List DirectiveUse)
  | .directiveExtension name used => some (name, used)
  | _ => none

/-- The root types that a definition lists. -/
def roots : Definition → List (OperationKind × String)
  | .schema _ _ roots => roots
  | _ => []

/-- Whether a definition defines the schema itself. -/
def isSchema : Definition → Bool
  | .schema false _ _ => true
  | _ => false

end Definition

end OperationTools
