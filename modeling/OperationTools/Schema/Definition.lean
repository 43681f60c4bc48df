import OperationTools.Schema.Directive

/-!
# Definitions of schema text

A schema text is a non-empty sequence of definitions of types, directives and the schema itself, of
extensions of all these, and of requests.

## Main definitions

* `Definition`: definitions and extensions
* `Definition.ofText?`: the definitions of a text
-/

namespace OperationTools

/-- An argument or input field as it is written. -/
structure InputSource where
  name : String
  type : TypeRef
  description : Option String
  default : Option Literal
  directives : List DirectiveUse

/-- A field as it is written. -/
structure FieldSource where
  name : String
  type : TypeRef
  arguments : List InputSource
  description : Option String
  directives : List DirectiveUse

/-- An enum value as it is written. -/
structure ValueSource where
  name : String
  directives : List DirectiveUse

/-- The parts that a definition or extension gives to a type. -/
inductive TypeParts where
  | scalar
  | object (interfaces : List String) (fields : List FieldSource)
  | interface (interfaces : List String) (fields : List FieldSource)
  | union (members : List String)
  | enum (values : List ValueSource)
  | input (fields : List InputSource)

/-- A directive definition as it is written. -/
structure DirectiveSource where
  name : String
  arguments : List InputSource
  directives : List DirectiveUse
  repeatable : Bool
  locations : List DirectiveLocation

/-- A definition or, if `isExtension` is set, an extension. -/
inductive Definition where
  | type (isExtension : Bool) (name : String) (directives : List DirectiveUse) (parts : TypeParts)
  | schema (isExtension : Bool) (directives : List DirectiveUse)
      (roots : List (OperationKind × String))
  | directive (source : DirectiveSource)
  | directiveExtension (name : String) (directives : List DirectiveUse)
  | request (r : Request)

namespace Definition

open Reader

/-! ## Parts of types -/

/-- An argument or input field. -/
def inputSource : Reader InputSource := do
  let description ← description
  let name ← name
  token .colon
  let type ← typeRef
  let default ← Reader.default
  let directives ← directives true
  pure { name, type, description, default, directives }

/-- A field. -/
def fieldSource : Reader FieldSource := do
  let description ← description
  let name ← name
  let arguments ← optionalBlock .leftParen .rightParen inputSource
  token .colon
  let type ← typeRef
  let directives ← directives true
  pure { name, type, arguments, description, directives }

/-- An enum value. The names of the constants are reserved. -/
def valueSource : Reader ValueSource := do
  let _ ← description
  let name ← name
  if ["true", "false", "null"].contains name then failure
  let directives ← directives true
  pure { name, directives }

/-- The interfaces that a type implements. -/
def implemented : Reader (List String) := do
  if ← keywordIf "implements" then separated .ampersand name else pure []

/-- The fields of an object or interface type. -/
def fieldSources : Reader (List FieldSource) := optionalBlock .leftBrace .rightBrace fieldSource

/-- The members of a union. -/
def members : Reader (List String) := do
  if ← tokenIf .equals then separated .pipe name else pure []

/-- A root type. -/
def root : Reader (OperationKind × String) := do
  match OperationKind.ofKeyword? (← name) with
  | none => failure
  | some kind => do
    token .colon
    pure (kind, ← name)

/-! ## Definitions -/

/-- What follows the keyword of a type: its name, directives and parts. -/
def typeBody (word : String) : Reader (String × List DirectiveUse × TypeParts) := do
  let typeName ← name
  match word with
  | "scalar" => do pure (typeName, ← directives true, .scalar)
  | "type" => do
    let interfaces ← implemented
    let used ← directives true
    pure (typeName, used, .object interfaces (← fieldSources))
  | "interface" => do
    let interfaces ← implemented
    let used ← directives true
    pure (typeName, used, .interface interfaces (← fieldSources))
  | "union" => do
    let used ← directives true
    pure (typeName, used, .union (← members))
  | "enum" => do
    let used ← directives true
    pure (typeName, used, .enum (← optionalBlock .leftBrace .rightBrace valueSource))
  | "input" => do
    let used ← directives true
    pure (typeName, used, .input (← optionalBlock .leftBrace .rightBrace inputSource))
  | _ => failure

/-- Whether the parts are empty. -/
def isEmpty : TypeParts → Bool
  | .scalar => true
  | .object interfaces fields | .interface interfaces fields =>
    interfaces.isEmpty && fields.isEmpty
  | .union members => members.isEmpty
  | .enum values => values.isEmpty
  | .input fields => fields.isEmpty

/-- A place where a directive may stand. -/
def directiveLocation : Reader DirectiveLocation := do
  match DirectiveLocation.ofName? (← name) with
  | some location => pure location
  | none => failure

/-- What follows the keyword of a directive definition. -/
def directiveBody : Reader Definition := do
  token .atSign
  let name ← name
  let arguments ← optionalBlock .leftParen .rightParen inputSource
  let directives ← directives true
  let repeatable ← keywordIf "repeatable"
  keyword "on"
  let locations ← separated .pipe directiveLocation
  pure (.directive { name, arguments, directives, repeatable, locations })

/-- An extension, which adds something. -/
def extension : Reader Definition := do
  let word ← name
  if word = "schema" then do
    let used ← directives true
    let roots ← optionalBlock .leftBrace .rightBrace root
    if used.isEmpty && roots.isEmpty then failure else pure (.schema true used roots)
  else if word = "directive" then do
    token .atSign
    let directiveName ← name
    let used ← directives true
    if used.isEmpty then failure else pure (.directiveExtension directiveName used)
  else do
    let (typeName, used, parts) ← typeBody word
    if used.isEmpty && isEmpty parts then failure else pure (.type true typeName used parts)

/-- What follows an optional description: a definition, or a request that starts with a keyword. -/
def describable (word : String) : Reader Definition := do
  match Request.reader? word with
  | some reader => do pure (.request (← reader))
  | none =>
    if word = "schema" then do
      let used ← directives true
      token .leftBrace
      pure (.schema false used (← manyUntil .rightBrace root (← get).length))
    else if word = "directive" then directiveBody
    else do
      let (typeName, used, parts) ← typeBody word
      pure (.type false typeName used parts)

/-- A definition or a request, with an optional description, an extension, or the parts of a query
without a keyword. -/
def definition : Reader Definition := do
  match ← get with
  | .leftBrace :: _ => pure (.request (.operation .query [] [] (← Request.parts)))
  | _ => do
    let described := (← description).isSome
    let word ← name
    if word = "extend" then if described then failure else extension
    else describable word

/-- Definitions up to the end, at least one. The first argument bounds their number. -/
def definitions : Nat → Reader (List Definition)
  | 0 => failure
  | fuel + 1 => do
    let first ← definition
    if (← get).isEmpty then pure [first]
    else do
      let others ← definitions fuel
      pure (first :: others)

/-- The definitions of a text, if it is a schema text. -/
def ofText? (text : String) : Option (List Definition) := do
  let tokens ← Token.scan? text
  let (found, _) ← (definitions tokens.length).run tokens
  pure found

end Definition

end OperationTools
