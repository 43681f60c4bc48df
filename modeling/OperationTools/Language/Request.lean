import OperationTools.Language.Literal

/-!
# Requests

A request is an operation or a fragment. It declares variables and selects parts, which have
arguments, directives and parts of their own. A text of definitions may hold requests; they do not
change what the definitions mean, but their names and arguments have to be right.

## Main definitions

* `RequestPart`, `Request`: what is selected, and requests
* `Request.reader?`, `Request.parts`: the readers of requests and of their parts
* `Request.typeNames`, `Request.fieldArguments`, `Request.defaults`: what a request holds
-/

namespace OperationTools

/-- A part that is selected. -/
inductive RequestPart where
  | field (arguments : ArgumentList) (directives : List DirectiveUse) (parts : List RequestPart)
  | spread (directives : List DirectiveUse)
  /-- Parts for one type, or for all if there is no name. -/
  | narrowing (typeName : Option String) (directives : List DirectiveUse)
      (parts : List RequestPart)

/-- A variable that a request declares. -/
structure RequestVariable where
  type : TypeRef
  default : Option Literal
  directives : List DirectiveUse

/-- An operation or a fragment. -/
inductive Request where
  | operation (kind : OperationKind) (declared : List RequestVariable)
      (directives : List DirectiveUse) (parts : List RequestPart)
  | fragment (typeName : String) (directives : List DirectiveUse) (parts : List RequestPart)

namespace Request

open Reader

/-! ## Reading -/

/-- The name of a fragment, which is not the keyword in front of a type. -/
def fragmentName : Reader String := do
  let s ← name
  if s = "on" then failure else pure s

/-- A field with an optional other name, or its parts for some type. The parts of a part are read by
`inner`; for what else nests there are as many levels left. -/
def partOf (levels : Nat) (inner : Reader (List RequestPart)) : Reader RequestPart := do
  if ← tokenIf .ellipsis then
    if ← keywordIf "on" then do
      let typeName ← name
      let used ← directives false levels
      pure (.narrowing (some typeName) used (← inner))
    else
      match ← get with
      | .name _ :: _ => do
        let _ ← fragmentName
        pure (.spread (← directives false levels))
      | _ => do
        let used ← directives false levels
        pure (.narrowing none used (← inner))
  else do
    let _ ← name
    if ← tokenIf .colon then
      let _ ← name
    let given ← arguments false levels
    let used ← directives false levels
    match ← get with
    | .leftBrace :: _ => pure (.field given used (← inner))
    | _ => pure (.field given used [])

/-- Parts between braces, which may nest as deep as there are levels. -/
def partsWithin : Nat → Reader (List RequestPart)
  | 0 => failure
  | left + 1 => do
    token .leftBrace
    anyUntil .rightBrace (partOf left (partsWithin left))

/-- Parts between braces. -/
def parts : Reader (List RequestPart) := partsWithin maxNesting

/-- A variable with its type. -/
def variableSource : Reader RequestVariable := do
  let _ ← description
  token .dollar
  let _ ← name
  token .colon
  let type ← typeRef
  let default ← Reader.default
  pure { type, default, directives := ← directives true }

/-- What follows the keyword of an operation. -/
def operationBody (kind : OperationKind) : Reader Request := do
  match ← get with
  | .name _ :: rest => set rest
  | _ => pure ()
  let declared ← optionalBlock .leftParen .rightParen variableSource
  let used ← directives false
  pure (.operation kind declared used (← parts))

/-- What follows the keyword of a fragment. -/
def fragmentBody : Reader Request := do
  let _ ← fragmentName
  keyword "on"
  let typeName ← name
  let used ← directives false
  pure (.fragment typeName used (← parts))

/-- A request that starts with a keyword, if one comes next. -/
def reader? (word : String) : Option (Reader Request) :=
  if word = "fragment" then some fragmentBody
  else (OperationKind.ofKeyword? word).map operationBody

/-! ## What a request holds -/

mutual

/-- The types that a part names. -/
def partTypeNames : RequestPart → List String
  | .field _ _ parts => partsTypeNames parts
  | .spread _ => []
  | .narrowing typeName _ parts => typeName.toList ++ partsTypeNames parts

/-- The types that parts name. -/
def partsTypeNames : List RequestPart → List String
  | [] => []
  | p :: rest => partTypeNames p ++ partsTypeNames rest

end

mutual

/-- The arguments of the fields among parts. -/
def partArguments : RequestPart → List ArgumentList
  | .field given _ parts => given :: partsArguments parts
  | .spread _ => []
  | .narrowing _ _ parts => partsArguments parts

/-- The arguments of the fields among several parts. -/
def partsArguments : List RequestPart → List ArgumentList
  | [] => []
  | p :: rest => partArguments p ++ partsArguments rest

end

/-- The types that a request names. -/
def typeNames : Request → List String
  | .operation _ declared _ parts => declared.map (·.type.name) ++ partsTypeNames parts
  | .fragment typeName _ parts => typeName :: partsTypeNames parts

/-- The arguments of the fields in a request. -/
def fieldArguments : Request → List ArgumentList
  | .operation _ _ _ parts | .fragment _ _ parts => partsArguments parts

/-- The default values of the variables of a request. -/
def defaults : Request → List Literal
  | .operation _ declared _ _ => declared.filterMap (·.default)
  | .fragment .. => []

end Request

end OperationTools
