import OperationTools.Document.Selection
import OperationTools.Language.Reader

/-!
# Reading documents

A document with one operation is read back from its text. Its operation declares variables, calls
one root field with them and selects parts of the result. A narrowing of the type is read as its
key, as a field with parts is.

## Main definitions

* `Document`: what a document says
* `Document.partsWithin`, `Document.reader`: the readers of selected parts and of a whole document
* `Document.read?`: the document of a text
-/

namespace OperationTools

/-- What a document says: the kind and the name of its operation, the variables with the literals of
their types, the root field with the variables of its arguments, and the selected parts. -/
structure Document where
  kind : OperationKind
  operation : String
  declared : List (String × String) := []
  field : String
  bound : List (String × String) := []
  parts : List (String × Selection) := []

namespace Document

open Reader

/-- A variable and the literal of its type. -/
def declaration : Reader (String × String) := do
  token .dollar
  let variableName ← name
  token .colon
  let type ← typeWithin (← get).length
  pure (variableName, type.literal)

/-- An argument and its variable. -/
def binding : Reader (String × String) := do
  let argument ← name
  token .colon
  token .dollar
  pure (argument, ← name)

/-- A narrowing, a field with parts, or a field as a whole. The parts are read by `inner`. -/
def part (inner : Reader (List (String × Selection))) : Reader (String × Selection) := do
  if ← tokenIf .ellipsis then do
    keyword "on"
    let key ← name
    pure (key, .parts (← inner))
  else do
    let key ← name
    match ← get with
    | .leftBrace :: _ => pure (key, .parts (← inner))
    | _ => pure (key, .whole)

/-- One or more parts between braces, which may nest as deep as there are levels. -/
def partsWithin : Nat → Reader (List (String × Selection))
  | 0 => failure
  | left + 1 => do
    token .leftBrace
    manyUntil .rightBrace (part (partsWithin left)) (← get).length

/-- The parts between braces that come next, if there are any. -/
def optionalParts : Reader (List (String × Selection)) := do
  match ← get with
  | .leftBrace :: rest => partsWithin rest.length
  | _ => pure []

/-- The kind of a keyword. -/
def keywordKind : Reader OperationKind := do
  match OperationKind.ofKeyword? (← name) with
  | some kind => pure kind
  | none => failure

/-- A document with one operation. -/
def reader : Reader Document := do
  let kind ← keywordKind
  let operation ← name
  let declared ← optionalBlock .leftParen .rightParen declaration
  token .leftBrace
  let field ← name
  let bound ← optionalBlock .leftParen .rightParen binding
  let parts ← optionalParts
  token .rightBrace
  pure { kind, operation, declared, field, bound, parts }

/-- The document of a text, if the text is one. -/
def read? (text : String) : Option Document := do
  match ← reader.run (← Token.scan? text) with
  | (document, []) => pure document
  | _ => none

end Document

end OperationTools
