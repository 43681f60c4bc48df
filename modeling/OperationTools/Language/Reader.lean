import OperationTools.Language.Token
import OperationTools.Schema.Basic

/-!
# Reading tokens

A reader takes tokens from the front of a list, or fails. Here are the readers that others are made
of: names, lists with separators and between brackets, and references to types. What may nest is
read with the number of levels that are left, and fails where none is.

## Main definitions

* `Reader`, `Reader.maxNesting`: readers of tokens, and the levels that they start with
* `Reader.optionalBlock`, `Reader.separated`, `Reader.whileNext`: readers of lists
* `Reader.typeRef`: references to types
* `TypeRef.ofLiteral?`: the reference of a literal
-/

namespace OperationTools

/-- A reader takes tokens from the front, or fails. -/
abbrev Reader := StateT (List Token) Option

namespace Reader

variable {α : Type}

/-- How deep lists, objects and selected parts may nest. -/
def maxNesting : Nat := 200

/-! ## Tokens and lists -/

/-- Takes the given token. -/
def token (t : Token) : Reader Unit := do
  match ← get with
  | u :: rest => if u = t then set rest else failure
  | [] => failure

/-- Takes the given token if it is next, and tells whether it was. -/
def tokenIf (t : Token) : Reader Bool := do
  match ← get with
  | u :: rest => if u = t then do set rest; pure true else pure false
  | [] => pure false

/-- Takes a name. -/
def name : Reader String := do
  match ← get with
  | .name s :: rest => do set rest; pure s
  | _ => failure

/-- Takes the given name. -/
def keyword (word : String) : Reader Unit := token (.name word)

/-- Takes the given name if it is next, and tells whether it was. -/
def keywordIf (word : String) : Reader Bool := tokenIf (.name word)

/-- One or more items and the closing token. -/
def manyUntil (closing : Token) (item : Reader α) : Nat → Reader (List α)
  | 0 => failure
  | fuel + 1 => do
    let first ← item
    if ← tokenIf closing then pure [first]
    else do
      let others ← manyUntil closing item fuel
      pure (first :: others)

/-- Items, if there are any, and the closing token. -/
def anyUntil (closing : Token) (item : Reader α) : Reader (List α) := do
  if ← tokenIf closing then pure [] else manyUntil closing item (← get).length

/-- One or more items between an opening and a closing token, or nothing at all. -/
def optionalBlock (opening closing : Token) (item : Reader α) : Reader (List α) := do
  if ← tokenIf opening then manyUntil closing item (← get).length else pure []

/-- Items with a separator between them. -/
def separatedSteps (separator : Token) (item : Reader α) : Nat → Reader (List α)
  | 0 => failure
  | fuel + 1 => do
    let first ← item
    if ← tokenIf separator then do
      let others ← separatedSteps separator item fuel
      pure (first :: others)
    else pure [first]

/-- One or more items with a separator between them and optionally in front of them. -/
def separated (separator : Token) (item : Reader α) : Reader (List α) := do
  let _ ← tokenIf separator
  separatedSteps separator item (← get).length

/-- Items as long as the given token is next. -/
def whileNext (opening : Token) (item : Reader α) : Nat → Reader (List α)
  | 0 => pure []
  | fuel + 1 => do
    if ← tokenIf opening then do
      let first ← item
      let others ← whileNext opening item fuel
      pure (first :: others)
    else pure []

/-! ## Types and descriptions -/

/-- A reference to a type with the mark that may follow it. -/
def marked (type : Reader TypeRef) : Reader TypeRef := do
  let inner ← type
  if ← tokenIf .bang then pure (.nonNull inner) else pure inner

/-- A reference to a type, in which lists may nest as deep as there are levels. -/
def typeWithin : Nat → Reader TypeRef
  | 0 => marked (TypeRef.named <$> name)
  | left + 1 => marked do
    if ← tokenIf .leftBracket then do
      let item ← typeWithin left
      token .rightBracket
      pure (TypeRef.list item)
    else TypeRef.named <$> name

/-- A reference to a type. -/
def typeRef : Reader TypeRef := typeWithin maxNesting

/-- A description, if one comes next. -/
def description : Reader (Option String) := do
  match ← get with
  | .text s :: rest => do set rest; pure (some s)
  | _ => pure none

end Reader

/-- The reference that a literal stands for. -/
def TypeRef.ofLiteral? (literal : String) : Option TypeRef := do
  match ← Reader.typeRef.run (← Token.scan? literal) with
  | (type, []) => pure type
  | _ => none

end OperationTools
