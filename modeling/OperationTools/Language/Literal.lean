import OperationTools.Entries
import OperationTools.Language.Reader

/-!
# Literals and directives

A literal is a value as it is written. The values of numbers and words have no effect and are not
kept. A directive has arguments with literals.

## Main definitions

* `Literal`, `Literal.repeatsKey`: literals, and whether an object in one has a key twice
* `DirectiveUse`: directives with their arguments
* `Reader.literal`, `Reader.directives`: their readers
-/

namespace OperationTools

/-- A value as it is written. -/
inductive Literal where
  | null
  | number
  /-- A boolean or an enum value. -/
  | word
  | text (value : String)
  | reference (variableName : String)
  | list (items : List Literal)
  | object (entries : List (String × Literal))

namespace Literal

instance : Inhabited Literal := ⟨.null⟩

mutual

/-- Whether an object in a literal has a key twice. -/
def repeatsKey : Literal → Bool
  | .list items => repeatsKeyItems items
  | .object entries =>
    (Entries.firstRepeated? (entries.map (·.1))).isSome || repeatsKeyEntries entries
  | _ => false

/-- Whether an object in one of several literals has a key twice. -/
def repeatsKeyItems : List Literal → Bool
  | [] => false
  | x :: rest => repeatsKey x || repeatsKeyItems rest

/-- Whether an object in the literal of an entry has a key twice. -/
def repeatsKeyEntries : List (String × Literal) → Bool
  | [] => false
  | (_, x) :: rest => repeatsKey x || repeatsKeyEntries rest

end

theorem repeatsKeyItems_eq_any (items : List Literal) :
    repeatsKeyItems items = items.any repeatsKey := by
  induction items with
  | nil => rfl
  | cons x rest ih => simp [repeatsKeyItems, ih]

theorem repeatsKeyEntries_eq_any (entries : List (String × Literal)) :
    repeatsKeyEntries entries = entries.any (repeatsKey ·.2) := by
  induction entries with
  | nil => rfl
  | cons e rest ih => simp [repeatsKeyEntries, ih]

end Literal

/-- Arguments as they are written. -/
abbrev ArgumentList := List (String × Literal)

/-- A directive as it is written. -/
structure DirectiveUse where
  name : String
  arguments : ArgumentList

namespace Reader

/-- A literal that holds no others. A constant one refers to no variables. -/
def leaf (constant : Bool) : Reader Literal := do
  match ← get with
  | .name s :: rest => do
    set rest
    pure (if s = "null" then .null else .word)
  | .number :: rest => do
    set rest
    pure .number
  | .text s :: rest => do
    set rest
    pure (.text s)
  | .dollar :: rest =>
    if constant then failure
    else do
      set rest
      pure (.reference (← name))
  | _ => failure

/-- A literal, in which lists and objects may nest as deep as there are levels. -/
def literal (constant : Bool) : Nat → Reader Literal
  | 0 => leaf constant
  | left + 1 => do
    match ← get with
    | .leftBracket :: rest => do
      set rest
      pure (.list (← anyUntil .rightBracket (literal constant left)))
    | .leftBrace :: rest => do
      set rest
      pure (.object (← anyUntil .rightBrace (do
        let key ← name
        token .colon
        pure (key, ← literal constant left))))
    | _ => leaf constant

/-- A name, a colon and a literal. -/
def argument (constant : Bool) (levels : Nat) : Reader (String × Literal) := do
  let name ← name
  token .colon
  pure (name, ← literal constant levels)

/-- Arguments in parentheses, if they come next. -/
def arguments (constant : Bool) (levels : Nat) : Reader ArgumentList :=
  optionalBlock .leftParen .rightParen (argument constant levels)

/-- The directives that come next. -/
def directives (constant : Bool) (levels : Nat := maxNesting) : Reader (List DirectiveUse) := do
  whileNext .atSign (do
    let name ← name
    pure { name, arguments := ← arguments constant levels }) (← get).length

/-- A literal after an equals sign, if that comes next. -/
def default : Reader (Option Literal) := do
  if ← tokenIf .equals then pure (some (← literal true maxNesting)) else pure none

end Reader

end OperationTools
