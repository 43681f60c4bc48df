import OperationTools.Compilation.Notice
import OperationTools.Document.Selection
import OperationTools.Operation.Basic
import OperationTools.Text.Search
import OperationTools.Text.Uppercase

/-!
# Documents

The document of an operation declares its arguments as variables, passes them to the root field and
selects parts of the result. What is omitted is left out, and so are parts of which nothing is
written. A part whose key starts with an upper-case character narrows the type.

## Main definitions

* `Selection.fieldTexts`: the written parts of a selection
* `Json.items?`, `Json.holds`: the names that a value of variables gives
* `Operation.document`: the document of an operation
* `Operation.documentFor`: the document for given variables
-/

namespace OperationTools

namespace Selection

/-- Whether a key narrows the type: its first character is upper-case. -/
def isNarrowing (key : String) : Bool :=
  match key.toList with
  | c :: _ => Text.isUppercase c
  | [] => false

/-- A key with the text of its parts. -/
def partsText (key inner : String) : String :=
  let head := if isNarrowing key then "... on " ++ key else key
  head ++ " \x7b " ++ inner ++ " \x7d"

mutual

/-- The written parts, in their order. -/
def fieldTexts : List (String × Selection) → List String
  | [] => []
  | (key, s) :: rest => (fieldText? key s).toList ++ fieldTexts rest

/-- The text of a key with its selection, unless nothing is written. -/
def fieldText? (key : String) : Selection → Option String
  | .whole => some key
  | .omitted => none
  | .parts children =>
    let inner := " ".intercalate (fieldTexts children)
    if inner.isEmpty then none else some (partsText key inner)

end

theorem fieldTexts_eq_filterMap (children : List (String × Selection)) :
    fieldTexts children = children.filterMap fun e => fieldText? e.1 e.2 := by
  induction children with
  | nil => rfl
  | cons e rest ih =>
    obtain ⟨key, s⟩ := e
    cases h : fieldText? key s <;> simp [fieldTexts, ih, h]

/-- The parts of a selection on one line. -/
def text : Selection → String
  | .parts children => " ".intercalate (fieldTexts children)
  | _ => ""

end Selection

/-! ## Variables -/

namespace Json

/-- What a value of variables consists of, if it is a collection: the keys of an object, the items
of an array, the points of a text. Null, false and zero are collections of nothing. -/
def items? : Json → Option (List Json)
  | .obj entries => some (entries.map fun e => .str e.1)
  | .arr items => some items
  | .str s => some ((Text.points s.toList).map fun p => .str (String.ofList p.kept))
  | .null | .bool false | .int 0 => some []
  | .float x => if x.toInt? = some 0 then some [] else none
  | _ => none

/-- Whether a value of variables gives one of a name. A text gives all names that stand in it. -/
def holds (name : String) : Json → Bool
  | .str s => !s.isEmpty && Text.holds s name
  | x => (x.items?.getD []).contains (.str name)

/-- A variable in a message: a name as it is, and any other value in its shown form. -/
def label : Json → String
  | .str s => s
  | x => x.display

/-- Whether a value may be the name of a variable, or at least be compared with names. -/
def isComparable : Json → Bool
  | .arr _ | .obj _ => false
  | _ => true

@[simp] theorem items?_obj (entries : List (String × Json)) :
    (obj entries).items? = some (entries.map fun e => .str e.1) := rfl

theorem holds_obj (name : String) (entries : List (String × Json)) :
    (obj entries).holds name = true ↔ name ∈ entries.map (·.1) := by
  simp [holds]

end Json

/-- A required argument has no variable. -/
structure MissingVariable where
  argument : String
  operation : String
deriving DecidableEq, Repr

/-- The message about a missing variable. -/
def MissingVariable.message (e : MissingVariable) : String :=
  s!"Missing required variable: {e.argument} (operation {e.operation})"

/-- Why no document is written. -/
inductive DocumentError where
  | missing (e : MissingVariable)
  /-- The variables are no collection of names. -/
  | notNames
deriving DecidableEq, Repr

/-- The message about an error. -/
def DocumentError.message : DocumentError → String
  | .missing e => e.message
  | .notNames => "The variables are no collection of names"

namespace Operation

/-- Notices on the variables that no argument uses, up to one that cannot be compared. -/
def unusedVariables (op : Operation) : List Json → Except DocumentError Unit × List Notice
  | [] => (.ok (), [])
  | x :: rest =>
    if !x.isComparable then (.error .notNames, [])
    else
      let (result, log) := op.unusedVariables rest
      let isUsed := op.arguments.any fun v => x = .str v.name
      (result, if isUsed then log else .unusedVariable x.label op.name :: log)

/-- The first required argument without a variable of its name, or else notices on the variables
that no argument uses. -/
def compareVariables (op : Operation) (values : Json) :
    Except DocumentError Unit × List Notice :=
  match values.items? with
  | none => (.error .notNames, [])
  | some items =>
    match op.required.find? fun v => !values.holds v.name with
    | some v => (.error (.missing ⟨v.name, op.name⟩), [])
    | none => op.unusedVariables items

/-- Parts in parentheses, separated by commas; nothing if there are none. -/
def listed (parts : List String) : String :=
  if parts.isEmpty then "" else "(" ++ ", ".intercalate parts ++ ")"

/-- The declarations of the variables. -/
def declarations (op : Operation) : String :=
  listed (op.arguments.map fun v => "$" ++ v.name ++ ": " ++ v.typeName)

/-- The arguments of the root field. -/
def bindings (op : Operation) : String :=
  listed (op.arguments.map fun v => v.name ++ ": $" ++ v.name)

/-- The call of the root field with its selection. -/
def call (op : Operation) (selection : Option Selection) : String :=
  let fields := (selection.map Selection.text).getD ""
  let site := op.fieldName ++ op.bindings
  if fields.isEmpty then site else site ++ " \x7b " ++ fields ++ " \x7d"

/-- The document of an operation. -/
def document (op : Operation) (selection : Option Selection) : String :=
  op.kind.keyword ++ " " ++ op.name ++ op.declarations ++ " \x7b " ++ op.call selection ++ " \x7d"

/-- The document of an operation for given variables, with notices. Only the names of the variables
count. -/
def documentFor (op : Operation) (values : Json) (selection : Option Selection) :
    Except DocumentError String × List Notice :=
  let (result, log) := op.compareVariables values
  (result.map fun _ => op.document selection, log)

end Operation

end OperationTools
