import OperationTools.Json.Basic
import OperationTools.Number.Shortest
import OperationTools.Text.Quoted

/-!
# Values in messages

The form in which a message shows a JSON value: texts are quoted, entries and items are separated
by a comma and a space, and the constants are written `None`, `True` and `False`.

## Main definitions

* `Json.display`: the shown form of a value
* `Json.displayKeys`: the shown form of a list of keys
-/

namespace OperationTools.Json

mutual

/-- The shown form of a value. -/
def display : Json → String
  | .null => "None"
  | .bool true => "True"
  | .bool false => "False"
  | .int n => toString n
  | .float x => Layout.message.text x
  | .str s => Text.quoted s
  | .arr items => "[" ++ ", ".intercalate (displayItems items) ++ "]"
  | .obj entries => "\x7b" ++ ", ".intercalate (displayEntries entries) ++ "\x7d"

/-- The shown forms of items. -/
def displayItems : List Json → List String
  | [] => []
  | x :: rest => display x :: displayItems rest

/-- The shown forms of entries. -/
def displayEntries : List (String × Json) → List String
  | [] => []
  | (key, x) :: rest => (Text.quoted key ++ ": " ++ display x) :: displayEntries rest

end

@[simp] theorem displayItems_eq_map (items : List Json) :
    displayItems items = items.map display := by
  induction items with
  | nil => rfl
  | cons x rest ih => simp [displayItems, ih]

@[simp] theorem displayEntries_eq_map (entries : List (String × Json)) :
    displayEntries entries = entries.map fun e => Text.quoted e.1 ++ ": " ++ display e.2 := by
  induction entries with
  | nil => rfl
  | cons e rest ih => simp [displayEntries, ih]

/-- The shown form of a list of keys. -/
def displayKeys (keys : List String) : String :=
  display (.arr (keys.map .str))

end OperationTools.Json
