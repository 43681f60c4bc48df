import OperationTools.Json.Basic
import OperationTools.Number.Shortest
import OperationTools.Text.Quoted

/-!
# Writing JSON

A value is written on one line without blanks, or over several lines with two blanks for each level.
Characters beyond ASCII stand as they are or are escaped, characters beyond the basic plane then as
two escapes. A number that is not finite is written `null` or by its name.

## Main definitions

* `Json.Style`: which characters are escaped, and how numbers are written
* `Json.Style.result`, `Json.Style.schema`, `Json.Style.description`: the styles of what is written
* `Json.compact`: one line
* `Json.indented`: several lines
-/

namespace OperationTools.Json

/-- Which characters stand as they are: all, or those of printable ASCII. -/
inductive Escaping where
  | controls
  | beyondAscii
deriving DecidableEq, Repr

/-- How values are written: the characters that are escaped, the layout of numbers, and whether a
number that is not finite is written by its name. -/
structure Style where
  escaping : Escaping
  layout : Layout
  named : Bool
deriving DecidableEq, Repr

namespace Style

/-- Results; a number that is not finite is missing from them. -/
def result : Style := ⟨.controls, .document, false⟩

/-- Published schemas on one line. -/
def schema : Style := ⟨.controls, .message, true⟩

/-- Descriptions of tools, in ASCII. -/
def description : Style := ⟨.beyondAscii, .message, true⟩

end Style

/-- One character of a written text, if only control characters and marks are escaped. -/
def escapedChar : Char → List Char
  | '"' => ['\\', '"']
  | '\\' => ['\\', '\\']
  | '\n' => ['\\', 'n']
  | '\r' => ['\\', 'r']
  | '\t' => ['\\', 't']
  | '\x08' => ['\\', 'b']
  | '\x0c' => ['\\', 'f']
  | c => if c.toNat < 0x20 then Text.unitEscape c.toNat else [c]

/-- One point of a written text, if everything beyond ASCII is escaped. -/
def asciiPoint : Text.Point → List Char
  | .char c =>
    let n := c.toNat
    if n < 0x7f then escapedChar c
    else if n < 0x10000 then Text.unitEscape n
    else
      let offset := n - 0x10000
      Text.unitEscape (0xd800 + offset / 0x400) ++ Text.unitEscape (0xdc00 + offset % 0x400)
  | .half h => Text.unitEscape h.unit

/-- The characters of a written text. -/
def escaped (escaping : Escaping) (s : List Char) : List Char :=
  match escaping with
  | .controls => s.flatMap escapedChar
  | .beyondAscii => (Text.points s).flatMap asciiPoint

/-- A text between quotation marks. -/
def writtenText (style : Style) (s : String) : String :=
  String.ofList ('"' :: (escaped style.escaping s.toList ++ ['"']))

/-- A number; if it is not finite, its name or `null`. -/
def writtenNumber (style : Style) (x : Binary64) : String :=
  if style.named then
    match x with
    | .nan => "NaN"
    | .infinite false => "Infinity"
    | .infinite true => "-Infinity"
    | x => style.layout.text x
  else if x.isFinite then style.layout.text x
  else "null"

/-- A value that is neither an array nor an object. -/
def writtenScalar (style : Style) : Json → String
  | .bool true => "true"
  | .bool false => "false"
  | .int n => toString n
  | .float x => writtenNumber style x
  | .str s => writtenText style s
  | _ => "null"

mutual

/-- The value on one line, without blanks. -/
def compact (style : Style) : Json → String
  | .arr items => "[" ++ ",".intercalate (compactItems style items) ++ "]"
  | .obj entries => "\x7b" ++ ",".intercalate (compactEntries style entries) ++ "\x7d"
  | x => writtenScalar style x

/-- Items on one line. -/
def compactItems (style : Style) : List Json → List String
  | [] => []
  | x :: rest => compact style x :: compactItems style rest

/-- Entries on one line. -/
def compactEntries (style : Style) : List (String × Json) → List String
  | [] => []
  | (key, x) :: rest =>
    (writtenText style key ++ ":" ++ compact style x) :: compactEntries style rest

end

@[simp] theorem compactItems_eq_map (style : Style) (items : List Json) :
    compactItems style items = items.map (compact style) := by
  induction items with
  | nil => rfl
  | cons x rest ih => simp [compactItems, ih]

@[simp] theorem compactEntries_eq_map (style : Style) (entries : List (String × Json)) :
    compactEntries style entries =
      entries.map fun e => writtenText style e.1 ++ ":" ++ compact style e.2 := by
  induction entries with
  | nil => rfl
  | cons e rest ih => simp [compactEntries, ih]

/-- A line end and the blanks before a line at a level. -/
def lineStart (level : Nat) : String := "\n" ++ String.ofList (List.replicate (2 * level) ' ')

/-- Parts between brackets, each on a line of its own one level in; nothing between the brackets if
there are no parts. -/
def bracketed (level : Nat) (opening closing : String) (parts : List String) : String :=
  if parts.isEmpty then opening ++ closing
  else
    opening ++ lineStart (level + 1) ++ ("," ++ lineStart (level + 1)).intercalate parts ++
      lineStart level ++ closing

mutual

/-- The value over several lines, from a level on. -/
def indentedAt (style : Style) (level : Nat) : Json → String
  | .arr items => bracketed level "[" "]" (indentedItems style (level + 1) items)
  | .obj entries => bracketed level "\x7b" "\x7d" (indentedEntries style (level + 1) entries)
  | x => writtenScalar style x

/-- Items at a level. -/
def indentedItems (style : Style) (level : Nat) : List Json → List String
  | [] => []
  | x :: rest => indentedAt style level x :: indentedItems style level rest

/-- Entries at a level. -/
def indentedEntries (style : Style) (level : Nat) : List (String × Json) → List String
  | [] => []
  | (key, x) :: rest =>
    (writtenText style key ++ ": " ++ indentedAt style level x) ::
      indentedEntries style level rest

end

@[simp] theorem indentedItems_eq_map (style : Style) (level : Nat) (items : List Json) :
    indentedItems style level items = items.map (indentedAt style level) := by
  induction items with
  | nil => rfl
  | cons x rest ih => simp [indentedItems, ih]

@[simp] theorem indentedEntries_eq_map (style : Style) (level : Nat)
    (entries : List (String × Json)) :
    indentedEntries style level entries =
      entries.map fun e => writtenText style e.1 ++ ": " ++ indentedAt style level e.2 := by
  induction entries with
  | nil => rfl
  | cons e rest ih => simp [indentedEntries, ih]

/-- The value over several lines. -/
def indented (style : Style) (x : Json) : String := indentedAt style 0 x

end OperationTools.Json
