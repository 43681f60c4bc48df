/-!
# Text for terminals

Output may hold sequences that style the text on a terminal, and line ends of two characters. Where
the output is no terminal the sequences are left out, and a line ends with one character.

## Main definitions

* `Text.withoutStyles`: a text without style sequences
* `Text.withPlainLineEnds`: a text whose lines end with one character
-/

namespace OperationTools.Text

/-- The characters from the first to the last one, in the order of their code points. -/
def isBetween (first last c : Char) : Bool := first ≤ c && c ≤ last

/-- What is left after the end of a style sequence: parameters, then marks, then one character that
ends it. -/
def afterStyle? (s : List Char) : Option (List Char) :=
  match (s.dropWhile (isBetween '0' '?')).dropWhile (isBetween ' ' '/') with
  | c :: rest => if isBetween '@' '~' c then some rest else none
  | [] => none

/-- The characters without style sequences. The first argument bounds the number of steps. -/
def withoutStylesSteps : Nat → List Char → List Char
  | 0, s => s
  | fuel + 1, s =>
    match s with
    | [] => []
    | c :: rest =>
      match (if c = '\x1b' && rest.head? = some '[' then afterStyle? (rest.drop 1) else none) with
      | some after => withoutStylesSteps fuel after
      | none => c :: withoutStylesSteps fuel rest

/-- The text without style sequences. -/
def withoutStyles (s : String) : String :=
  let chars := s.toList
  String.ofList (withoutStylesSteps chars.length chars)

/-- The characters with one line end for every carriage return in front of a line end. -/
def plainLineEnds : List Char → List Char
  | '\r' :: '\n' :: rest => '\n' :: plainLineEnds rest
  | c :: rest => c :: plainLineEnds rest
  | [] => []

/-- The text whose lines end with one character. -/
def withPlainLineEnds (s : String) : String := String.ofList (plainLineEnds s.toList)

end OperationTools.Text
