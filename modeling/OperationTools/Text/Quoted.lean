import OperationTools.Text.LoneHalf
import OperationTools.Text.Printable

/-!
# Quoted text in messages

A text is quoted with apostrophes, or with quotation marks if it holds an apostrophe and no
quotation mark. Inside, the backslash, the quote, line ends, tabs and characters that are not
printable are escaped, lone halves of pairs by their code unit.

## Main definitions

* `Text.quoted`: the quoted form of a text
-/

namespace OperationTools.Text

/-- The form of one character between quotes. -/
def quotedChar (quote c : Char) : List Char :=
  if c = '\\' || c = quote then ['\\', c]
  else if c = '\n' then ['\\', 'n']
  else if c = '\r' then ['\\', 'r']
  else if c = '\t' then ['\\', 't']
  else if isPrintable c then (Point.char c).kept
  else if c.toNat < 0x100 then '\\' :: 'x' :: hex 2 c.toNat
  else if c.toNat < 0x10000 then unitEscape c.toNat
  else '\\' :: 'U' :: hex 8 c.toNat

/-- The form of one point between quotes. -/
def quotedPoint (quote : Char) : Point → List Char
  | .char c => quotedChar quote c
  | .half h => unitEscape h.unit

/-- The quoted form of a text. -/
def quoted (s : String) : String :=
  let chars := s.toList
  let quote := if chars.contains '\'' && !chars.contains '"' then '"' else '\''
  String.ofList (quote :: ((points chars).flatMap (quotedPoint quote) ++ [quote]))

end OperationTools.Text
