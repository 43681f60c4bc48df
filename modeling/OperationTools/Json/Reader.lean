import OperationTools.Entries
import OperationTools.Json.Basic
import OperationTools.Text.Point
import OperationTools.Text.Numeral

/-!
# Reading JSON

A text is one value between blanks. Besides the JSON grammar the numbers `NaN`, `Infinity` and
`-Infinity` are read. A key that is repeated in an object keeps its first place and its last value.
A text that is not a value is refused with the first problem and the place where it lies, and so is
an integer with too many digits.

Functions of the reader take what is left of the text and give back what is left after them. A
problem carries the number of characters that were left where it lies.

## Main definitions

* `Json.Problem`, `Json.SyntaxError`: what is wrong with a text, and where
* `Json.ReadError`: why a text has no value
* `Json.read`: the value of a text
* `Json.SyntaxError.describe`: the message with line, column and offset
-/

namespace OperationTools.Json

open Text

/-- What is wrong with a text. -/
inductive Problem where
  | byteOrderMark
  | expectedValue
  | expectedName
  | expectedColon
  | expectedComma
  | extraData
  | unterminatedString
  | controlCharacter
  | invalidEscape
  | invalidUnicodeEscape
deriving DecidableEq, Repr

/-- The message of a problem. -/
def Problem.message : Problem → String
  | .byteOrderMark => "Unexpected UTF-8 BOM (decode using utf-8-sig)"
  | .expectedValue => "Expecting value"
  | .expectedName => "Expecting property name enclosed in double quotes"
  | .expectedColon => "Expecting ':' delimiter"
  | .expectedComma => "Expecting ',' delimiter"
  | .extraData => "Extra data"
  | .unterminatedString => "Unterminated string starting at"
  | .controlCharacter => "Invalid control character at"
  | .invalidEscape => "Invalid \\escape"
  | .invalidUnicodeEscape => "Invalid \\uXXXX escape"

/-- A problem at an offset from the start of the text, counted in points. -/
structure SyntaxError where
  problem : Problem
  offset : Nat
deriving DecidableEq, Repr

/-- Why a text has no value. -/
inductive ReadError where
  | malformed (error : SyntaxError)
  | tooManyDigits (count : Nat)
deriving DecidableEq, Repr

/-- A problem and the number of characters left where it lies, or an integer that is too long. -/
inductive Fault where
  | found (problem : Problem) (left : Nat)
  | tooManyDigits (count : Nat)
deriving DecidableEq, Repr

/-- The result of a reading function. -/
abbrev Reading (α : Type) := Except Fault (α × List Char)

/-- A fault in front of what is left. -/
def faultAt {α : Type} (problem : Problem) (rest : List Char) : Except Fault α :=
  .error (.found problem rest.length)

/-- Blanks between tokens. -/
def isBlank (c : Char) : Bool := c = ' ' || c = '\t' || c = '\n' || c = '\r'

/-- What is left after the blanks. -/
def skipBlanks (s : List Char) : List Char := s.dropWhile isBlank

/-! ## Texts -/

/-- The text after an opening quotation mark, up to the closing one; `start` is the number of
characters left at the opening one. An escape of a code unit is followed by at least one character.
The characters read so far are `done`, last one first. -/
def readText (start : Nat) (done : List Char) : List Char → Reading String
  | [] => .error (.found .unterminatedString start)
  | '"' :: rest => .ok (String.ofList done.reverse, rest)
  | ['\\'] => .error (.found .unterminatedString start)
  | '\\' :: 'u' :: rest =>
    match rest with
    | a :: b :: c :: d :: more =>
      match hexQuad? a b c d, more with
      | none, _ => faultAt .invalidUnicodeEscape ('u' :: rest)
      | some _, [] => faultAt .invalidUnicodeEscape ('u' :: rest)
      | some n, '\\' :: 'u' :: e :: f :: g :: h :: after =>
        -- two escapes make one character only if they are a pair and the text goes on
        match (hexQuad? e f g h).filter fun m =>
            isHighSurrogate n && isLowSurrogate m && !after.isEmpty with
        | some m => readText start ((Point.char (pairChar n m)).kept.reverse ++ done) after
        | none =>
          readText start ((Point.ofUnit n).kept.reverse ++ done)
            ('\\' :: 'u' :: e :: f :: g :: h :: after)
      | some n, next :: after =>
        readText start ((Point.ofUnit n).kept.reverse ++ done) (next :: after)
    | _ => faultAt .invalidUnicodeEscape ('u' :: rest)
  | '\\' :: c :: rest =>
    match letterEscape? c with
    | some e => readText start (e :: done) rest
    | none => faultAt .invalidEscape ('\\' :: c :: rest)
  | c :: rest =>
    if c.toNat < 0x20 then faultAt .controlCharacter (c :: rest)
    else readText start (c :: done) rest

/-! ## Numbers -/

/-- The digits after a point, if there is at least one. -/
def fractionPart (s : List Char) : List Char × List Char :=
  match s with
  | '.' :: c :: rest =>
    if c.isDigit then ((c :: rest).takeWhile Char.isDigit, rest.dropWhile Char.isDigit)
    else ([], s)
  | _ => ([], s)

/-- The sign of an exponent and what follows it. -/
def exponentSign : List Char → Bool × List Char
  | '-' :: rest => (true, rest)
  | '+' :: rest => (false, rest)
  | s => (false, s)

/-- An exponent, if at least one digit follows its mark. -/
def exponentPart (s : List Char) : Option Int × List Char :=
  match s with
  | c :: rest =>
    if c = 'e' || c = 'E' then
      let (negative, after) := exponentSign rest
      let digits := after.takeWhile Char.isDigit
      if digits.isEmpty then (none, s)
      else
        let magnitude : Int := digitsValue digits
        (some (if negative then -magnitude else magnitude), after.dropWhile Char.isDigit)
    else (none, s)
  | [] => (none, s)

/-- The digits before the point: a single zero, or digits that do not start with one. -/
def wholePart (s : List Char) : List Char × List Char :=
  match s with
  | '0' :: rest => (['0'], rest)
  | _ => (s.takeWhile Char.isDigit, s.dropWhile Char.isDigit)

/-- A number: an integer unless it has a fraction or an exponent. The digits of an integer are
bounded in number. -/
def readNumber (s : List Char) : Reading Json :=
  let (negative, unsigned) := match s with
    | '-' :: rest => (true, rest)
    | _ => (false, s)
  let (whole, afterWhole) := wholePart unsigned
  if whole.isEmpty then faultAt .expectedValue s
  else
    let (fraction, afterFraction) := fractionPart afterWhole
    let (exponent, rest) := exponentPart afterFraction
    if fraction.isEmpty && exponent.isNone then
      if maxIntegerDigits < whole.length then .error (.tooManyDigits whole.length)
      else
        let magnitude : Int := digitsValue whole
        .ok (.int (if negative then -magnitude else magnitude), rest)
    else
      .ok (.float (.ofDecimal ⟨negative, digitsValue (whole ++ fraction),
        exponent.getD 0 - fraction.length⟩), rest)

/-! ## Values -/

/-- What is left after a fixed spelling, if the text starts with it. -/
def afterWord? (word : String) (s : List Char) : Option (List Char) :=
  if word.toList.isPrefixOf s then some (s.drop word.length) else none

/-- The values with a fixed spelling. -/
def wordValues : List (String × Json) :=
  [("null", .null), ("true", .bool true), ("false", .bool false), ("NaN", .float .nan),
    ("Infinity", .float (.infinite false)), ("-Infinity", .float (.infinite true))]

/-- A value that is neither a text, an array nor an object. -/
def readScalar (s : List Char) : Reading Json :=
  match wordValues.findSome? fun (word, x) => (afterWord? word s).map fun rest => (x, rest) with
  | some found => .ok found
  | none => readNumber s

/-- A key with its quotation marks, and the colon and the blanks after it. -/
def readKey (s : List Char) : Reading String :=
  match s with
  | '"' :: rest =>
    match readText s.length [] rest with
    | .error e => .error e
    | .ok (key, after) =>
      match skipBlanks after with
      | ':' :: more => .ok (key, skipBlanks more)
      | other => faultAt .expectedColon other
  | _ => faultAt .expectedName s

mutual

/-- A value. The first argument bounds the number of steps; two for each character are enough, as a
bracket is followed by a step to its first item and one to the value of it. -/
def readValue : Nat → List Char → Reading Json
  | 0, s => faultAt .expectedValue s
  | fuel + 1, s =>
    match s with
    | '"' :: rest =>
      match readText s.length [] rest with
      | .error e => .error e
      | .ok (text, after) => .ok (.str text, after)
    | '[' :: rest =>
      match skipBlanks rest with
      | ']' :: after => .ok (.arr [], after)
      | body =>
        match readItems fuel body with
        | .error e => .error e
        | .ok (items, after) => .ok (.arr items, after)
    | '\x7b' :: rest =>
      match skipBlanks rest with
      | '\x7d' :: after => .ok (.obj [], after)
      | body =>
        match readEntries fuel body with
        | .error e => .error e
        | .ok (entries, after) => .ok (.obj (Entries.ofList entries), after)
    | _ => readScalar s

/-- The items of an array up to its closing bracket, at least one. -/
def readItems : Nat → List Char → Reading (List Json)
  | 0, s => faultAt .expectedValue s
  | fuel + 1, s =>
    match readValue fuel s with
    | .error e => .error e
    | .ok (item, after) =>
      match skipBlanks after with
      | ']' :: rest => .ok ([item], rest)
      | ',' :: rest =>
        match readItems fuel (skipBlanks rest) with
        | .error e => .error e
        | .ok (items, rest) => .ok (item :: items, rest)
      | other => faultAt .expectedComma other

/-- The entries of an object up to its closing brace, at least one. -/
def readEntries : Nat → List Char → Reading (List (String × Json))
  | 0, s => faultAt .expectedValue s
  | fuel + 1, s =>
    match readKey s with
    | .error e => .error e
    | .ok (key, body) =>
      match readValue fuel body with
      | .error e => .error e
      | .ok (value, after) =>
        match skipBlanks after with
        | '\x7d' :: rest => .ok ([(key, value)], rest)
        | ',' :: rest =>
          match readEntries fuel (skipBlanks rest) with
          | .error e => .error e
          | .ok (entries, rest) => .ok ((key, value) :: entries, rest)
        | other => faultAt .expectedComma other

end

/-- The number of points in front of what is left of a text. -/
def offsetOf (s : List Char) (left : Nat) : Nat := (points (s.take (s.length - left))).length

/-- The error of a fault in a text. -/
def Fault.located (s : List Char) : Fault → ReadError
  | .found problem left => .malformed ⟨problem, offsetOf s left⟩
  | .tooManyDigits count => .tooManyDigits count

/-- The value of the characters of a text. -/
def readChars (s : List Char) : Except ReadError Json :=
  match s with
  | '\ufeff' :: _ => .error (.malformed ⟨.byteOrderMark, 0⟩)
  | _ =>
    match readValue (2 * s.length + 2) (skipBlanks s) with
    | .error e => .error (e.located s)
    | .ok (value, rest) =>
      match skipBlanks rest with
      | [] => .ok value
      | extra => .error (.malformed ⟨.extraData, offsetOf s extra.length⟩)

/-- The value of a text. -/
def read (s : String) : Except ReadError Json := readChars s.toList

/-- The message of an error in a text: the problem, the line, the column and the offset. -/
def SyntaxError.describe (e : SyntaxError) (s : String) : String :=
  let before := (points s.toList).take e.offset
  let line := before.count (.char '\n') + 1
  let column := (before.reverse.takeWhile (· ≠ .char '\n')).length + 1
  s!"{e.problem.message}: line {line} column {column} (char {e.offset})"

/-- The message about an integer with too many digits. -/
def tooManyDigitsMessage (count : Nat) : String :=
  s!"Exceeds the limit ({maxIntegerDigits} digits) for integer string conversion: value has " ++
    s!"{count} digits; use sys.set_int_max_str_digits() to increase the limit"

end OperationTools.Json
