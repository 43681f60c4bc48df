import OperationTools.Text.Point

/-!
# Tokens

Texts in the language of schemas are sequences of tokens. Blanks, commas, byte order marks and
comments stand between them. A text between quotation marks may use escapes; a block between triple
quotation marks loses its common indentation and its blank first and last lines.

## Main definitions

* `Token`: the tokens
* `Token.dedent`: the lines of a block without their indentation
* `Token.scan?`: the tokens of a text, if it has no others
-/

namespace OperationTools

/-- A token. The value of a number is not kept. -/
inductive Token where
  | bang | dollar | ampersand | leftParen | rightParen | ellipsis | colon | equals | atSign
  | leftBracket | rightBracket | leftBrace | rightBrace | pipe
  | name (text : String)
  | number
  | text (value : String)
deriving DecidableEq, Repr

namespace Token

/-- The first character of a name. -/
def isNameStart (c : Char) : Bool := c.isAlpha || c = '_'

/-- A later character of a name. -/
def isNamePart (c : Char) : Bool := c.isAlphanum || c = '_'

/-- Whether a text is a name. -/
def isName (s : String) : Bool :=
  match s.toList with
  | c :: rest => isNameStart c && rest.all isNamePart
  | [] => false

/-- What stands between tokens, comments apart. -/
def isIgnored (c : Char) : Bool :=
  c = ' ' || c = '\t' || c = '\n' || c = '\r' || c = ',' || c = '\ufeff'

/-- The end of a line. -/
def isLineEnd (c : Char) : Bool := c = '\n' || c = '\r'

/-- The token of one mark. -/
def mark? : Char → Option Token
  | '!' => some .bang
  | '$' => some .dollar
  | '&' => some .ampersand
  | '(' => some .leftParen
  | ')' => some .rightParen
  | ':' => some .colon
  | '=' => some .equals
  | '@' => some .atSign
  | '[' => some .leftBracket
  | ']' => some .rightBracket
  | '\x7b' => some .leftBrace
  | '\x7d' => some .rightBrace
  | '|' => some .pipe
  | _ => none

/-! ## Numbers -/

/-- What is left after at least one digit. -/
def afterDigits? (s : List Char) : Option (List Char) :=
  match s with
  | c :: rest => if c.isDigit then some (rest.dropWhile Char.isDigit) else none
  | [] => none

/-- What is left after the digits before a point. A zero stands alone. -/
def afterWhole? (s : List Char) : Option (List Char) :=
  match s with
  | '0' :: c :: rest => if c.isDigit then none else some (c :: rest)
  | ['0'] => some []
  | _ => afterDigits? s

/-- What is left after an optional point with digits. -/
def afterFraction? (s : List Char) : Option (List Char) :=
  match s with
  | '.' :: rest => afterDigits? rest
  | _ => some s

/-- What is left after an optional exponent. -/
def afterExponent? (s : List Char) : Option (List Char) :=
  match s with
  | c :: rest =>
    if c = 'e' || c = 'E' then
      match rest with
      | d :: more => if d = '+' || d = '-' then afterDigits? more else afterDigits? rest
      | [] => none
    else some s
  | [] => some []

/-- What is left after a number. Neither a point nor a name follows it directly. -/
def afterNumber? (s : List Char) : Option (List Char) := do
  let unsigned := match s with
    | '-' :: rest => rest
    | _ => s
  let rest ← afterExponent? (← afterFraction? (← afterWhole? unsigned))
  match rest with
  | c :: _ => if c = '.' || isNameStart c then none else pure rest
  | [] => pure rest

/-! ## Texts -/

/-- The character of a code point that is not half of a pair. -/
def scalarChar? (n : Nat) : Option Char :=
  if n < 0x110000 && !Text.isHalf n then some (Char.ofNat n)
  else none

/-- The character of hexadecimal digits up to a closing brace, at most eight of them. -/
def bracedEscape? (digits : Nat) (value : Nat) : List Char → Option (Char × List Char)
  | '\x7d' :: rest => if digits = 0 then none else (scalarChar? value).map (·, rest)
  | c :: rest =>
    if digits = 8 then none
    else (Text.hexDigit? c).bind fun d => bracedEscape? (digits + 1) (value * 16 + d) rest
  | [] => none

/-- The character of an escape by code point: digits in braces, four digits, or two times four
digits for a pair of code units. -/
def unicodeEscape? : List Char → Option (Char × List Char)
  | '\x7b' :: rest => bracedEscape? 0 0 rest
  | a :: b :: c :: d :: rest => do
    let n ← Text.hexQuad? a b c d
    if Text.isHighSurrogate n then
      match rest with
      | '\\' :: 'u' :: e :: f :: g :: h :: after => do
        let m ← Text.hexQuad? e f g h
        if Text.isLowSurrogate m then pure (Text.pairChar n m, after) else none
      | _ => none
    else (scalarChar? n).map (·, rest)
  | _ => none

/-- The text up to a closing quotation mark on the same line. The first argument bounds the number
of characters; those read so far are `done`, last one first. -/
def readText? : Nat → List Char → List Char → Option (String × List Char)
  | 0, _, _ => none
  | _ + 1, _, [] => none
  | fuel + 1, done, c :: rest =>
    if c = '"' then some (String.ofList done.reverse, rest)
    else if isLineEnd c then none
    else if c = '\\' then
      match rest with
      | 'u' :: more =>
        (unicodeEscape? more).bind fun (e, after) =>
          readText? fuel ((Text.Point.char e).kept.reverse ++ done) after
      | e :: after => (Text.letterEscape? e).bind fun e => readText? fuel (e :: done) after
      | [] => none
    else readText? fuel (c :: done) rest

/-- The characters up to closing triple quotation marks, with every line end made one character. -/
def readBlock? (done : List Char) : List Char → Option (List Char × List Char)
  | '"' :: '"' :: '"' :: rest => some (done.reverse, rest)
  | '\\' :: '"' :: '"' :: '"' :: rest => readBlock? ('"' :: '"' :: '"' :: done) rest
  | '\r' :: '\n' :: rest => readBlock? ('\n' :: done) rest
  | '\r' :: rest => readBlock? ('\n' :: done) rest
  | c :: rest => readBlock? (c :: done) rest
  | [] => none

/-- The lines of a text. -/
def lines : List Char → List (List Char)
  | [] => [[]]
  | '\n' :: rest => [] :: lines rest
  | c :: rest =>
    match lines rest with
    | line :: others => (c :: line) :: others
    | [] => [[c]]

/-- The number of blanks in front of a line. -/
def indentation (line : List Char) : Nat :=
  (line.takeWhile fun c => c = ' ' || c = '\t').length

/-- Whether a line holds only blanks. -/
def isBlankLine (line : List Char) : Bool := indentation line = line.length

/-- The lines of a block: all but the first lose the indentation that their non-blank lines share,
and blank lines are removed from the front and the end. -/
def dedent (block : List (List Char)) : List (List Char) :=
  let later := (block.drop 1).filter (!isBlankLine ·)
  let common := (later.map indentation).min?.getD 0
  let stripped := match block with
    | first :: others => first :: others.map (List.drop common)
    | [] => []
  ((stripped.dropWhile isBlankLine).reverse.dropWhile isBlankLine).reverse

/-- The value of a block. -/
def blockValue (chars : List Char) : String :=
  String.ofList (['\n'].intercalate (dedent (lines chars)))

/-! ## Scanning -/

/-- The token at the start of a text, and what follows it. -/
def next? (s : List Char) : Option (Token × List Char) :=
  match s with
  | '.' :: '.' :: '.' :: rest => some (.ellipsis, rest)
  | '"' :: '"' :: '"' :: rest =>
    (readBlock? [] rest).map fun (chars, after) => (.text (blockValue chars), after)
  | '"' :: rest =>
    (readText? (rest.length + 1) [] rest).map fun (value, after) => (.text value, after)
  | c :: rest =>
    match mark? c with
    | some t => some (t, rest)
    | none =>
      if isNameStart c then
        some (.name (String.ofList (s.takeWhile isNamePart)), s.dropWhile isNamePart)
      else if c.isDigit || c = '-' then (afterNumber? s).map (.number, ·)
      else none
  | [] => none

/-- The tokens of a text. The first argument bounds the number of steps. -/
def scanSteps? : Nat → List Char → Option (List Token)
  | _, [] => some []
  | 0, _ => none
  | fuel + 1, c :: rest =>
    if isIgnored c then scanSteps? fuel rest
    else if c = '#' then scanSteps? fuel (rest.dropWhile (!isLineEnd ·))
    else do
      let (token, after) ← next? (c :: rest)
      let tokens ← scanSteps? fuel after
      pure (token :: tokens)

/-- The tokens of a text, unless it holds something else. -/
def scan? (text : String) : Option (List Token) :=
  let chars := text.toList
  scanSteps? chars.length chars

end Token

end OperationTools
