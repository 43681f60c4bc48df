import OperationTools.Text.Blank

/-!
# Numerals

Digits stand for a number. An integer may also be given as a text: a numeral with an optional sign,
leading zeros, single underscores between digits and a fraction of zeros, and blanks around it. The
digits that are left of it without all that are bounded in number.

## Main definitions

* `Text.digitsValue`: the number of decimal digits
* `Text.plainInteger`: the integer of a plain numeral
* `Text.integer`: the integer of a text
-/

namespace OperationTools.Text

/-- The natural number of a list of decimal digits. -/
def digitsValue (digits : List Char) : Nat :=
  digits.foldl (fun n c => n * 10 + (c.toNat - 48)) 0

/-- The number of digits that an integer may be written with. -/
def maxIntegerDigits : Nat := 4300

/-- Why a text is not read as an integer. -/
inductive NumeralFault where
  | malformed
  | tooLong
deriving DecidableEq, Repr

/-- An unsigned numeral without its leading zeros, which underscores may stand between. One zero is
kept if no other digit follows, and after leading zeros a minus sign may come. -/
def withoutLeadingZeros? : List Char → Option (List Char)
  | '0' :: rest =>
    match rest.dropWhile fun c => c = '0' || c = '_' with
    | [] => if rest.getLast? = some '_' then none else some ['0']
    | '.' :: more =>
      if (rest.takeWhile (· ≠ '.')).getLast? = some '_' then none else some ('0' :: '.' :: more)
    | c :: more => if c.isDigit || c = '-' then some (c :: more) else none
  | c :: rest => if c.isDigit then some (c :: rest) else none
  | [] => none

/-- A numeral without a point after which only zeros stand, at least one. -/
def withoutZeroFraction (s : List Char) : List Char :=
  match s.dropWhile (· ≠ '.') with
  | '.' :: '0' :: zeros => if zeros.all (· = '0') then s.takeWhile (· ≠ '.') else s
  | _ => s

/-- Whether two underscores follow each other. -/
def hasDoubledUnderscore : List Char → Bool
  | '_' :: '_' :: _ => true
  | _ :: rest => hasDoubledUnderscore rest
  | [] => false

/-- A numeral without the single underscores inside it. -/
def withoutUnderscores (s : List Char) : List Char :=
  if s.head? = some '_' || s.getLast? = some '_' || hasDoubledUnderscore s then s
  else s.filter (· ≠ '_')

/-- The integer of a plain numeral: an optional minus sign and digits, of which the first is no zero
unless it stands alone. Too many digits are not read, whatever follows them. -/
def plainInteger (s : List Char) : Except NumeralFault Int :=
  let (negative, unsigned) := match s with
    | '-' :: rest => (true, rest)
    | _ => (false, s)
  let digits := unsigned.takeWhile Char.isDigit
  if digits.isEmpty || digits.head? = some '0' && 1 < digits.length then .error .malformed
  else if maxIntegerDigits < digits.length then .error .tooLong
  else if digits.length < unsigned.length then .error .malformed
  else
    let magnitude : Int := digitsValue digits
    .ok (if negative then -magnitude else magnitude)

/-- The numeral without blanks, signs that change nothing, leading zeros, underscores and a fraction
of zeros. -/
def plainNumeral? (s : List Char) : Option (List Char) :=
  let plain (unsigned : List Char) : Option (List Char) :=
    (withoutLeadingZeros? unsigned).map fun rest => withoutUnderscores (withoutZeroFraction rest)
  match trim s with
  | '-' :: rest => (plain rest).map ('-' :: ·)
  | '+' :: rest => plain rest
  | rest => plain rest

/-- The integer of a text. A plain numeral may be too long; any other text is read as the plain
numeral that it comes down to, and is malformed where that one is not read. -/
def integer (s : String) : Except NumeralFault Int :=
  match plainInteger s.toList with
  | .error .malformed =>
    match plainNumeral? s.toList with
    | some numeral => (plainInteger numeral).mapError fun _ => .malformed
    | none => .error .malformed
  | result => result

end OperationTools.Text
