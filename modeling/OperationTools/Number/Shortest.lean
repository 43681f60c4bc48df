import OperationTools.Number.Binary64

/-!
# Shortest decimals

A finite number is written with the fewest decimal digits that read back as the number; of the
decimals with that many digits the one nearest to the number is taken, and of two equally near ones
the one whose last digit is even. How the digits are laid out is a `Layout`.

## Main definitions

* `Binary64.shortest`: the shortest decimal of a finite number
* `Layout`: where positional writing ends and how an exponent is written
* `Layout.text`: the text of a number

## Main results

* `Binary64.ofDecimal_of_onGrid?`: a decimal that is taken from a grid reads back
-/

namespace OperationTools

/-- The exponent of the leading decimal digit of the positive ratio `num / den`. -/
def leadingExponent (num den : Nat) : Int :=
  let guess : Int := (decimalDigits num : Int) - decimalDigits den
  let (a, b) := rescale 10 num den guess
  if b ≤ a then guess else guess - 1

/-- A decimal without trailing zeros in its coefficient. -/
def Decimal.trimmed (d : Decimal) : Decimal :=
  if d.coefficient = 0 then ⟨d.negative, 0, 0⟩
  else if d.coefficient % 10 = 0 then
    Decimal.trimmed ⟨d.negative, d.coefficient / 10, d.exponent + 1⟩
  else d
termination_by d.coefficient
decreasing_by omega

namespace Binary64

/-- A decimal whose last digit stands at `exponent`, which reads back as `x` and is a neighbour of
the magnitude `num / den`: the nearer of the two, or the even one. -/
def onGrid? (x : Binary64) (negative : Bool) (num den : Nat) (exponent : Int) : Option Decimal :=
  let (a, b) := rescale 10 num den exponent
  let below : Decimal := ⟨negative, a / b, exponent⟩
  let above : Decimal := ⟨negative, a / b + 1, exponent⟩
  let nearer := if roundHalfEven a b = a / b then below else above
  match decide (ofDecimal below = x), decide (ofDecimal above = x) with
  | true, true => some nearer
  | true, false => some below
  | false, true => some above
  | false, false => none

/-- What is taken from a grid reads back. -/
theorem ofDecimal_of_onGrid? {x : Binary64} {negative : Bool} {num den : Nat} {exponent : Int}
    {d : Decimal} (h : onGrid? x negative num den exponent = some d) : ofDecimal d = x := by
  unfold onGrid? at h
  dsimp only at h
  split at h <;> rename_i hb ha <;> simp only [Option.some.injEq, reduceCtorEq] at h
  · subst h
    split <;> simp_all
  · subst h
    simpa using hb
  · subst h
    simpa using ha

/-- The value of a finite pair as a decimal, with all its digits. -/
def exactDecimal (negative : Bool) (mantissa : Nat) (exponent : Int) : Decimal :=
  if 0 ≤ exponent then ⟨negative, mantissa * Nat.pow 2 exponent.toNat, 0⟩
  else ⟨negative, mantissa * Nat.pow 5 (-exponent).toNat, exponent⟩

/-- The shortest decimal of a finite number, without trailing zeros. Seventeen digits always
suffice; the exact value stands behind them. -/
def shortest (x : Binary64) (negative : Bool) (mantissa : Nat) (exponent : Int) : Decimal :=
  if mantissa = 0 then ⟨negative, 0, 0⟩
  else
    let (num, den) := ratioOf mantissa exponent
    let leading := leadingExponent num den
    let found := (List.range 17).findSome? fun (n : Nat) =>
      onGrid? x negative num den (leading - n)
    (found.getD (exactDecimal negative mantissa exponent)).trimmed

end Binary64

/-- How a number is laid out: decimals whose leading digit stands at an exponent from
`leastPositional` to `greatestPositional` are written positionally, all others with an exponent of
at least `exponentWidth` digits. -/
structure Layout where
  leastPositional : Int
  greatestPositional : Int
  exponentWidth : Nat
deriving DecidableEq, Repr

namespace Layout

/-- Digits with a point, at least one of them on either side. -/
def positional (digits : List Char) (leading : Int) : List Char :=
  if leading < 0 then
    '0' :: '.' :: (List.replicate (-leading - 1).toNat '0' ++ digits)
  else
    let whole := leading.toNat + 1
    let fraction := digits.drop whole
    digits.take whole ++ List.replicate (whole - digits.length) '0' ++
      '.' :: (if fraction.isEmpty then ['0'] else fraction)

/-- Digits with an exponent, which always has a sign. -/
def scientific (width : Nat) (digits : List Char) (leading : Int) : List Char :=
  let point := match digits with
    | d :: [] => [d]
    | d :: rest => d :: '.' :: rest
    | [] => []
  let magnitude := Nat.toDigits 10 leading.natAbs
  point ++ 'e' :: (if leading < 0 then '-' else '+') ::
    (List.replicate (width - magnitude.length) '0' ++ magnitude)

/-- The text of a decimal without trailing zeros. -/
def decimalText (layout : Layout) (d : Decimal) : List Char :=
  let digits := Nat.toDigits 10 d.coefficient
  let leading := d.exponent + digits.length - 1
  let magnitude :=
    if layout.leastPositional ≤ leading ∧ leading ≤ layout.greatestPositional then
      positional digits leading
    else scientific layout.exponentWidth digits leading
  if d.negative then '-' :: magnitude else magnitude

/-- The text of a number; what is not finite is named. -/
def text (layout : Layout) : Binary64 → String
  | .nan => "nan"
  | .infinite false => "inf"
  | .infinite true => "-inf"
  | .finite negative mantissa exponent h =>
    let x := Binary64.finite negative mantissa exponent h
    String.ofList (layout.decimalText (x.shortest negative mantissa exponent))

/-- Numbers in messages: positional from `0.0001` to below `10 ^ 16`, exponents of two digits. -/
def message : Layout := ⟨-4, 15, 2⟩

/-- Numbers in JSON documents: positional from `0.00001` to below `10 ^ 16`, exponents unpadded. -/
def document : Layout := ⟨-5, 15, 1⟩

end Layout

end OperationTools
