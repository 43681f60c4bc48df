/-!
# Exact binary numbers

A number of the format with 53 bits of precision is a not-a-number, an infinity, or a signed
`mantissa · 2 ^ exponent` in canonical form. Decimals are rounded to the nearest such number, a tie
to the even mantissa. All arithmetic is exact, over natural numbers.

## Main definitions

* `Binary64`: the numbers of the format
* `Decimal`: a signed `coefficient · 10 ^ exponent`
* `Binary64.ofRatio`, `Binary64.ofDecimal`: the nearest number to a ratio and to a decimal
* `Binary64.toInt?`: the integer a number is equal to

## Main results

* `roundHalfEven_near`: the rounded ratio is off by at most one half
-/

namespace OperationTools

/-- The least number of 54 bits, which is no mantissa any more. -/
def mantissaBound : Nat := Nat.pow 2 53

/-- The least number of 53 bits. -/
def fullMantissa : Nat := Nat.pow 2 52

/-- The mantissa and exponent of a finite number are **canonical** when the mantissa fits in 53 bits
and is either full or stands at the least exponent. -/
def Canonical (mantissa : Nat) (exponent : Int) : Prop :=
  mantissa < mantissaBound ∧ -1074 ≤ exponent ∧ exponent ≤ 971 ∧
    (fullMantissa ≤ mantissa ∨ exponent = -1074)

instance (mantissa : Nat) (exponent : Int) : Decidable (Canonical mantissa exponent) :=
  inferInstanceAs (Decidable (_ ∧ _))

/-- A number of the 64-bit binary format. Zero has a sign. -/
inductive Binary64 where
  | nan
  | infinite (negative : Bool)
  | finite (negative : Bool) (mantissa : Nat) (exponent : Int)
      (canonical : Canonical mantissa exponent)
deriving DecidableEq

/-- A signed decimal `± coefficient · 10 ^ exponent`. -/
structure Decimal where
  negative : Bool
  coefficient : Nat
  exponent : Int
deriving DecidableEq, Repr

/-- The number of decimal digits of `n`; zero has one. -/
def decimalDigits (n : Nat) : Nat := (Nat.toDigits 10 n).length

/-- The ratio `num / den` divided by `base ^ k`, again as a ratio. -/
def rescale (base num den : Nat) (k : Int) : Nat × Nat :=
  if 0 ≤ k then (num, den * base.pow k.toNat) else (num * base.pow (-k).toNat, den)

/-- The integer nearest to `num / den`; of two equally near ones the even one. -/
def roundHalfEven (num den : Nat) : Nat :=
  let floor := num / den
  let twice := 2 * (num % den)
  if twice < den then floor
  else if den < twice then floor + 1
  else if floor % 2 = 0 then floor
  else floor + 1

/-- A ratio that is an integer is rounded to itself. -/
theorem roundHalfEven_mul (n : Nat) {den : Nat} (h : 0 < den) :
    roundHalfEven (n * den) den = n := by
  simp [roundHalfEven, Nat.mul_mod_left, Nat.mul_div_cancel n h, h]

/-- The rounded ratio is off by at most one half. -/
theorem roundHalfEven_near (num : Nat) {den : Nat} (h : 0 < den) :
    2 * (roundHalfEven num den * den) ≤ 2 * num + den ∧
      2 * num ≤ 2 * (roundHalfEven num den * den) + den := by
  have hd : num / den * den + num % den = num := by
    rw [Nat.mul_comm]
    exact Nat.div_add_mod num den
  have hr : num % den < den := Nat.mod_lt num h
  have hs : (num / den + 1) * den = num / den * den + den := Nat.succ_mul ..
  unfold roundHalfEven
  dsimp only
  split
  · omega
  · split
    · omega
    · split <;> omega

namespace Binary64

/-- The zero of a sign. -/
def zero (negative : Bool) : Binary64 :=
  .finite negative 0 (-1074) (by decide)

/-- The finite number of a canonical pair; a pair that is not canonical is too large. -/
def ofParts (negative : Bool) (mantissa : Nat) (exponent : Int) : Binary64 :=
  if h : Canonical mantissa exponent then .finite negative mantissa exponent h
  else .infinite negative

theorem ofParts_of_canonical {negative : Bool} {mantissa : Nat} {exponent : Int}
    (h : Canonical mantissa exponent) :
    ofParts negative mantissa exponent = .finite negative mantissa exponent h := by
  simp [ofParts, h]

/-- The exponent at which the positive ratio `num / den` has a mantissa of 53 bits, or the least
exponent if it is too small for that. -/
def ratioExponent (num den : Nat) : Int :=
  let guess := max ((num.log2 : Int) - den.log2 - 53) (-1074)
  let (a, b) := rescale 2 num den guess
  if a / b < mantissaBound then guess else guess + 1

/-- The number nearest to the positive ratio `num / den`, with a sign, a tie going to the even
mantissa. -/
def round (negative : Bool) (num den : Nat) : Binary64 :=
  let exponent := ratioExponent num den
  let (a, b) := rescale 2 num den exponent
  let mantissa := roundHalfEven a b
  if mantissa = mantissaBound then ofParts negative fullMantissa (exponent + 1)
  else ofParts negative mantissa exponent

/-- The number nearest to `± num / den`. The ratio is brought to lowest terms first, so that equal
ratios have the same number. -/
def ofRatio (negative : Bool) (num den : Nat) : Binary64 :=
  if num = 0 then zero negative
  else round negative (num / num.gcd den) (den / num.gcd den)

/-- The number nearest to a decimal. A decimal of at least `10 ^ 310` is infinite and one below
`10 ^ (-330)` is zero, whatever its digits; this keeps the powers of ten small. -/
def ofDecimal (d : Decimal) : Binary64 :=
  let magnitude : Int := decimalDigits d.coefficient + d.exponent
  if d.coefficient = 0 then zero d.negative
  else if 310 < magnitude then .infinite d.negative
  else if magnitude < -330 then zero d.negative
  else
    let (num, den) := rescale 10 d.coefficient 1 (-d.exponent)
    ofRatio d.negative num den

/-- The magnitude of a finite pair as a ratio. -/
def ratioOf (mantissa : Nat) (exponent : Int) : Nat × Nat :=
  rescale 2 mantissa 1 (-exponent)

/-- The integer a finite number is equal to, if there is one. -/
def toInt? : Binary64 → Option Int
  | .finite negative mantissa exponent _ =>
    let (num, den) := ratioOf mantissa exponent
    if num % den = 0 then
      let magnitude : Int := (num / den : Nat)
      some (if negative then -magnitude else magnitude)
    else none
  | _ => none

/-- The number is neither an infinity nor a not-a-number. -/
def isFinite : Binary64 → Bool
  | .finite .. => true
  | _ => false

end Binary64

end OperationTools
