import Mathlib.Algebra.Field.Rat
import Mathlib.Algebra.Order.Field.Power
import Mathlib.Algebra.Order.Field.Rat
import OperationTools.Number.Binary64

/-!
# Values of binary numbers

A finite number of the format is a rational number. The integer that it is equal to is found by
exact division.

## Main definitions

* `Binary64.value?`: the rational number that a finite number is

## Main results

* `Binary64.toInt?_eq_some_iff`: a number is equal to an integer if that is its value
-/

namespace OperationTools.Binary64

/-- The rational number that a finite number is. -/
def value? : Binary64 → Option ℚ
  | .finite negative mantissa exponent _ =>
    some ((if negative then -1 else 1) * (mantissa * 2 ^ exponent))
  | _ => none

/-- The magnitude of a finite pair is its mantissa, scaled by a power of two. -/
theorem ratioOf_value (mantissa : Nat) (exponent : Int) :
    0 < (ratioOf mantissa exponent).2 ∧
      ((ratioOf mantissa exponent).1 : ℚ) / (ratioOf mantissa exponent).2 =
        mantissa * 2 ^ exponent := by
  unfold ratioOf rescale
  split
  · obtain ⟨k, hk⟩ := Int.eq_ofNat_of_zero_le (show 0 ≤ -exponent by assumption)
    obtain rfl : exponent = -(k : Int) := by omega
    simp [div_eq_mul_inv]
  · obtain ⟨k, rfl⟩ := Int.eq_ofNat_of_zero_le (show 0 ≤ exponent by omega)
    simp

/-- A ratio is an integer exactly if nothing is left over by the division. -/
theorem natCast_div_eq_intCast_iff {num den : Nat} (hd : 0 < den) {n : Int} :
    (num : ℚ) / den = n ↔ num % den = 0 ∧ ((num / den : Nat) : Int) = n := by
  have hne : (den : ℚ) ≠ 0 := by exact_mod_cast hd.ne'
  rw [div_eq_iff hne]
  constructor
  · intro h
    have hz : (num : Int) = n * den := by exact_mod_cast h
    have hmod : num % den = 0 := by
      have : (den : Int) ∣ num := ⟨n, by rw [hz, Int.mul_comm]⟩
      exact Nat.mod_eq_zero_of_dvd (Int.natCast_dvd_natCast.1 this)
    refine ⟨hmod, ?_⟩
    rw [Int.natCast_div, hz, Int.mul_ediv_cancel _ (by omega)]
  · rintro ⟨hmod, rfl⟩
    have : num = num / den * den := (Nat.div_mul_cancel (Nat.dvd_of_mod_eq_zero hmod)).symm
    exact_mod_cast this

/-- A number is equal to an integer exactly if that is its value. -/
theorem toInt?_eq_some_iff {x : Binary64} {n : Int} :
    x.toInt? = some n ↔ x.value? = some (n : ℚ) := by
  cases x with
  | nan | infinite => simp [toInt?, value?]
  | finite negative mantissa exponent _ =>
    obtain ⟨hpos, hratio⟩ := ratioOf_value mantissa exponent
    have hsign : ∀ m : ℚ, (if negative then -1 else 1) * m = n ↔
        m = ((if negative then -n else n : Int) : ℚ) := by
      intro m
      cases negative
      · simp
      · simp [neg_eq_iff_eq_neg]
    simp only [toInt?, value?, Option.some.injEq, hsign, ← hratio,
      natCast_div_eq_intCast_iff hpos]
    split
    · rename_i hmod
      cases negative with
      | false => simp [hmod]
      | true =>
        simp [hmod]
        omega
    · rename_i hmod
      simp [hmod]

end OperationTools.Binary64
