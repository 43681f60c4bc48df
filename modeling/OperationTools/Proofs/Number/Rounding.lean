import Mathlib.Data.Nat.Cast.Field
import Mathlib.Data.Rat.Lemmas
import Mathlib.Tactic.Linarith
import Mathlib.Tactic.Positivity
import Mathlib.Tactic.Ring
import OperationTools.Number.Shortest
import OperationTools.Proofs.Number.Value

/-!
# Rounding to binary numbers

The number of a decimal depends on its value alone, and a decimal whose value is that of a finite
number is read as this number. So it does not matter how many zeros a decimal is written with, and
the decimal that a finite number is written as reads back as the number.

## Main definitions

* `Decimal.magnitude`: the rational number that a decimal is, without its sign

## Main results

* `Binary64.ofRatio_congr`: equal ratios have the same number
* `Binary64.ofDecimal_congr`: equal decimals have the same number
* `Binary64.ofDecimal_of_magnitude`: a decimal that is equal to a finite number is read as it
* `Binary64.ofDecimal_shortest`: what a finite number is written as reads back
-/

namespace OperationTools

/-! ## Ratios -/

/-- A ratio that is rescaled is divided by a power of the base. -/
theorem rescale_value {base den : Nat} (hb : 0 < base) (num : Nat) (hd : 0 < den) (k : Int) :
    0 < (rescale base num den k).2 ∧
      ((rescale base num den k).1 : ℚ) / (rescale base num den k).2 =
        num / den * (base : ℚ) ^ (-k) := by
  have hbase : (base : ℚ) ≠ 0 := by exact_mod_cast hb.ne'
  unfold rescale
  split
  · obtain ⟨n, rfl⟩ := Int.eq_ofNat_of_zero_le (show 0 ≤ k by assumption)
    refine ⟨Nat.mul_pos hd (Nat.pow_pos hb), ?_⟩
    simp only [Nat.cast_mul, zpow_neg, zpow_natCast, Nat.pow_eq, Nat.cast_pow,
      Int.toNat_natCast]
    rw [div_mul_eq_div_div, div_eq_mul_inv]
  · obtain ⟨n, hn⟩ := Int.eq_ofNat_of_zero_le (show 0 ≤ -k by omega)
    refine ⟨hd, ?_⟩
    simp [hn, div_eq_mul_inv, mul_right_comm]

/-- A ratio is equal to its lowest terms. -/
theorem lowestTerms_value (num : Nat) {den : Nat} (hd : 0 < den) :
    0 < den / num.gcd den ∧
      ((num / num.gcd den : Nat) : ℚ) / (den / num.gcd den : Nat) = num / den := by
  have hg : 0 < num.gcd den := Nat.gcd_pos_of_pos_right _ hd
  have hgq : ((num.gcd den : Nat) : ℚ) ≠ 0 := by exact_mod_cast hg.ne'
  refine ⟨Nat.div_pos (Nat.gcd_le_right _ hd) hg, ?_⟩
  rw [Nat.cast_div (Nat.gcd_dvd_left ..) hgq, Nat.cast_div (Nat.gcd_dvd_right ..) hgq,
    div_div_div_cancel_right₀ hgq]

/-- Equal ratios have the same lowest terms. -/
theorem lowestTerms_eq {num den num' den' : Nat} (hd : 0 < den) (hd' : 0 < den')
    (h : (num : ℚ) / den = num' / den') :
    num / num.gcd den = num' / num'.gcd den' ∧ den / num.gcd den = den' / num'.gcd den' := by
  obtain ⟨hpos, hvalue⟩ := lowestTerms_value num hd
  obtain ⟨hpos', hvalue'⟩ := lowestTerms_value num' hd'
  have hcop := Nat.coprime_div_gcd_div_gcd (m := num) (Nat.gcd_pos_of_pos_right _ hd)
  have hcop' := Nat.coprime_div_gcd_div_gcd (m := num') (Nat.gcd_pos_of_pos_right _ hd')
  have hterms : (((num / num.gcd den : Nat) : Int) : ℚ) / ((den / num.gcd den : Nat) : Int) =
      ((num' / num'.gcd den' : Nat) : Int) / ((den' / num'.gcd den' : Nat) : Int) := by
    simpa only [Int.cast_natCast, hvalue, hvalue'] using h
  refine (Rat.div_int_inj (Int.natCast_pos.2 hpos) (Int.natCast_pos.2 hpos') ?_ ?_ hterms).imp
    Int.ofNat.inj Int.ofNat.inj
  · exact hcop
  · exact hcop'

/-- A ratio lies between neighbouring powers of two, by the lengths of its terms. -/
theorem between_of_log2 {num den : Nat} (hn : 0 < num) (hd : 0 < den) :
    (2 : ℚ) ^ ((num.log2 : Int) - den.log2 - 1) < num / den ∧
      (num : ℚ) / den < 2 ^ ((num.log2 : Int) - den.log2 + 1) := by
  have hdq : (0 : ℚ) < den := by exact_mod_cast hd
  have hlow : ((2 : ℚ) ^ (num.log2 : Int)) ≤ num := by
    exact_mod_cast Nat.log2_self_le hn.ne'
  have hhigh : (num : ℚ) < 2 ^ ((num.log2 : Int) + 1) := by
    exact_mod_cast Nat.lt_log2_self (n := num)
  have hlow' : ((2 : ℚ) ^ (den.log2 : Int)) ≤ den := by
    exact_mod_cast Nat.log2_self_le hd.ne'
  have hhigh' : (den : ℚ) < 2 ^ ((den.log2 : Int) + 1) := by
    exact_mod_cast Nat.lt_log2_self (n := den)
  constructor
  · rw [lt_div_iff₀ hdq]
    calc (2 : ℚ) ^ ((num.log2 : Int) - den.log2 - 1) * den
        < 2 ^ ((num.log2 : Int) - den.log2 - 1) * 2 ^ ((den.log2 : Int) + 1) := by gcongr
      _ = 2 ^ (num.log2 : Int) := by
        rw [← zpow_add₀ two_ne_zero]
        congr 1
        omega
      _ ≤ num := hlow
  · rw [div_lt_iff₀ hdq]
    calc (num : ℚ) < 2 ^ ((num.log2 : Int) + 1) := hhigh
      _ = 2 ^ ((num.log2 : Int) - den.log2 + 1) * 2 ^ (den.log2 : Int) := by
        rw [← zpow_add₀ two_ne_zero]
        congr 1
        omega
      _ ≤ 2 ^ ((num.log2 : Int) - den.log2 + 1) * den := by gcongr

namespace Binary64

variable {negative : Bool} {mantissa num den num' den' : Nat} {exponent : Int}

/-- Equal ratios have the same number. -/
theorem ofRatio_congr (hd : 0 < den) (hd' : 0 < den') (h : (num : ℚ) / den = num' / den') :
    ofRatio negative num den = ofRatio negative num' den' := by
  have hz : num = 0 ↔ num' = 0 := by
    have hdq : (den : ℚ) ≠ 0 := by exact_mod_cast hd.ne'
    have hdq' : (den' : ℚ) ≠ 0 := by exact_mod_cast hd'.ne'
    rw [div_eq_div_iff hdq hdq'] at h
    constructor <;> rintro rfl
    · simpa [hdq] using h.symm
    · simpa [hdq'] using h
  obtain ⟨hnum, hden⟩ := lowestTerms_eq hd hd' h
  simp only [ofRatio, hz, hnum, hden]

/-- Whether a ratio that is rescaled has a mantissa of 53 bits is told by its value. -/
theorem rescale_lt_mantissaBound_iff (hd : 0 < den) (k : Int) :
    (rescale 2 num den k).1 / (rescale 2 num den k).2 < mantissaBound ↔
      (num : ℚ) / den * 2 ^ (-k) < mantissaBound := by
  obtain ⟨hpos, hvalue⟩ := rescale_value two_pos num hd k
  have hposq : (0 : ℚ) < (rescale 2 num den k).2 := by exact_mod_cast hpos
  rw [Nat.div_lt_iff_lt_mul hpos, ← Nat.cast_ofNat (R := ℚ), ← hvalue, div_lt_iff₀ hposq]
  exact_mod_cast Iff.rfl

/-- The exponent of a ratio that is equal to a finite number is the one of the number. -/
theorem ratioExponent_of_value (hc : Canonical mantissa exponent) (hm : 0 < mantissa)
    (hd : 0 < den) (h : (num : ℚ) / den = mantissa * 2 ^ exponent) :
    ratioExponent num den = exponent := by
  obtain ⟨hbound, hleast, -, hfull⟩ := hc
  have hmq : (0 : ℚ) < mantissa := by exact_mod_cast hm
  have hdq : (0 : ℚ) < den := by exact_mod_cast hd
  have hn : 0 < num := by
    have hpos : (0 : ℚ) < num / den := by
      rw [h]
      positivity
    exact_mod_cast (div_pos_iff_of_pos_right hdq).1 hpos
  obtain ⟨hlow, hhigh⟩ := between_of_log2 hn hd
  rw [h] at hlow hhigh
  generalize hk : (num.log2 : Int) - den.log2 = k at hlow hhigh
  -- the guess is the exponent or, for a full mantissa, one below it
  have hle : k - 53 ≤ exponent := by
    have hlt : (2 : ℚ) ^ (k - 1) < 2 ^ (53 + exponent) := by
      refine hlow.trans ?_
      rw [zpow_add₀ two_ne_zero]
      gcongr
      exact_mod_cast hbound
    have := (zpow_lt_zpow_iff_right₀ (one_lt_two : (1 : ℚ) < 2)).1 hlt
    omega
  have hguess : max (k - 53) (-1074) = exponent ∨
      (max (k - 53) (-1074) = exponent - 1 ∧ fullMantissa ≤ mantissa) := by
    rcases hfull with hfull | rfl
    · have hlt : (2 : ℚ) ^ (52 + exponent) < 2 ^ (k + 1) := by
        refine lt_of_le_of_lt ?_ hhigh
        rw [zpow_add₀ two_ne_zero]
        gcongr
        exact_mod_cast hfull
      have := (zpow_lt_zpow_iff_right₀ (one_lt_two : (1 : ℚ) < 2)).1 hlt
      omega
    · omega
  unfold ratioExponent
  simp only [hk, rescale_lt_mantissaBound_iff hd, h]
  rcases hguess with hg | ⟨hg, hfull⟩
  · have hscaled : (mantissa : ℚ) * 2 ^ exponent * 2 ^ (-exponent) = mantissa := by
      rw [mul_assoc, ← zpow_add₀ two_ne_zero, add_neg_cancel, zpow_zero, mul_one]
    rw [hg, hscaled, if_pos (by exact_mod_cast hbound)]
  · have hscaled : (mantissa : ℚ) * 2 ^ exponent * 2 ^ (-(exponent - 1)) = 2 * mantissa := by
      rw [mul_assoc, ← zpow_add₀ two_ne_zero, show exponent + -(exponent - 1) = 1 by omega,
        zpow_one, mul_comm]
    have hlarge : ¬ ((2 * mantissa : Nat) : ℚ) < mantissaBound := by
      have : mantissaBound = 2 * fullMantissa := by decide
      exact_mod_cast Nat.not_lt.2 (this ▸ Nat.mul_le_mul_left 2 hfull)
    rw [hg, hscaled, if_neg (by exact_mod_cast hlarge)]
    omega

/-- A ratio that is equal to a finite number is rounded to it. At the exponent of the number it is
the mantissa, so that nothing is rounded. -/
theorem ofRatio_of_value (hc : Canonical mantissa exponent) (hm : 0 < mantissa) (hd : 0 < den)
    (h : (num : ℚ) / den = mantissa * 2 ^ exponent) :
    ofRatio negative num den = .finite negative mantissa exponent hc := by
  have hn : num ≠ 0 := by
    rintro rfl
    have hpos : (0 : ℚ) < mantissa * 2 ^ exponent := by
      have hmq : (0 : ℚ) < mantissa := by exact_mod_cast hm
      positivity
    simp [← h] at hpos
  obtain ⟨hd', hvalue⟩ := lowestTerms_value num hd
  rw [ofRatio, if_neg hn, round]
  rw [h] at hvalue
  generalize num / num.gcd den = a at *
  generalize den / num.gcd den = b at *
  obtain ⟨hpos, hscaled⟩ := rescale_value two_pos a hd' exponent
  have hexact : (rescale 2 a b exponent).1 = mantissa * (rescale 2 a b exponent).2 := by
    have hposq : ((rescale 2 a b exponent).2 : ℚ) ≠ 0 := by exact_mod_cast hpos.ne'
    rw [hvalue, Nat.cast_ofNat, mul_assoc, ← zpow_add₀ two_ne_zero, add_neg_cancel, zpow_zero,
      mul_one, div_eq_iff hposq] at hscaled
    exact_mod_cast hscaled
  simp only [ratioExponent_of_value hc hm hd' hvalue, hexact, roundHalfEven_mul mantissa hpos,
    if_neg hc.1.ne, ofParts_of_canonical hc]

end Binary64

/-! ## Decimals -/

namespace Decimal

/-- The rational number that a decimal is, without its sign. -/
def magnitude (d : Decimal) : ℚ := d.coefficient * 10 ^ d.exponent

variable {d : Decimal}

theorem magnitude_eq_zero_iff : d.magnitude = 0 ↔ d.coefficient = 0 := by
  have hne : (10 : ℚ) ^ d.exponent ≠ 0 := zpow_ne_zero _ (by norm_num)
  simp [magnitude, hne]

/-- The magnitude lies between neighbouring powers of ten, by the number of its digits. -/
theorem between_of_decimalDigits (h : d.coefficient ≠ 0) :
    (10 : ℚ) ^ ((decimalDigits d.coefficient : Int) + d.exponent - 1) ≤ d.magnitude ∧
      d.magnitude < 10 ^ ((decimalDigits d.coefficient : Int) + d.exponent) := by
  obtain ⟨k, hk⟩ : ∃ k, decimalDigits d.coefficient = k + 1 :=
    Nat.exists_eq_succ_of_ne_zero Nat.length_toDigits_pos.ne'
  have hhigh : d.coefficient < 10 ^ (k + 1) :=
    (Nat.length_toDigits_le_iff (by decide) k.succ_pos).1 hk.le
  have hlow : 10 ^ k ≤ d.coefficient := by
    rcases Nat.eq_zero_or_pos k with rfl | hpos
    · exact Nat.one_le_iff_ne_zero.2 h
    · by_contra hlt
      have := (Nat.length_toDigits_le_iff (b := 10) (by decide) hpos).2 (Nat.lt_of_not_le hlt)
      unfold decimalDigits at hk
      omega
  have hpow : ∀ n : Nat, (10 : ℚ) ^ ((n : Int) + d.exponent) = (10 ^ n : Nat) * 10 ^ d.exponent := by
    intro n
    rw [zpow_add₀ (by norm_num), zpow_natCast, Nat.cast_pow, Nat.cast_ofNat]
  unfold magnitude
  rw [hk]
  constructor
  · rw [show ((k + 1 : Nat) : Int) + d.exponent - 1 = (k : Int) + d.exponent by omega, hpow]
    gcongr
  · rw [hpow]
    gcongr

/-- A decimal has one trailing zero less for a larger exponent, so that trimming keeps its value. -/
theorem trimmed_eq (d : Decimal) :
    d.trimmed.negative = d.negative ∧ d.trimmed.magnitude = d.magnitude := by
  induction d using Decimal.trimmed.induct with
  | case1 d h =>
    rw [Decimal.trimmed, if_pos h]
    exact ⟨rfl, by simp [magnitude, h]⟩
  | case2 d h h10 ih =>
    rw [Decimal.trimmed, if_neg h, if_pos h10]
    refine ⟨ih.1, ih.2.trans ?_⟩
    have hten : d.coefficient = d.coefficient / 10 * 10 := by omega
    have hq : (d.coefficient : ℚ) = (d.coefficient / 10 : Nat) * 10 := by exact_mod_cast hten
    unfold magnitude
    rw [hq, zpow_add₀ (by norm_num), zpow_one]
    ring
  | case3 d h h10 =>
    rw [Decimal.trimmed, if_neg h, if_neg h10]
    exact ⟨rfl, rfl⟩

/-- A trimmed decimal without digits has no exponent. -/
theorem exponent_trimmed (d : Decimal) (h : d.trimmed.coefficient = 0) : d.trimmed.exponent = 0 := by
  induction d using Decimal.trimmed.induct with
  | case1 d hz => rw [Decimal.trimmed, if_pos hz]
  | case2 d hz h10 ih =>
    rw [Decimal.trimmed, if_neg hz, if_pos h10] at h ⊢
    exact ih h
  | case3 d hz h10 =>
    rw [Decimal.trimmed, if_neg hz, if_neg h10] at h
    exact absurd h hz

end Decimal

namespace Binary64

variable {d d' : Decimal}

/-- The ratio of a decimal is its magnitude. -/
theorem rescale_decimal_value (d : Decimal) :
    0 < (rescale 10 d.coefficient 1 (-d.exponent)).2 ∧
      ((rescale 10 d.coefficient 1 (-d.exponent)).1 : ℚ) /
        (rescale 10 d.coefficient 1 (-d.exponent)).2 = d.magnitude := by
  simpa [Decimal.magnitude] using
    rescale_value (by decide : 0 < 10) d.coefficient one_pos (-d.exponent)

/-- Equal decimals have the same number. -/
theorem ofDecimal_congr (hn : d.negative = d'.negative) (h : d.magnitude = d'.magnitude) :
    ofDecimal d = ofDecimal d' := by
  by_cases hz : d.coefficient = 0
  · have hz' : d'.coefficient = 0 :=
      Decimal.magnitude_eq_zero_iff.1 (h ▸ Decimal.magnitude_eq_zero_iff.2 hz)
    simp [ofDecimal, hz, hz', hn]
  · have hz' : d'.coefficient ≠ 0 := fun he =>
      hz (Decimal.magnitude_eq_zero_iff.1 (h ▸ Decimal.magnitude_eq_zero_iff.2 he))
    have hlength : (decimalDigits d.coefficient : Int) + d.exponent =
        decimalDigits d'.coefficient + d'.exponent := by
      obtain ⟨hlow, hhigh⟩ := Decimal.between_of_decimalDigits hz
      obtain ⟨hlow', hhigh'⟩ := Decimal.between_of_decimalDigits hz'
      have hlt := (zpow_lt_zpow_iff_right₀ (by norm_num : (1 : ℚ) < 10)).1
        (lt_of_le_of_lt hlow (h ▸ hhigh'))
      have hgt := (zpow_lt_zpow_iff_right₀ (by norm_num : (1 : ℚ) < 10)).1
        (lt_of_le_of_lt hlow' (h ▸ hhigh))
      omega
    obtain ⟨hpos, hvalue⟩ := rescale_decimal_value d
    obtain ⟨hpos', hvalue'⟩ := rescale_decimal_value d'
    simp only [ofDecimal, hlength, hn, if_neg hz, if_neg hz',
      ofRatio_congr hpos hpos' (hvalue.trans (h.trans hvalue'.symm))]

/-- No finite number is too large or too small for a decimal to be read. -/
theorem between_of_canonical (hc : Canonical mantissa exponent) (hm : 0 < mantissa) :
    (10 : ℚ) ^ (-324 : Int) < mantissa * 2 ^ exponent ∧
      (mantissa : ℚ) * 2 ^ exponent < 10 ^ (309 : Int) := by
  obtain ⟨hbound, hleast, hmost, -⟩ := hc
  have hleast' : 2 ^ 1074 < 10 ^ 324 := by decide +kernel
  have hmost' : mantissaBound * 2 ^ 971 < 10 ^ 309 := by decide +kernel
  constructor
  · calc (10 : ℚ) ^ (-324 : Int) < 2 ^ (-1074 : Int) := by
          rw [zpow_neg, zpow_neg]
          exact inv_strictAnti₀ (by positivity) (by exact_mod_cast hleast')
      _ ≤ 2 ^ exponent := zpow_le_zpow_right₀ one_le_two hleast
      _ ≤ mantissa * 2 ^ exponent := le_mul_of_one_le_left (by positivity) (by exact_mod_cast hm)
  · calc (mantissa : ℚ) * 2 ^ exponent < (mantissaBound : Nat) * 2 ^ exponent := by gcongr
      _ ≤ (mantissaBound : Nat) * 2 ^ (971 : Int) := by
          gcongr
          exact one_le_two
      _ < 10 ^ (309 : Int) := by exact_mod_cast hmost'

/-- A decimal that is equal to a finite number is read as this number. -/
theorem ofDecimal_of_magnitude (hc : Canonical mantissa exponent)
    (h : d.magnitude = mantissa * 2 ^ exponent) :
    ofDecimal d = .finite d.negative mantissa exponent hc := by
  rcases Nat.eq_zero_or_pos mantissa with rfl | hm
  · have hz : d.coefficient = 0 := Decimal.magnitude_eq_zero_iff.1 (by simp [h])
    obtain rfl : exponent = -1074 := hc.2.2.2.resolve_left (by decide)
    simp [ofDecimal, hz, zero]
  · obtain ⟨hlow, hhigh⟩ := between_of_canonical hc hm
    rw [← h] at hlow hhigh
    have hz : d.coefficient ≠ 0 := fun he => by
      rw [Decimal.magnitude_eq_zero_iff.2 he] at hlow
      exact absurd hlow (not_lt.2 (by positivity))
    obtain ⟨hdigits, hdigits'⟩ := Decimal.between_of_decimalDigits hz
    have hmost := (zpow_lt_zpow_iff_right₀ (by norm_num : (1 : ℚ) < 10)).1
      (lt_of_le_of_lt hdigits hhigh)
    have hleast := (zpow_lt_zpow_iff_right₀ (by norm_num : (1 : ℚ) < 10)).1 (hlow.trans hdigits')
    obtain ⟨hpos, hvalue⟩ := rescale_decimal_value d
    unfold ofDecimal
    rw [if_neg hz, if_neg (by omega), if_neg (by omega)]
    exact ofRatio_of_value hc hm hpos (hvalue.trans h)

theorem magnitude_exactDecimal (negative : Bool) (mantissa : Nat) (exponent : Int) :
    (exactDecimal negative mantissa exponent).negative = negative ∧
      (exactDecimal negative mantissa exponent).magnitude = mantissa * 2 ^ exponent := by
  unfold exactDecimal
  split
  · obtain ⟨k, rfl⟩ := Int.eq_ofNat_of_zero_le (show 0 ≤ exponent by assumption)
    simp [Decimal.magnitude]
  · obtain ⟨k, hk⟩ := Int.eq_ofNat_of_zero_le (show 0 ≤ -exponent by omega)
    obtain rfl : exponent = -(k : Int) := by omega
    refine ⟨rfl, ?_⟩
    have hcancel : (5 : ℚ) ^ k * (10 ^ k)⁻¹ = (2 ^ k)⁻¹ := by
      rw [show (10 : ℚ) = 5 * 2 by norm_num, mul_pow, mul_inv, ← mul_assoc,
        mul_inv_cancel₀ (by positivity), one_mul]
    simp [Decimal.magnitude, mul_assoc, hcancel]

/-- What a finite number is written as reads back: a decimal from a grid was checked, and the exact
one is equal to the number. -/
theorem ofDecimal_shortest (hc : Canonical mantissa exponent) :
    ofDecimal ((finite negative mantissa exponent hc).shortest negative mantissa exponent) =
      .finite negative mantissa exponent hc := by
  unfold shortest
  split
  · rename_i hz
    exact ofDecimal_of_magnitude hc (by simp [Decimal.magnitude, hz])
  · obtain ⟨hsign, hmagnitude⟩ := Decimal.trimmed_eq _
    rw [ofDecimal_congr hsign hmagnitude]
    cases hfound : (List.range 17).findSome? _ with
    | some d =>
      obtain ⟨n, -, hgrid⟩ := List.exists_of_findSome?_eq_some hfound
      exact ofDecimal_of_onGrid? hgrid
    | none =>
      obtain ⟨hsign, hmagnitude⟩ := magnitude_exactDecimal negative mantissa exponent
      rw [Option.getD_none, ofDecimal_of_magnitude hc hmagnitude]
      simp only [hsign]

end Binary64

end OperationTools
