import OperationTools.Text.Point

/-!
# Searching texts

## Main definitions

* `Text.occursIn`: whether points stand one after another inside others
* `Text.holds`: whether a text stands inside another

## Main results

* `Text.occursIn_iff`: what stands inside has points on both sides of it
-/

namespace OperationTools.Text

/-- Whether points stand one after another inside others. -/
def occursIn (part : List Point) : List Point → Bool
  | [] => part.isEmpty
  | p :: rest => part.isPrefixOf (p :: rest) || occursIn part rest

/-- What stands inside has points on both sides of it. -/
theorem occursIn_iff {part ps : List Point} : occursIn part ps = true ↔ part <:+: ps := by
  induction ps with
  | nil => simp [occursIn]
  | cons p rest ih =>
    simp only [occursIn, Bool.or_eq_true, List.isPrefixOf_iff_prefix, ih, List.infix_cons_iff]

/-- Whether a text stands inside another. -/
def holds (s part : String) : Bool := occursIn (points part.toList) (points s.toList)

end OperationTools.Text
