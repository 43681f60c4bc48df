import OperationTools.Text.Point

/-!
# Lone halves of pairs

A text with a half that stands alone has no encoding. Where it has to be encoded all the same, its
halves are spelled in another way.

## Main definitions

* `Text.LoneHalves`, `Text.loneHalves?`: the first lone halves of a text
* `Text.escapeHalves`, `Text.replaceHalves`: texts with another spelling of their lone halves

## Main results

* `Text.loneHalvesFrom?_eq_none_iff`: when a text has no lone halves
-/

namespace OperationTools.Text

/-- Lone halves that stand one after another in a text: the first one, its position, and the
position of the last one. -/
structure LoneHalves where
  first : Half
  start : Nat
  stop : Nat
deriving DecidableEq, Repr

/-- The first lone halves of points, the first of which has the given position. -/
def loneHalvesFrom? (position : Nat) : List Point → Option LoneHalves
  | [] => none
  | .half h :: rest => some ⟨h, position, position + (rest.takeWhile Point.isHalf).length⟩
  | .char _ :: rest => loneHalvesFrom? (position + 1) rest

/-- There are no lone halves exactly where no point is a half. -/
theorem loneHalvesFrom?_eq_none_iff {position : Nat} {ps : List Point} :
    loneHalvesFrom? position ps = none ↔ ∀ p ∈ ps, p.isHalf = false := by
  induction ps generalizing position with
  | nil => simp [loneHalvesFrom?]
  | cons p rest ih => cases p <;> simp [loneHalvesFrom?, Point.isHalf, ih]

/-- The first lone halves of a text. -/
def loneHalves? (s : String) : Option LoneHalves := loneHalvesFrom? 0 (points s.toList)

/-- The escape of a code unit of sixteen bits. -/
def unitEscape (n : Nat) : List Char := '\\' :: 'u' :: hex 4 n

/-- The message about a text without an encoding. -/
def LoneHalves.message (e : LoneHalves) : String :=
  let place :=
    if e.start = e.stop then
      "character '" ++ String.ofList (unitEscape e.first.unit) ++ s!"' in position {e.start}"
    else s!"characters in position {e.start}-{e.stop}"
  "'utf-8' codec can't encode " ++ place ++ ": surrogates not allowed"

/-- The text with another spelling of its lone halves. -/
def spellHalves (spelling : Half → List Char) (s : String) : String :=
  String.ofList ((points s.toList).flatMap fun
    | .half h => spelling h
    | p => p.kept)

/-- The text with its lone halves escaped. -/
def escapeHalves (s : String) : String := spellHalves (fun h => unitEscape h.unit) s

/-- The text with three replacement characters for each lone half, one for each of the bytes that it
would have. -/
def replaceHalves (s : String) : String :=
  spellHalves (fun _ => ['\ufffd', '\ufffd', '\ufffd']) s

end OperationTools.Text
