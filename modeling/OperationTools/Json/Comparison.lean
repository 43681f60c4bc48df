import OperationTools.Json.Basic

/-!
# Comparing JSON values

Two values are compared by what they stand for: numbers by their magnitude, however they are
written, and the truth values as one and zero; arrays item by item; objects key by key, in any
order. A not-a-number is equal to nothing.

## Main definitions

* `Json.integer?`: the integer a value stands for
* `Json.sameValue`: whether two values stand for the same

## Main results

* `Json.sameValue_str_iff`: a text is equal to itself alone
* `Json.sameItems_eq_all`, `Json.sameEntries_eq_all`: items are compared one by one, and entries key
  by key
-/

namespace OperationTools

/-- Whether two numbers are equal. Both zeros are, and a not-a-number is equal to nothing. -/
def Binary64.sameNumber : Binary64 → Binary64 → Bool
  | .infinite a, .infinite b => a == b
  | .finite a m e _, .finite b n f _ => m == n && e == f && (a == b || m == 0)
  | _, _ => false

namespace Json

/-- The integer a value stands for, if there is one. -/
def integer? : Json → Option Int
  | .bool b => some (if b then 1 else 0)
  | .int n => some n
  | .float x => x.toInt?
  | _ => none

/-- Whether two values without parts stand for the same. -/
def sameScalar : Json → Json → Bool
  | .null, .null => true
  | .str s, .str t => s == t
  | .float x, .float y => x.sameNumber y
  | a, b =>
    match a.integer?, b.integer? with
    | some m, some n => m == n
    | _, _ => false

mutual

/-- Whether two values stand for the same. -/
def sameValue : Json → Json → Bool
  | .arr xs, .arr ys => sameItems xs ys
  | .obj xs, .obj ys => xs.length == ys.length && sameEntries xs ys
  | a, b => sameScalar a b

/-- Whether the items of two arrays stand for the same, one by one. -/
def sameItems : List Json → List Json → Bool
  | [], [] => true
  | x :: xs, y :: ys => sameValue x y && sameItems xs ys
  | _, _ => false

/-- Whether the entries of an object are found among those of another one. -/
def sameEntries : List (String × Json) → List (String × Json) → Bool
  | [], _ => true
  | (key, x) :: rest, ys => (ys.lookup key).any (fun y => sameValue x y) && sameEntries rest ys

end

@[simp] theorem sameItems_eq_all (xs ys : List Json) :
    sameItems xs ys = (xs.length == ys.length && (xs.zip ys).all fun e => sameValue e.1 e.2) := by
  induction xs generalizing ys with
  | nil => cases ys <;> simp [sameItems]
  | cons x rest ih => cases ys <;> simp [sameItems, ih, Bool.and_left_comm]

@[simp] theorem sameEntries_eq_all (xs ys : List (String × Json)) :
    sameEntries xs ys = xs.all fun e => (ys.lookup e.1).any fun y => sameValue e.2 y := by
  induction xs with
  | nil => rfl
  | cons e rest ih => simp [sameEntries, ih]

/-- A text is equal to itself alone. -/
@[simp] theorem sameValue_str_iff {x : Json} {s : String} :
    x.sameValue (.str s) = true ↔ x = .str s := by
  cases x <;> simp [sameValue, sameScalar, integer?]

end Json

end OperationTools
