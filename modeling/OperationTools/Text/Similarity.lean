import OperationTools.Text.Point

/-!
# Similar texts

Two texts are compared by their longest common part, and on both sides of it by the longest common
part of what is left there, and so on. The **similarity** is the share of points that are found in
common parts. Of several names, those similar to a word are suggested in its place.

## Main definitions

* `Text.longestCommon`: the first of the longest common parts
* `Text.matchedLength`: the number of points in common parts
* `Text.suggestions`: the names that are similar to a word

## Main results

* `Text.mem_of_mem_suggestions`: only names that are given are suggested
-/

namespace OperationTools.Text

/-- The length of the longest common start. -/
def commonStart : List Point → List Point → Nat
  | a :: as, b :: bs => if a = b then commonStart as bs + 1 else 0
  | _, _ => 0

/-- A common part of two texts: where it starts in each of them, and its length. -/
structure CommonPart where
  left : Nat
  right : Nat
  length : Nat
deriving DecidableEq, Repr

/-- The longest common part; of several the one that starts first in the first text, then the one
that starts first in the second. -/
def longestCommon (a b : List Point) : CommonPart :=
  let starts := (List.range a.length).flatMap fun i => (List.range b.length).map fun j => (i, j)
  starts.foldl (fun best start =>
    let (i, j) := start
    let n := commonStart (a.drop i) (b.drop j)
    if best.length < n then ⟨i, j, n⟩ else best) ⟨0, 0, 0⟩

/-- The number of points in common parts. The first argument bounds the number of parts. -/
def matchedSteps : Nat → List Point → List Point → Nat
  | 0, _, _ => 0
  | fuel + 1, a, b =>
    let part := longestCommon a b
    if part.length = 0 then 0
    else
      matchedSteps fuel (a.take part.left) (b.take part.right) + part.length +
        matchedSteps fuel (a.drop (part.left + part.length)) (b.drop (part.right + part.length))

/-- The number of points in common parts. -/
def matchedLength (a b : List Point) : Nat := matchedSteps a.length a b

/-- A name and its similarity to a word, as a ratio. -/
structure Candidate where
  name : String
  matched : Nat
  total : Nat
deriving DecidableEq, Repr

namespace Candidate

/-- The comparison of a name with a word. Both texts count, so matched points count twice. -/
def of (word name : String) : Candidate :=
  let a := points name.toList
  let b := points word.toList
  -- a word that is much longer than the name is not similar, whatever it holds
  let matched := if 4 * a.length < b.length then 0 else matchedLength a b
  ⟨name, 2 * matched, a.length + b.length⟩

/-- At least three fifths of the points are found in common parts. -/
def isSimilar (c : Candidate) : Bool := 3 * c.total ≤ 5 * c.matched

/-- The order of candidates: the more similar one comes first, of equally similar ones the one with
the greater name. -/
def before (c d : Candidate) : Bool :=
  if c.matched * d.total = d.matched * c.total then d.name ≤ c.name
  else d.matched * c.total < c.matched * d.total

end Candidate

/-- The names that are similar to a word, at most the three best ones, in ascending order. -/
def suggestions (word : String) (names : List String) : List String :=
  let similar := (names.map (Candidate.of word)).filter Candidate.isSimilar
  (((similar.mergeSort Candidate.before).take 3).map (·.name)).mergeSort (· ≤ ·)

/-- Only names that are given are suggested. -/
theorem mem_of_mem_suggestions {word name : String} {names : List String}
    (h : name ∈ suggestions word names) : name ∈ names := by
  simp only [suggestions, List.mem_mergeSort, List.mem_map] at h
  obtain ⟨c, hc, rfl⟩ := h
  have hs := List.mem_of_mem_take hc
  simp only [List.mem_mergeSort, List.mem_filter, List.mem_map] at hs
  obtain ⟨⟨n, hn, rfl⟩, -⟩ := hs
  exact hn

/-- The question that ends a message about an unknown word. -/
def didYouMean : List String → String
  | [] => ""
  | [name] => s!" Did you mean '{name}'?"
  | names => " (Did you mean one of: " ++ ", ".intercalate (names.map fun n => s!"'{n}'") ++ "?)"

end OperationTools.Text
