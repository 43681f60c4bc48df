import OperationTools.Text.Escape

/-!
# Points of texts

A text is a sequence of points: characters, and halves of pairs of code units that stand alone. No
character stands for a half, so texts are **kept** in a form of their own: a half as a mark and a
character that tells which half it is, the mark itself twice, and every other character as it is.
Texts are put into this form where they come in, and leave it where they go out.

## Main definitions

* `Text.Half`, `Text.Point`: halves and points
* `Text.Point.kept`, `Text.points`: the characters that a point is kept as, and the points of
  characters
* `Text.kept`, `Text.plain`: the kept form of a text, and the text of a kept form

## Main results

* `Text.points_flatMap_kept`: a kept text tells its points
* `Text.plain_kept`: a text that is kept is the same text
-/

namespace OperationTools.Text

/-- The code unit is half of a pair. -/
def isHalf (n : Nat) : Bool := isHighSurrogate n || isLowSurrogate n

theorem isHalf_iff {n : Nat} : isHalf n = true ↔ 0xd800 ≤ n ∧ n < 0xe000 := by
  simp only [isHalf, isHighSurrogate, isLowSurrogate, Bool.or_eq_true, Bool.and_eq_true,
    decide_eq_true_eq]
  omega

/-- A code unit that is half of a pair. -/
structure Half where
  unit : Nat
  isHalf_unit : isHalf unit = true
deriving DecidableEq, Repr

/-- A point of a text. -/
inductive Point where
  | char (c : Char)
  | half (h : Half)
deriving DecidableEq, Repr

/-- The mark of a half, which is the last of all characters. -/
def mark : Char := Char.ofNat 0x10ffff

/-- How far the character that tells a half lies from the half itself. -/
def halfShift : Nat := 0x800

namespace Point

/-- The point of a code unit of sixteen bits. -/
def ofUnit (n : Nat) : Point :=
  if h : isHalf n = true then .half ⟨n, h⟩ else .char (Char.ofNat n)

/-- The characters that a point is kept as. -/
def kept : Point → List Char
  | .char c => if c = mark then [mark, mark] else [c]
  | .half h => [mark, Char.ofNat (h.unit + halfShift)]

/-- Whether a point is half of a pair. -/
def isHalf : Point → Bool
  | .char _ => false
  | .half _ => true

end Point

/-- The points of characters. A mark with nothing after it to mark stands for itself. -/
def points : List Char → List Point
  | [] => []
  | [c] => [.char c]
  | c :: d :: rest =>
    if c ≠ mark then .char c :: points (d :: rest)
    else if h : isHalf (d.toNat - halfShift) = true then .half ⟨_, h⟩ :: points rest
    else if d = mark then .char mark :: points rest
    else .char mark :: points (d :: rest)

/-- The kept form of a text. -/
def kept (s : String) : String :=
  String.ofList (s.toList.flatMap fun c => (Point.char c).kept)

/-- The text of a kept form. A half that stands alone cannot be shown and is replaced. -/
def plain (s : String) : String :=
  String.ofList ((points s.toList).map fun
    | .char c => c
    | .half _ => '\ufffd')

/-! ## Keeping points -/

theorem toNat_ofNat_half (h : Half) : (Char.ofNat (h.unit + halfShift)).toNat =
    h.unit + halfShift := by
  have hn := isHalf_iff.1 h.isHalf_unit
  have hv : (h.unit + halfShift).isValidChar := Or.inr ⟨by simp only [halfShift]; omega,
    by simp only [halfShift]; omega⟩
  rw [Char.ofNat, dif_pos hv]
  rfl

/-- What a point is kept as is read as this point, whatever follows. -/
theorem points_kept_append (p : Point) (rest : List Char) :
    points (p.kept ++ rest) = p :: points rest := by
  cases p with
  | half h =>
    have hu : (Char.ofNat (h.unit + halfShift)).toNat - halfShift = h.unit := by
      rw [toNat_ofNat_half]
      omega
    simp [Point.kept, points, hu, h.isHalf_unit]
  | char c =>
    by_cases hc : c = mark
    · have hm : isHalf (mark.toNat - halfShift) = false := by decide
      simp [Point.kept, points, hc, hm]
    · cases rest <;> simp [Point.kept, points, hc]

/-- A kept text tells its points. -/
theorem points_flatMap_kept (ps : List Point) : points (ps.flatMap Point.kept) = ps := by
  induction ps with
  | nil => rfl
  | cons p rest ih => rw [List.flatMap_cons, points_kept_append, ih]

/-- A text that is kept is the same text. -/
theorem plain_kept (s : String) : plain (kept s) = s := by
  have h : s.toList.flatMap (fun c => (Point.char c).kept) =
      (s.toList.map Point.char).flatMap Point.kept := by
    simp [List.flatMap_map]
  simp [plain, kept, h, points_flatMap_kept, Function.comp_def]

end OperationTools.Text
