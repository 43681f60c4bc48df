import OperationTools.Proofs.Json.RoundTrip
import OperationTools.Text.Terminal

/-!
# Written values on a terminal

A written value has no control characters but the ends of its lines, as those in its texts and keys
are escaped. So there are no style sequences in it and no carriage returns, and it is printed as it
is.

## Main definitions

* `Text.Plain`: characters without control characters but line ends

## Main results

* `Text.withoutStyles_of_plain`, `Text.withPlainLineEnds_of_plain`: plain texts are printed as they
  are
* `Json.plain_indented`: written values are plain
-/

namespace OperationTools

namespace Text

/-- A line end, or no control character. -/
def isPlain (c : Char) : Bool := c = '\n' || 0x20 ≤ c.toNat

/-- There are no control characters but line ends. -/
def Plain (s : List Char) : Prop := ∀ c ∈ s, isPlain c = true

variable {s t : List Char}

@[simp] theorem plain_nil : Plain [] := by
  simp [Plain]

@[simp] theorem plain_cons {c : Char} : Plain (c :: s) ↔ isPlain c = true ∧ Plain s :=
  List.forall_mem_cons

@[simp] theorem plain_append : Plain (s ++ t) ↔ Plain s ∧ Plain t :=
  List.forall_mem_append

theorem isPlain_iff {c : Char} : isPlain c = true ↔ c = '\n' ∨ 0x20 ≤ c.toNat := by
  simp [isPlain]

theorem plain_of_isDigit (h : ∀ c ∈ s, c.isDigit = true) : Plain s := by
  intro c hc
  have hdigit : 48 ≤ c.toNat := (Char.isDigit_iff_toNat.1 (h c hc)).1
  exact isPlain_iff.2 (.inr (by omega))

@[simp] theorem plain_zeros (k : Nat) : Plain (List.replicate k '0') :=
  plain_of_isDigit fun _ => isDigit_of_mem_zeros

@[simp] theorem plain_toDigits (n : Nat) : Plain (Nat.toDigits 10 n) :=
  plain_of_isDigit fun _ => isDigit_of_mem_toDigits

theorem withoutStylesSteps_of_plain (h : Plain s) (fuel : Nat) : withoutStylesSteps fuel s = s := by
  induction fuel generalizing s with
  | zero => rfl
  | succ fuel ih =>
    cases s with
    | nil => rfl
    | cons c rest =>
      obtain ⟨hc, hrest⟩ := plain_cons.1 h
      have hescape : c ≠ '\x1b' := by
        rintro rfl
        cases hc
      simp [withoutStylesSteps, hescape, ih hrest]

/-- A plain text has no style sequences. -/
theorem withoutStyles_of_plain {s : String} (h : Plain s.toList) : withoutStyles s = s := by
  rw [withoutStyles, withoutStylesSteps_of_plain h, String.ofList_toList]

theorem plainLineEnds_of_plain (h : Plain s) : plainLineEnds s = s := by
  induction s with
  | nil => rfl
  | cons c rest ih =>
    obtain ⟨hc, hrest⟩ := plain_cons.1 h
    have hreturn : c ≠ '\r' := by
      rintro rfl
      cases hc
    rw [plainLineEnds, ih hrest]
    exact fun _ hr => absurd hr hreturn

/-- The lines of a plain text end with one character. -/
theorem withPlainLineEnds_of_plain {s : String} (h : Plain s.toList) : withPlainLineEnds s = s := by
  rw [withPlainLineEnds, plainLineEnds_of_plain h, String.ofList_toList]

end Text

open Text (Plain)

/-! ## Numbers -/

namespace Layout

variable {digits : List Char} {leading : Int}

theorem plain_positional (h : Plain digits) : Plain (positional digits leading) := by
  unfold positional
  split
  · simp [h, Text.isPlain]
  · have htake : Plain (digits.take (leading.toNat + 1)) := fun c hc =>
      h c (List.mem_of_mem_take hc)
    have hdrop : Plain (digits.drop (leading.toNat + 1)) := fun c hc =>
      h c (List.mem_of_mem_drop hc)
    simp only [Text.plain_append, Text.plain_cons, Text.plain_zeros, and_true]
    refine ⟨htake, rfl, ?_⟩
    split
    · simp [Text.isPlain]
    · exact hdrop

theorem plain_scientific (width : Nat) (h : Plain digits) :
    Plain (scientific width digits leading) := by
  unfold scientific
  simp only [Text.plain_append, Text.plain_cons, Text.plain_zeros, Text.plain_toDigits, and_true]
  refine ⟨?_, rfl, ?_⟩
  · split
    · exact h
    · simpa [Text.isPlain] using h
    · exact Text.plain_nil
  · split <;> rfl

theorem plain_decimalText (layout : Layout) (d : Decimal) : Plain (layout.decimalText d) := by
  have hdigits := Text.plain_toDigits d.coefficient
  have hmagnitude : ∀ leading : Int, Plain
      (if layout.leastPositional ≤ leading ∧ leading ≤ layout.greatestPositional then
        positional (Nat.toDigits 10 d.coefficient) leading
      else scientific layout.exponentWidth (Nat.toDigits 10 d.coefficient) leading) := by
    intro leading
    split
    · exact plain_positional hdigits
    · exact plain_scientific _ hdigits
  unfold decimalText
  dsimp only
  split
  · exact Text.plain_cons.2 ⟨rfl, hmagnitude _⟩
  · exact hmagnitude _

theorem plain_text (layout : Layout) (x : Binary64) : Plain (layout.text x).toList := by
  unfold text
  split
  · simp [Text.isPlain]
  · simp [Text.isPlain]
  · simp [Text.isPlain]
  · rw [String.toList_ofList]
    exact plain_decimalText layout _

end Layout

namespace Json

/-! ## Texts -/

theorem plain_escapedChar (c : Char) : Plain (escapedChar c) := by
  unfold escapedChar
  split <;> try simp [Text.isPlain]
  split
  · rename_i hc
    have hall : ∀ k : Fin 0x20, (Text.unitEscape k.val).all Text.isPlain = true := by decide
    exact List.all_eq_true.1 (hall ⟨_, hc⟩)
  · rename_i hc
    exact Text.plain_cons.2 ⟨Text.isPlain_iff.2 (.inr (Nat.le_of_not_lt hc)), Text.plain_nil⟩

theorem plain_writtenText (s : String) : Plain (writtenText .result s).toList := by
  have hescaped : Plain (escaped .controls s.toList) := fun c hc => by
    obtain ⟨d, -, hd⟩ := List.mem_flatMap.1 hc
    exact plain_escapedChar d c hd
  simpa [writtenText, Style.result, Text.isPlain] using hescaped

theorem plain_writtenScalar (x : Json) : Plain (writtenScalar .result x).toList := by
  cases x with
  | null | arr | obj => simp [writtenScalar, Text.isPlain]
  | bool b => cases b <;> simp [writtenScalar, Text.isPlain]
  | int n =>
    intro c hc
    rcases Text.isDigit_or_eq_of_mem_toString hc with hdigit | rfl
    · exact Text.plain_of_isDigit (s := [c]) (by simpa using hdigit) c (by simp)
    · rfl
  | float y =>
    simp only [writtenScalar, writtenNumber, Style.result, Bool.false_eq_true, if_false]
    split
    · exact Layout.plain_text _ y
    · simp [Text.isPlain]
  | str s => exact plain_writtenText s

/-! ## Values -/

theorem plain_lineStart (level : Nat) : Plain (lineStart level).toList := by
  rw [toList_lineStart]
  refine Text.plain_cons.2 ⟨rfl, fun c hc => ?_⟩
  rw [List.eq_of_mem_replicate hc]
  rfl

theorem plain_intercalate {sep : List Char} {parts : List (List Char)} (hs : Plain sep)
    (hp : ∀ t ∈ parts, Plain t) : Plain (sep.intercalate parts) := by
  induction parts with
  | nil => exact Text.plain_nil
  | cons t parts ih =>
    obtain ⟨ht, hp⟩ := List.forall_mem_cons.1 hp
    cases parts with
    | nil => simpa using ht
    | cons u parts => simp [ht, hs, ih hp]

theorem plain_bracketed (level : Nat) {opening closing : String} {parts : List String}
    (ho : Plain opening.toList) (hc : Plain closing.toList)
    (hp : ∀ t ∈ parts, Plain t.toList) :
    Plain (bracketed level opening closing parts).toList := by
  by_cases hparts : parts = []
  · simp [bracketed, hparts, ho, hc]
  · have hsep : Plain (',' :: (lineStart (level + 1)).toList) :=
      Text.plain_cons.2 ⟨rfl, plain_lineStart _⟩
    have hjoined := plain_intercalate hsep (List.forall_mem_map.2 hp)
    simp [toList_bracketed level opening closing hparts, ho, hc, plain_lineStart, hjoined]

/-- Written values are plain. -/
theorem plain_indented (x : Json) : Plain (indented .result x).toList := by
  suffices ∀ level, Plain (indentedAt .result level x).toList from this 0
  induction x using Json.induction with
  | scalar x ha ho =>
    cases x with
    | arr => exact absurd rfl ha
    | obj => exact absurd rfl ho
    | _ => exact fun _ => plain_writtenScalar _
  | arr items ih =>
    intro level
    rw [indentedAt, indentedItems_eq_map]
    exact plain_bracketed level (by simp [Text.isPlain]) (by simp [Text.isPlain])
      (List.forall_mem_map.2 fun x hx => ih x hx _)
  | obj entries ih =>
    intro level
    rw [indentedAt, indentedEntries_eq_map]
    refine plain_bracketed level (by simp [Text.isPlain]) (by simp [Text.isPlain])
      (List.forall_mem_map.2 fun e he => ?_)
    simpa [Text.isPlain, plain_writtenText] using ih e he _

end Json

end OperationTools
