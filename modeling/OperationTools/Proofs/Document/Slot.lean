import OperationTools.Document.Writer

/-!
# Slots in a document

A selection is written from the outside inwards, so what stands in a document before and after the
text of a part does not depend on what is selected of that part, as long as anything is.

## Main definitions

* `Slot`: an object with a hole under one of its keys
* `Slot.within`: a value inside several objects
* `Selection.nested`, `Selection.narrowed`: the two ways of writing a part

## Main results

* `Operation.exists_around`: the text around a part of a document
* `Selection.partsText_eq_narrowed_iff`: when the text of a part is a narrowing
-/

namespace OperationTools

/-- An object with a hole under one of its keys. -/
structure Slot where
  before : List (String × Json)
  key : String
  after : List (String × Json)

namespace Slot

/-- The object with a value in the hole. -/
def fill (slot : Slot) (x : Json) : Json := .obj (slot.before ++ (slot.key, x) :: slot.after)

/-- A value inside several objects, the outermost of which comes first. -/
def within (outer : List Slot) (x : Json) : Json := outer.foldr fill x

@[simp] theorem within_cons (slot : Slot) (outer : List Slot) (x : Json) :
    within (slot :: outer) x = slot.fill (within outer x) := rfl

end Slot

namespace Selection

/-- Separated parts, one of which is written alone. -/
theorem exists_intercalate_around (separator : String) (before after : List String) :
    ∃ a b : String, ∀ t, separator.intercalate (before ++ t :: after) = a ++ t ++ b := by
  have htail : ∃ b : String, ∀ t, separator.intercalate (t :: after) = t ++ b := by
    cases after with
    | nil => exact ⟨"", fun t => by simp⟩
    | cons u rest => exact ⟨separator ++ separator.intercalate (u :: rest), fun t => by
        rw [String.intercalate_cons_cons, String.append_assoc]⟩
  obtain ⟨b, hb⟩ := htail
  by_cases h : before = []
  · exact ⟨"", b, fun t => by rw [h, List.nil_append, hb, String.empty_append]⟩
  · refine ⟨separator.intercalate before ++ separator, b, fun t => ?_⟩
    rw [String.intercalate_append_of_ne_nil h (by simp), hb, String.append_assoc]
    simp only [String.append_assoc]

/-- The text around one part of an object. -/
theorem exists_around_slot (slot : Slot) :
    ∃ a b : String, ∀ x t, fieldText? slot.key (ofJson x) = some t →
      (ofJson (slot.fill x)).text = a ++ t ++ b := by
  obtain ⟨a, b, hab⟩ := exists_intercalate_around " " (fieldTexts (ofEntries slot.before))
    (fieldTexts (ofEntries slot.after))
  refine ⟨a, b, fun x t ht => ?_⟩
  have htexts : fieldTexts (ofEntries (slot.before ++ (slot.key, x) :: slot.after)) =
      fieldTexts (ofEntries slot.before) ++ t :: fieldTexts (ofEntries slot.after) := by
    simp [fieldTexts_eq_filterMap, ht]
  rw [Slot.fill, ofJson, text, htexts, hab]

theorem append_ne_empty {a t b : String} (h : t ≠ "") : a ++ t ++ b ≠ "" := by
  intro he
  rw [String.append_eq_empty_iff, String.append_eq_empty_iff] at he
  exact h he.1.2

/-- Parts of which something is written are written behind their key. -/
theorem fieldText?_obj {key : String} {entries : List (String × Json)}
    (h : (ofJson (.obj entries)).text ≠ "") :
    fieldText? key (ofJson (.obj entries)) =
      some (partsText key (ofJson (.obj entries)).text) := by
  have hempty : (" ".intercalate (fieldTexts (ofEntries entries))).isEmpty = false :=
    String.isEmpty_eq_false_iff.2 h
  simp only [ofJson, fieldText?, text, hempty, Bool.false_eq_true, if_false]

theorem exists_partsText_around (key : String) :
    ∃ a b : String, ∀ inner, partsText key inner = a ++ inner ++ b :=
  ⟨(if isNarrowing key then "... on " ++ key else key) ++ " \x7b ", " \x7d", fun _ => rfl⟩

theorem partsText_ne_empty (key inner : String) : partsText key inner ≠ "" := by
  intro h
  have hlast := congrArg String.length h
  simp [partsText] at hlast

theorem exists_within_fill (outer : List Slot) (slot : Slot) (x : Json) :
    ∃ entries, entries ≠ [] ∧ Slot.within outer (slot.fill x) = .obj entries := by
  cases outer with
  | nil => exact ⟨_, by simp, rfl⟩
  | cons next rest => exact ⟨_, by simp, rfl⟩

/-- The text around one part of an object inside others. -/
theorem exists_around_within (outer : List Slot) (slot : Slot) :
    ∃ a b : String, ∀ x t, t ≠ "" → fieldText? slot.key (ofJson x) = some t →
      (ofJson (Slot.within outer (slot.fill x))).text = a ++ t ++ b := by
  -- induction from the inside; each object adds its key, its braces and its other entries
  induction outer with
  | nil =>
    obtain ⟨a, b, hab⟩ := exists_around_slot slot
    exact ⟨a, b, fun x t _ ht => hab x t ht⟩
  | cons next rest ih =>
    obtain ⟨a, b, hab⟩ := ih
    obtain ⟨a', b', hab'⟩ := exists_around_slot next
    obtain ⟨c, d, hcd⟩ := exists_partsText_around next.key
    refine ⟨a' ++ c ++ a, b ++ d ++ b', fun x t hne ht => ?_⟩
    obtain ⟨entries, -, he⟩ := exists_within_fill rest slot x
    have hinner := hab x t hne ht
    rw [he] at hinner
    have hparts : fieldText? next.key (ofJson (.obj entries)) =
        some (partsText next.key (a ++ t ++ b)) := by
      rw [fieldText?_obj (by rw [hinner]; exact append_ne_empty hne), hinner]
    rw [Slot.within_cons, he, hab' _ _ hparts, hcd]
    simp only [String.append_assoc]

/-- A part that is written as a field. -/
def nested (key inner : String) : String := key ++ " \x7b " ++ inner ++ " \x7d"

/-- A part that is written as a narrowing of the type. -/
def narrowed (key inner : String) : String := "... on " ++ nested key inner

theorem partsText_eq (key inner : String) : partsText key inner =
    if isNarrowing key then narrowed key inner else nested key inner := by
  unfold partsText narrowed nested
  split <;> simp only [String.append_assoc]

theorem narrowed_ne_nested (key inner : String) : narrowed key inner ≠ nested key inner := by
  intro h
  have hlength := congrArg String.length h
  simp [narrowed] at hlength

/-- A part is written as a narrowing exactly if its key starts with an upper-case character. -/
theorem partsText_eq_narrowed_iff {key inner : String} :
    partsText key inner = narrowed key inner ↔ isNarrowing key = true := by
  rw [partsText_eq]
  cases isNarrowing key with
  | true => simp
  | false => simpa using (narrowed_ne_nested key inner).symm

theorem partsText_eq_nested_iff {key inner : String} :
    partsText key inner = nested key inner ↔ isNarrowing key = false := by
  rw [partsText_eq]
  cases isNarrowing key with
  | true => simpa using narrowed_ne_nested key inner
  | false => simp

end Selection

namespace Operation

/-- The text around a part of the document of an operation. -/
theorem exists_around (op : Operation) (outer : List Slot) (slot : Slot) :
    ∃ before after : String, ∀ entries, (Selection.ofJson (.obj entries)).text ≠ "" →
      op.document (some (Selection.ofJson (Slot.within outer (slot.fill (.obj entries))))) =
        before ++ Selection.partsText slot.key (Selection.ofJson (.obj entries)).text ++ after := by
  obtain ⟨a, b, hab⟩ := Selection.exists_around_within outer slot
  refine ⟨op.kind.keyword ++ " " ++ op.name ++ op.declarations ++ " \x7b " ++
    (op.fieldName ++ op.bindings ++ " \x7b ") ++ a, b ++ " \x7d" ++ " \x7d", fun entries h => ?_⟩
  have ht := hab _ _ (Selection.partsText_ne_empty _ _) (Selection.fieldText?_obj h)
  have hempty : (a ++ Selection.partsText slot.key (Selection.ofJson (.obj entries)).text ++
      b).isEmpty = false :=
    String.isEmpty_eq_false_iff.2 (Selection.append_ne_empty (Selection.partsText_ne_empty _ _))
  simp only [document, call, Option.map_some, Option.getD_some, ht, hempty, Bool.false_eq_true,
    if_false]
  simp only [String.append_assoc]

end Operation

end OperationTools
