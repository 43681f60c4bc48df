import OperationTools.Proofs.Number.Value
import OperationTools.Proofs.Validator.Position
import OperationTools.Proofs.Validator.PublishedArguments

/-!
# Cleaning arguments

A validator of arguments gives back what it was given, only cleaned. Unknown keys are dropped from
objects with known fields, the known ones stand in the order of the validator, and a number among
integers becomes the integer that it is equal to. All else stays as it is, and nothing is left to be
cleaned in what was cleaned.

## Main definitions

* `Validator.Cleans`: what a validator leaves of a value that it comes to

## Main results

* `Validator.ForArguments.judge_cleans`: what is accepted is cleaned at every place, once and for
  all
-/

namespace OperationTools

namespace Validator

/-- What a validator leaves of a value that it comes to: the second value is the first one, cleaned.
What stands in objects and arrays is cleaned by the validators of fields and items; those do not
come to what is `null`. -/
def Cleans (v : Validator) (x y : Json) : Prop :=
  match v, x with
  | .object _ false fields, .obj entries => ∃ kept, y = .obj kept ∧
      kept.map (·.1) = (fields.map (·.name)).filter (fun name => (entries.lookup name).isSome) ∧
      ∀ m ∈ fields, entries.lookup m.name = some .null → kept.lookup m.name = some .null
  | .list _ _, .arr items => ∃ cleaned, y = .arr cleaned ∧ cleaned.length = items.length ∧
      ∀ i : Nat, items[i]? = some .null → cleaned[i]? = some .null
  | .integer, .float a => ∃ n : Int, a.value? = some (n : ℚ) ∧ y = .int n
  | _, _ => y = x

theorem judge_eq_ok_iff {v : Validator} {x y : Json} :
    v.judge x = .ok y ↔ v.accepts x = true ∧ (v.report x).value = y := by
  rw [judge, Report.verdict_eq_ok_iff, accepts_iff_issues]

/-! ## Values that are left as they are -/

/-- Whether a validator of arguments leaves every value as it is: it neither asks for an integer nor
looks at items or fields. -/
def leavesAll : Validator → Bool
  | .integer | .list _ _ | .object _ false _ => false
  | _ => true

section Arguments

variable {v : Validator} {x : Json}

theorem ForArguments.value_of_leavesAll (hv : v.ForArguments) (hl : v.leavesAll = true) (x : Json) :
    (v.report x).value = x := by
  cases hv with
  | integer | list | object => cases hl
  | permissive typeName fields =>
    cases x with
    | obj => rfl
    | _ => exact value_shallowReport_of_ne (by simp) _
  | any | string | number | boolean | literal | enumeration =>
    cases x with
    | _ => exact value_shallowReport_of_ne (by simp) _

/-- An integer is given back in place of what is equal to it. -/
theorem exists_value_integer (ha : integer.accepts x = true) :
    ∃ n, (integer.report x).value = .int n ∧
      (x = .int n ∨ ∃ a : Binary64, x = .float a ∧ a.value? = some (n : ℚ)) := by
  cases x with
  | int n => exact ⟨n, rfl, .inl rfl⟩
  | float a =>
    cases ha' : a.toInt? with
    | some n =>
      refine ⟨n, by simp [report, shallowReport, ha'], .inr ⟨a, rfl, ?_⟩⟩
      exact Binary64.toInt?_eq_some_iff.1 ha'
    | none => simp [accepts, report, shallowReport, ha'] at ha
  | _ => simp [accepts, report, arrayReport, objectReport, shallowReport] at ha

/-! ## Cleaning twice -/

/-- What a validator has cleaned is accepted by it, and nothing is left to be cleaned. -/
def Settles (v : Validator) : Prop :=
  ∀ x, v.accepts x = true → v.judge (v.report x).value = .ok (v.report x).value

theorem ForArguments.settles_of_leavesAll (hv : v.ForArguments) (hl : v.leavesAll = true) :
    v.Settles := by
  intro x ha
  rw [hv.value_of_leavesAll hl]
  exact judge_eq_ok_iff.2 ⟨ha, hv.value_of_leavesAll hl x⟩

theorem settles_integer : integer.Settles := by
  intro x ha
  obtain ⟨n, hn, -⟩ := exists_value_integer ha
  rw [hn]
  rfl

/-- What is cleaned at a place is taken there, and nothing is left to be cleaned. -/
theorem Settles.takesAt_valueAt (hv : v.Settles) {optional : Bool}
    (ht : v.takesAt optional (some x) = true) :
    v.takesAt optional (some (v.valueAt x)) = true ∧ v.valueAt (v.valueAt x) = v.valueAt x := by
  by_cases hx : x = .null
  · subst hx
    exact ⟨by simpa using ht, by simp⟩
  · rw [takesAt_some hx] at ht
    obtain ⟨ha, hvalue⟩ := judge_eq_ok_iff.1 (hv x ht)
    have hne : (v.report x).value ≠ .null := value_ne_null hx
    rw [valueAt_of_ne hx, valueAt_of_ne hne, takesAt_some hne]
    exact ⟨ha, hvalue⟩

theorem Settles.list (hv : v.Settles) (nullItems : Bool) : (list v nullItems).Settles := by
  intro x ha
  obtain ⟨items, rfl, hitems⟩ := accepts_list_iff.1 ha
  have hplaces := fun y hy => hv.takesAt_valueAt (hitems y hy)
  rw [value_list, judge_eq_ok_iff, value_list, List.map_map]
  refine ⟨accepts_list_iff.2 ⟨_, rfl, ?_⟩, congrArg Json.arr ?_⟩
  · exact List.forall_mem_map.2 fun y hy => (hplaces y hy).1
  · exact List.map_congr_left fun y hy => (hplaces y hy).2

theorem Settles.object {typeName : Option String} {fields : List (Member Validator)}
    (hn : (fields.map (·.name)).Nodup) (hfields : ∀ m ∈ fields, m.validator.Settles) :
    (object typeName false fields).Settles := by
  intro x ha
  obtain ⟨entries, rfl, htakes⟩ := (accepts_object_iff hn).1 ha
  obtain ⟨kept, hkept⟩ : ∃ kept,
      (report (.object typeName false fields) (.obj entries)).value = .obj kept :=
    ⟨_, value_object hn ha⟩
  have hlookup : ∀ m ∈ fields,
      kept.lookup m.name = (entries.lookup m.name).map m.validator.valueAt := by
    intro m hm
    rw [← lookup_value_object hn ha hm, hkept, Json.entries_obj]
  have hplaces : ∀ m ∈ fields, m.validator.takesAt m.optional (kept.lookup m.name) = true ∧
      (kept.lookup m.name).map m.validator.valueAt = kept.lookup m.name := by
    intro m hm
    have hm' := htakes m hm
    rw [hlookup m hm]
    cases hx : entries.lookup m.name with
    | none => exact ⟨by rwa [hx] at hm', rfl⟩
    | some y =>
      rw [hx] at hm'
      obtain ⟨htakes', hvalue⟩ := (hfields m hm).takesAt_valueAt hm'
      exact ⟨htakes', congrArg some hvalue⟩
  have haccepts : accepts (.object typeName false fields) (.obj kept) = true :=
    (accepts_object_iff hn).2 ⟨kept, rfl, fun m hm => (hplaces m hm).1⟩
  rw [hkept, judge_eq_ok_iff]
  refine ⟨haccepts, ?_⟩
  rw [value_object hn haccepts, ← hkept, value_object hn ha]
  refine congrArg Json.obj (List.filterMap_congr fun m hm => ?_)
  rw [(hplaces m hm).2, hlookup m hm]

theorem ForArguments.settles (hv : v.ForArguments) : v.Settles := by
  induction hv with
  | any => exact ForArguments.any.settles_of_leavesAll rfl
  | string => exact ForArguments.string.settles_of_leavesAll rfl
  | number => exact ForArguments.number.settles_of_leavesAll rfl
  | boolean => exact ForArguments.boolean.settles_of_leavesAll rfl
  | literal s => exact (ForArguments.literal s).settles_of_leavesAll rfl
  | enumeration values => exact (ForArguments.enumeration values).settles_of_leavesAll rfl
  | permissive typeName fields =>
    exact (ForArguments.permissive typeName fields).settles_of_leavesAll rfl
  | integer => exact settles_integer
  | list nullItems _ ih => exact ih.list nullItems
  | object typeName hn _ ih => exact .object hn ih

/-! ## Cleaning at places -/

/-- What is made of an accepted value is that value, cleaned. -/
theorem ForArguments.cleans (hv : v.ForArguments) (ha : v.accepts x = true) :
    v.Cleans x (v.report x).value := by
  have hleaves := hv.value_of_leavesAll (x := x)
  cases hv with
  | any | string | number | boolean | literal | enumeration | permissive => exact hleaves rfl
  | integer =>
    obtain ⟨n, hn, rfl | ⟨a, rfl, hvalue⟩⟩ := exists_value_integer ha
    · exact hn
    · exact ⟨n, hvalue, hn⟩
  | list nullItems hitem =>
    obtain ⟨items, rfl, -⟩ := accepts_list_iff.1 ha
    refine ⟨_, value_list .., by simp, fun i hi => ?_⟩
    rw [List.getElem?_map, hi, Option.map_some, valueAt_null]
  | object typeName hn hfields =>
    obtain ⟨entries, rfl, -⟩ := (accepts_object_iff hn).1 ha
    refine ⟨_, value_object hn ha, ?_, fun m hm hx => ?_⟩
    · rw [← keys_value_object hn ha, value_object hn ha, Json.entries_obj]
    · have hlookup := lookup_value_object hn ha hm
      rwa [value_object hn ha, Json.entries_obj, hx, Option.map_some, valueAt_null] at hlookup

/-- What is made of an accepted value has what is cleaned at every place that is come to. -/
theorem Reaches.cleans {w : Validator} {p : Path} {y : Json} (h : v.Reaches x p w y)
    (hv : v.ForArguments) (ha : v.accepts x = true) :
    ∃ z, (v.report x).value.at? p = some z ∧ w.Cleans y z := by
  induction h with
  | here v x => exact ⟨_, rfl, hv.cleans ha⟩
  | @field typeName fields entries m x y p w hm hx hne _ ih =>
    cases hv with
    | object _ hn hfields =>
      obtain ⟨z, hz, hclean⟩ := ih (hfields m hm) (accepts_field hn ha hm hx hne)
      refine ⟨z, ?_, hclean⟩
      rw [at?_value_object hn ha hm hx, valueAt_of_ne hne, hz]
  | @item v nullItems items i x y p w hx hne _ ih =>
    cases hv with
    | list _ hitem =>
      obtain ⟨z, hz, hclean⟩ := ih hitem (accepts_item ha hx hne)
      refine ⟨z, ?_, hclean⟩
      rw [at?_value_list hx, valueAt_of_ne hne, hz]

/-- There is nothing in what was made of a value that did not stand there, unless it was cleaned. -/
theorem ForArguments.at?_value (hv : v.ForArguments) (ha : v.accepts x = true) {p : Path} {z : Json}
    (hz : (v.report x).value.at? p = some z) :
    x.at? p = some z ∨ ∃ w y, v.Reaches x p w y := by
  induction p generalizing v x with
  | nil => exact .inr ⟨v, x, .here v x⟩
  | cons s rest ih =>
    have hinside : ∀ {v : Validator} {x : Json}, v.ForArguments →
        (x ≠ .null → v.accepts x = true) → (v.valueAt x).at? rest = some z →
        x.at? rest = some z ∨ x ≠ .null ∧ ∃ w y, v.Reaches x rest w y := by
      intro v x hv ha hz
      by_cases hx : x = .null
      · subst hx
        exact .inl (by rwa [valueAt_null] at hz)
      · rw [valueAt_of_ne hx] at hz
        exact (ih hv (ha hx) hz).imp_right fun h => ⟨hx, h⟩
    obtain ⟨r, hr, hrest⟩ := Option.bind_eq_some_iff.1 hz
    have hleaves := hv.value_of_leavesAll (x := x)
    cases hv with
    | any | string | number | boolean | literal | enumeration | permissive =>
      rw [hleaves rfl] at hr
      exact .inl (Option.bind_eq_some_iff.2 ⟨r, hr, hrest⟩)
    | integer =>
      obtain ⟨n, hn, -⟩ := exists_value_integer ha
      rw [hn] at hr
      cases hr
    | list nullItems hitem =>
      obtain ⟨items, rfl, -⟩ := accepts_list_iff.1 ha
      obtain ⟨i, x, rfl, hx, rfl⟩ := step?_value_list_eq_some_iff.1 hr
      refine (hinside hitem (accepts_item ha hx) hrest).imp ?_ ?_
      · exact fun h => Option.bind_eq_some_iff.2 ⟨x, hx, h⟩
      · exact fun ⟨hne, w, y, h⟩ => ⟨w, y, .item hx hne h⟩
    | object typeName hn hfields =>
      obtain ⟨entries, rfl, -⟩ := (accepts_object_iff hn).1 ha
      obtain ⟨m, hm, x, rfl, hx, rfl⟩ := (step?_value_object_eq_some_iff hn ha).1 hr
      refine (hinside (hfields m hm) (accepts_field hn ha hm hx) hrest).imp ?_ ?_
      · exact fun h => Option.bind_eq_some_iff.2 ⟨x, hx, h⟩
      · exact fun ⟨hne, w, y, h⟩ => ⟨w, y, .field hm hx hne h⟩

/-- What is accepted is accepted again just as it was cleaned. Every value that the validator comes
to is cleaned in its place, and all else is found where it stood. -/
theorem ForArguments.judge_cleans (hv : v.ForArguments) {r : Json} (hr : v.judge x = .ok r) :
    v.judge r = .ok r ∧
      (∀ p w y, v.Reaches x p w y → ∃ z, r.at? p = some z ∧ w.Cleans y z) ∧
      ∀ p z, r.at? p = some z → x.at? p = some z ∨ ∃ w y, v.Reaches x p w y := by
  obtain ⟨ha, rfl⟩ := judge_eq_ok_iff.1 hr
  exact ⟨hv.settles x ha, fun p w y h => h.cleans hv ha, fun p z => hv.at?_value ha⟩

end Arguments

/-- Arguments with identifiers of which some may be `null`, options of which nothing is known, and a
title that may be missing. -/
def listingArguments : Validator :=
  .object (some "listing") false
    [⟨"ids", false, .list .integer true⟩, ⟨"options", true, .object (some "Options") true []⟩,
      ⟨"title", true, .string⟩]

theorem forArguments_listingArguments : listingArguments.ForArguments := by
  refine .object _ (by decide) ?_
  simp only [List.forall_mem_cons, List.not_mem_nil, false_implies, implies_true, and_true]
  exact ⟨.list _ .integer, .permissive _ _, .string⟩

/-- An unknown key is dropped, the number `2.0` becomes an integer, and the title stays `null`. -/
theorem judge_cleans_listing :
    let two := Binary64.finite false fullMantissa (-51) (by decide)
    let given := Json.obj [("title", .null), ("page", .int 1), ("options", .obj [("page", .null)]),
      ("ids", .arr [.float two, .null])]
    let cleaned := Json.obj [("ids", .arr [.int 2, .null]), ("options", .obj [("page", .null)]),
      ("title", .null)]
    listingArguments.judge given = .ok cleaned ∧ listingArguments.judge cleaned = .ok cleaned ∧
      ∃ z, cleaned.at? [.key "ids", .index 0] = some z ∧ integer.Cleans (.float two) z := by
  intro two given cleaned
  have hjudge : listingArguments.judge given = .ok cleaned :=
    judge_eq_ok_iff.2 ⟨by decide, by decide⟩
  obtain ⟨hagain, hreached, -⟩ := forArguments_listingArguments.judge_cleans hjudge
  refine ⟨hjudge, hagain, hreached _ _ _ ?_⟩
  exact .field (m := ⟨"ids", false, .list .integer true⟩) (by simp) rfl (by simp)
    (.item rfl (by simp) (.here _ _))

end Validator

end OperationTools
