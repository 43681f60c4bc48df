import OperationTools.Proofs.Validator.Argument

/-!
# Places in arguments

A value is checked at a place: under a key of an object, or among the items of a list. Nothing, or
`null`, may stand at a place exactly if the place is optional, whatever the validator is; anything
else is up to the validator. Objects and lists accept what they take at each of their places.

## Main definitions

* `Validator.takesAt`: whether a validator takes what stands at a place

## Main results

* `Validator.accepts_list_iff`, `Validator.accepts_object_iff`: what lists and objects accept
* `Validator.value_ne_null`: an accepted value is none that stands for nothing
* `Validator.exists_lookup_value_object`: what is accepted in a required field is given back
-/

namespace OperationTools.Validator

theorem accepts_iff_issues {v : Validator} {x : Json} :
    v.accepts x = true ↔ (v.report x).issues = [] := by
  simp [accepts]

/-- Whether a validator takes what stands at a place. An optional place may be empty. -/
def takesAt (v : Validator) (optional : Bool) : Option Json → Bool
  | none | some .null => optional
  | some x => v.accepts x

@[simp] theorem takesAt_none (v : Validator) (optional : Bool) :
    v.takesAt optional none = optional := rfl

@[simp] theorem takesAt_null (v : Validator) (optional : Bool) :
    v.takesAt optional (some .null) = optional := rfl

theorem takesAt_some {v : Validator} {optional : Bool} {x : Json} (hx : x ≠ .null) :
    v.takesAt optional (some x) = v.accepts x := by
  cases x with
  | null => exact absurd rfl hx
  | _ => rfl

/-- A place that is not optional has a value, and whatever has a value is checked. -/
theorem takesAt_iff {v : Validator} {optional : Bool} {x? : Option Json} :
    v.takesAt optional x? = true ↔
      (optional = false → ∃ x, x? = some x ∧ x ≠ .null) ∧
        ∀ x, x? = some x → x ≠ .null → v.accepts x = true := by
  match x? with
  | none | some .null => cases optional <;> simp
  | some (.bool _) | some (.int _) | some (.float _) | some (.str _) | some (.arr _)
  | some (.obj _) => simp [takesAt]

@[simp] theorem accepts_any (x : Json) : any.accepts x = true := by
  simp [accepts]

/-- Without a look at its parts a value stays as it is, unless it is to be an integer. -/
theorem value_shallowReport_of_ne {v : Validator} (hv : v ≠ .integer) (x : Json) :
    (v.shallowReport x).value = x := by
  cases v with
  | integer => exact absurd rfl hv
  | literal value =>
    simp only [shallowReport]
    split <;> rfl
  | enumeration values =>
    cases x with
    | str s =>
      simp only [shallowReport]
      split <;> rfl
    | _ => rfl
  | openSelection | lazySelection | strictSelection =>
    cases x with
    | bool b => cases b <;> rfl
    | _ => rfl
  | any | string | number | boolean | list | object | leaf | anySelection =>
    cases x <;> rfl

/-- What is made of a value without a look at its parts is the value or an integer. -/
theorem value_shallowReport (v : Validator) (x : Json) :
    (v.shallowReport x).value = x ∨ ∃ n, (v.shallowReport x).value = .int n := by
  by_cases hv : v = .integer
  · subst hv
    cases x with
    | float y => cases hy : y.toInt? <;> simp [shallowReport, hy, Report.refuse]
    | _ => exact .inl rfl
  · exact .inl (value_shallowReport_of_ne hv x)

/-- What is made of a value other than `null` is never `null`. -/
theorem value_ne_null {v : Validator} {x : Json} (hx : x ≠ .null) : (v.report x).value ≠ .null := by
  have hshallow : (v.shallowReport x).value ≠ .null := by
    rcases v.value_shallowReport x with h | ⟨n, h⟩
    · rwa [h]
    · simp [h]
  cases x with
  | null => exact absurd rfl hx
  | arr items => cases v <;> first | exact hshallow | simp [report, arrayReport]
  | obj entries =>
    cases v with
    | object typeName permissive fields =>
      cases permissive <;> simp [report, objectReport, fieldsReport]
    | openSelection | lazySelection | strictSelection => simp [report, objectReport]
    | _ => exact hshallow
  | bool | int | float | str => exact hshallow

/-! ## Lists -/

theorem issues_itemReport_eq_nil_iff {v : Validator} {nullItems : Bool} {index : Nat} {x : Json} :
    (itemReport nullItems index x (v.report x)).issues = [] ↔
      v.takesAt nullItems (some x) = true := by
  by_cases hx : x = .null
  · subst hx
    cases nullItems <;> simp [itemReport]
  · rw [takesAt_some hx, accepts_iff_issues, itemReport, if_neg hx, Report.issues_atIndex,
      List.map_eq_nil_iff]

theorem report_list_arr (v : Validator) (nullItems : Bool) (items : List Json) :
    (list v nullItems).report (.arr items) =
      .collect (.arr ((reportItems v nullItems 0 items).map (·.value)))
        (reportItems v nullItems 0 items) := by
  cases nullItems <;> rfl

/-- A list accepts arrays of items that are taken. -/
theorem accepts_list_iff {v : Validator} {nullItems : Bool} {x : Json} :
    (list v nullItems).accepts x = true ↔
      ∃ items, x = .arr items ∧ ∀ y ∈ items, v.takesAt nullItems (some y) = true := by
  cases x with
  | arr items =>
    rw [accepts_iff_issues, report_list_arr, Report.issues_collect, List.flatMap_eq_nil_iff,
      reportItems_eq_mapIdx]
    simp only [List.mem_mapIdx, Json.arr.injEq, exists_eq_left']
    constructor
    · intro h y hy
      obtain ⟨i, hi, rfl⟩ := List.getElem_of_mem hy
      exact issues_itemReport_eq_nil_iff.1 (h _ ⟨i, hi, rfl⟩)
    · rintro h _ ⟨i, hi, rfl⟩
      exact issues_itemReport_eq_nil_iff.2 (h _ (List.getElem_mem hi))
  | null | bool | int | float | str | obj =>
    simp [accepts_iff_issues, report, objectReport, shallowReport]

/-! ## Objects -/

section Objects

variable {typeName : Option String} {fields : List (Member Validator)}
  {entries : List (String × Json)} {m : Member Validator}

/-- A field whose name no other field has is the one that its key leads to. -/
theorem child?_object_of_mem (hn : (fields.map (·.name)).Nodup) (hm : m ∈ fields) :
    (object typeName false fields).child? m.name = some m.validator := by
  rw [child?_object]
  exact lookup_name hn (·.validator) hm

/-- The report that is found under the name of a field is that of the value under its name. -/
theorem lookup_reportEntries (hn : (fields.map (·.name)).Nodup) (hm : m ∈ fields) {x : Json}
    (hx : entries.lookup m.name = some x) :
    (reportEntries (object typeName false fields) entries).lookup m.name =
      some (some (m.validator.report x)) := by
  rw [reportEntries_eq_map]
  induction entries with
  | nil => cases hx
  | cons e rest ih =>
    obtain ⟨key, y⟩ := e
    rw [List.lookup_cons] at hx
    rw [List.map_cons, List.lookup_cons]
    by_cases hk : m.name = key
    · subst hk
      simp only [BEq.rfl, Option.some.injEq] at hx
      simp [child?_object_of_mem hn hm, hx]
    · rw [beq_eq_false_iff_ne.2 hk] at hx ⊢
      exact ih hx

/-- What is reported on a field with a value. -/
theorem memberReport?_of_lookup (hn : (fields.map (·.name)).Nodup) (hm : m ∈ fields) {x : Json}
    (hx : entries.lookup m.name = some x) (hne : x ≠ .null) :
    memberReport? entries (reportEntries (object typeName false fields) entries) m =
      some ((m.validator.report x).under (.key m.name)) := by
  unfold memberReport?
  rw [hx]
  cases x with
  | null => exact absurd rfl hne
  | _ => simp only [lookup_reportEntries hn hm hx, Option.join_some, Option.getD_some]

/-- There is no issue with a field exactly if its value is taken. -/
theorem issues_memberReport?_eq_nil_iff (hn : (fields.map (·.name)).Nodup) (hm : m ∈ fields) :
    (∀ r, memberReport? entries (reportEntries (object typeName false fields) entries) m = some r →
      r.issues = []) ↔ m.validator.takesAt m.optional (entries.lookup m.name) = true := by
  cases hx : entries.lookup m.name with
  | none => cases ho : m.optional <;> simp [memberReport?, hx, ho]
  | some x =>
    by_cases hne : x = .null
    · subst hne
      cases ho : m.optional <;> simp [memberReport?, hx, ho]
    · rw [takesAt_some hne, accepts_iff_issues, memberReport?_of_lookup hn hm hx hne]
      simp

/-- An object validator accepts objects in which the value of every field is taken. -/
theorem accepts_object_iff (hn : (fields.map (·.name)).Nodup) {x : Json} :
    (object typeName false fields).accepts x = true ↔ ∃ entries, x = .obj entries ∧
      ∀ m ∈ fields, m.validator.takesAt m.optional (entries.lookup m.name) = true := by
  cases x with
  | obj entries =>
    simp only [accepts_iff_issues, report, objectReport, fieldsReport, Report.issues_collect,
      List.flatMap_map, List.flatMap_eq_nil_iff, List.mem_filterMap, Option.map_eq_some_iff,
      Json.obj.injEq, exists_eq_left']
    constructor
    · intro h m hm
      exact (issues_memberReport?_eq_nil_iff hn hm).1 fun r hr => h _ ⟨m, hm, r, hr, rfl⟩
    · rintro h _ ⟨m, hm, r, hr, rfl⟩
      exact (issues_memberReport?_eq_nil_iff hn hm).2 (h m hm) r hr
  | null | bool | int | float | str | arr =>
    simp [accepts_iff_issues, report, arrayReport, shallowReport]

/-- What is found for some of the items has their names, in their order. -/
theorem keys_filterMap {ι ρ : Type} (name : ι → String) (find : ι → Option ρ) (items : List ι) :
    (items.filterMap fun i => (find i).map fun r => (name i, r)).map (·.1) =
      (items.filter fun i => (find i).isSome).map name := by
  induction items with
  | nil => rfl
  | cons i rest ih =>
    cases h : find i with
    | none => simpa [h] using ih
    | some r => simpa [h] using ih

theorem keys_filterMap_sublist {ι ρ : Type} (name : ι → String) (find : ι → Option ρ)
    (items : List ι) :
    ((items.filterMap fun i => (find i).map fun r => (name i, r)).map (·.1)).Sublist
      (items.map name) :=
  keys_filterMap name find items ▸ List.filter_sublist.map name

/-- What is made of an object has keys of the validator, in its order. -/
theorem keys_value_object_sublist (fields : List (Member Validator))
    (entries : List (String × Json)) :
    (((object typeName false fields).report (.obj entries)).value.entries.map (·.1)).Sublist
      (fields.map (·.name)) := by
  simp only [report, objectReport, fieldsReport, Report.value_collect, Json.entries_obj,
    List.map_map]
  exact keys_filterMap_sublist (·.name) _ fields

/-- A field that must have a value has one in what is made of an accepted object. -/
theorem exists_lookup_value_object (hn : (fields.map (·.name)).Nodup)
    (h : (object typeName false fields).accepts (.obj entries) = true) (hm : m ∈ fields)
    (ho : m.optional = false) :
    ∃ y, ((object typeName false fields).report (.obj entries)).value.entries.lookup m.name =
      some y ∧ y ≠ .null := by
  obtain ⟨_, he, hfields⟩ := (accepts_object_iff hn).1 h
  obtain rfl := Json.obj.inj he
  obtain ⟨x, hx, hne⟩ := (takesAt_iff.1 (hfields m hm)).1 ho
  have hkept : (m.name, ((m.validator.report x).under (.key m.name))) ∈
      fields.filterMap fun m => (memberReport? entries
        (reportEntries (object typeName false fields) entries) m).map fun r => (m.name, r) := by
    refine List.mem_filterMap.2 ⟨m, hm, ?_⟩
    rw [memberReport?_of_lookup hn hm hx hne, Option.map_some]
  exact ⟨(m.validator.report x).value, Entries.lookup_of_mem
    (hn.sublist (keys_value_object_sublist fields entries)) (List.mem_map.2 ⟨_, hkept, rfl⟩),
    value_ne_null hne⟩

end Objects

end OperationTools.Validator
