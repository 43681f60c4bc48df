import Mathlib.Data.Fintype.EquivFin
import OperationTools.Proofs.Validator.Selection

/-!
# Accepted arguments

Validators of arguments are told apart by what they make of a value: they accept it with a result of
their own, or they do not. A difference between two validators is carried outwards by lists and by
objects, as long as both validators of every other field accept some value.

## Main definitions

* `Validator.accepted?`: what a validator makes of a value
* `Validator.Differ`: two validators make different things of some value
* `Validator.Share`: two validators accept some value in common

## Main results

* `Validator.Differ.list`, `Validator.Differ.object`: differences inside lists and objects
* `Validator.differ_any`: every other validator differs from the one that accepts everything
-/

namespace OperationTools.Validator

/-- What a validator makes of a value, if it accepts it. -/
def accepted? (v : Validator) (x : Json) : Option Json := (v.judge x).toOption

theorem accepted?_eq_some_iff {v : Validator} {x y : Json} :
    v.accepted? x = some y ↔ (v.report x).issues = [] ∧ (v.report x).value = y := by
  rw [← Report.verdict_eq_ok_iff, ← judge, accepted?]
  cases v.judge x <;> simp [Except.toOption]

/-- Two validators make different things of a value other than `null`. -/
def Differ (v w : Validator) : Prop := ∃ x, x ≠ .null ∧ v.accepted? x ≠ w.accepted? x

/-- Two validators accept a value other than `null`. -/
def Share (v w : Validator) : Prop :=
  ∃ x, x ≠ .null ∧ (v.report x).issues = [] ∧ (w.report x).issues = []

theorem Differ.symm {v w : Validator} (h : v.Differ w) : w.Differ v := by
  obtain ⟨x, hx, hne⟩ := h
  exact ⟨x, hx, hne.symm⟩

theorem Share.symm {v w : Validator} (h : v.Share w) : w.Share v := by
  obtain ⟨x, hx, hv, hw⟩ := h
  exact ⟨x, hx, hw, hv⟩

@[simp] theorem report_any (x : Json) : any.report x = { value := x } := by
  cases x <;> simp [report, arrayReport, objectReport, shallowReport]

/-! ## Lists -/

theorem report_list_singleton {v : Validator} {nullItems : Bool} {x : Json} (hx : x ≠ .null) :
    (list v nullItems).report (.arr [x]) =
      .collect (.arr [(v.report x).value]) [(v.report x).atIndex 0] := by
  simp [report, reportItems, arrayReport, itemReport, hx, item]

/-- What is made of an item shows in what is made of a list. -/
theorem accepted?_list_singleton {v : Validator} {nullItems : Bool} {x : Json} (hx : x ≠ .null) :
    (list v nullItems).accepted? (.arr [x]) = (v.accepted? x).map fun y => .arr [y] := by
  apply Option.ext
  intro z
  rw [accepted?_eq_some_iff, report_list_singleton hx, Option.map_eq_some_iff]
  simp only [accepted?_eq_some_iff, Report.issues_collect, Report.value_collect,
    Report.issues_atIndex, List.flatMap_cons, List.flatMap_nil, List.append_nil,
    List.map_eq_nil_iff]
  constructor
  · rintro ⟨hi, rfl⟩
    exact ⟨_, ⟨hi, rfl⟩, rfl⟩
  · rintro ⟨y, ⟨hi, rfl⟩, rfl⟩
    exact ⟨hi, rfl⟩

theorem Differ.list {v w : Validator} (h : v.Differ w) (nullItems : Bool) :
    (list v nullItems).Differ (.list w nullItems) := by
  obtain ⟨x, hx, hne⟩ := h
  refine ⟨.arr [x], by simp, ?_⟩
  rw [accepted?_list_singleton hx, accepted?_list_singleton hx]
  intro he
  exact hne (Option.map_injective (fun a b hab => by simpa using hab) he)

/-! ## What is refused -/

/-- Every validator but one refuses a value. -/
theorem exists_refused {v : Validator} (h : v ≠ .any) :
    ∃ x, x ≠ .null ∧ (v.report x).issues ≠ [] := by
  cases v with
  | any => exact absurd rfl h
  | string | enumeration values => exact ⟨.int 0, by simp, by simp [report, shallowReport]⟩
  | literal value =>
    cases value with
    | str s => exact ⟨.int 0, by simp, by simp [report, shallowReport]⟩
    | null | bool b | int n | float y | arr items | obj entries =>
      exact ⟨.str "", by simp, by
        simp [report, shallowReport, Json.sameValue, Json.sameScalar, Json.integer?]⟩
  | integer | number | boolean | list item nullItems | object typeName permissive fields | leaf
    | anySelection | openSelection typeName children | lazySelection schema implementers typeName
    | strictSelection typeName fields fragments =>
    exact ⟨.str "", by simp, by simp [report, shallowReport]⟩

/-- Every other validator differs from the one that accepts everything. -/
theorem differ_any {v : Validator} (h : v ≠ .any) : v.Differ .any := by
  obtain ⟨x, hx, hi⟩ := exists_refused h
  refine ⟨x, hx, fun he => hi ?_⟩
  have ha : any.accepted? x = some x := accepted?_eq_some_iff.2 (by simp)
  exact (accepted?_eq_some_iff.1 (he.trans ha)).1

/-! ## Objects -/

theorem child?_object (typeName : Option String) (fields : List (Member Validator)) (key : String) :
    (object typeName false fields).child? key =
      (fields.map fun m => (m.name, m.validator)).lookup key := by
  rw [child?]
  induction fields with
  | nil => rfl
  | cons m rest ih =>
    by_cases h : m.name = key
    · simp [h]
    · have hb : (key == m.name) = false := beq_eq_false_iff_ne.2 (Ne.symm h)
      simpa [h, List.lookup_cons, hb] using ih

/-- What an object accepts has the keys of its fields. -/
theorem keys_of_accepted?_object {typeName : Option String} {fields : List (Member Validator)}
    {entries : List (String × Json)} {y : Json}
    (h : (object typeName false fields).accepted? (.obj entries) = some y) :
    ∀ key ∈ y.entries.map (·.1), key ∈ fields.map (·.name) := by
  obtain ⟨-, rfl⟩ := accepted?_eq_some_iff.1 h
  intro key hkey
  simp only [report, objectReport, fieldsReport, Report.value_collect, Json.entries_obj,
    List.map_map, List.mem_map, List.mem_filterMap] at hkey
  obtain ⟨_, ⟨m, hm, hr⟩, rfl⟩ := hkey
  obtain ⟨r, -, rfl⟩ := Option.map_eq_some_iff.1 hr
  exact List.mem_map_of_mem hm

/-- An object accepts objects only. -/
theorem exists_entries_of_object {typeName : Option String} {permissive : Bool}
    {fields : List (Member Validator)} {x : Json}
    (h : ((object typeName permissive fields).report x).issues = []) :
    ∃ entries, x = .obj entries := by
  cases x with
  | obj entries => exact ⟨entries, rfl⟩
  | null | bool | int | float | str | arr => simp [report, arrayReport, shallowReport] at h

/-- Fields that may not be left out are there in an accepted object. -/
theorem mem_keys_of_required {typeName : Option String} {fields : List (Member Validator)}
    {entries : List (String × Json)}
    (h : ((object typeName false fields).report (.obj entries)).issues = [])
    {m : Member Validator} (hm : m ∈ fields) (ho : m.optional = false) :
    m.name ∈ entries.map (·.1) := by
  by_contra hmissing
  have hlookup : entries.lookup m.name = none := by
    rw [List.lookup_eq_none_iff]
    intro e he
    rw [bne_iff_ne]
    intro hname
    exact hmissing (hname ▸ List.mem_map_of_mem he)
  have hrefused : memberReport? entries (reportEntries (object typeName false fields) entries) m =
      some ((Report.refuse .missingRequired (.missingField m.name) .null).under (.key m.name)) := by
    simp [memberReport?, hlookup, ho]
  simp only [report, objectReport, fieldsReport, Report.issues_collect, List.flatMap_map,
    List.flatMap_eq_nil_iff, List.mem_filterMap] at h
  have hissues := h (m.name, _) ⟨m, hm, by rw [hrefused, Option.map_some]⟩
  rw [Report.issues_under, Report.issues_refuse] at hissues
  cases hissues

section Objects

variable {ι β : Type} {items : List ι} {name : ι → String} {typeName : Option String}

/-- Under the name of an item its own value is found. -/
theorem lookup_name (hn : (items.map name).Nodup) (f : ι → β) {i : ι} (hi : i ∈ items) :
    (items.map fun i => (name i, f i)).lookup (name i) = some (f i) := by
  refine Entries.lookup_of_mem ?_ (List.mem_map_of_mem hi)
  rw [List.map_map]
  exact hn

variable {optional : ι → Bool}

/-- Every field with a value is reported on by its own validator. -/
theorem memberReport?_of_mem (hn : (items.map name).Nodup) (c : ι → Validator) {value : ι → Json}
    {i : ι} (hi : i ∈ items) (hv : value i ≠ .null) :
    memberReport? (items.map fun i => (name i, value i))
      (items.map fun i => (name i, some ((c i).report (value i)))) ⟨name i, optional i, c i⟩ =
        some (((c i).report (value i)).under (.key (name i))) := by
  simp only [memberReport?, lookup_name hn value hi,
    lookup_name hn (fun i => some ((c i).report (value i))) hi]
  cases hx : value i with
  | null => exact absurd hx hv
  | _ => rfl

/-- An object in which every field has a value is checked field by field. -/
theorem report_object_full (hn : (items.map name).Nodup) (c : ι → Validator) {value : ι → Json}
    (hv : ∀ i ∈ items, value i ≠ .null) :
    ∃ dropped, (object typeName false (items.map fun i => ⟨name i, optional i, c i⟩)).report
        (.obj (items.map fun i => (name i, value i))) =
      .collect (.obj (items.map fun i => (name i, ((c i).report (value i)).value)))
        (items.map fun i => ((c i).report (value i)).under (.key (name i))) dropped := by
  have hchecked : reportEntries (object typeName false
      (items.map fun i => ⟨name i, optional i, c i⟩)) (items.map fun i => (name i, value i)) =
        items.map fun i => (name i, some ((c i).report (value i))) := by
    rw [reportEntries_eq_map, List.map_map]
    apply List.map_congr_left
    intro i hi
    have hchild : (object typeName false
        (items.map fun i => ⟨name i, optional i, c i⟩)).child? (name i) = some (c i) := by
      rw [child?_object, List.map_map]
      exact lookup_name hn c hi
    simp only [Function.comp_apply, hchild, Option.map_some]
  have hfound : (items.map fun i => (⟨name i, optional i, c i⟩ : Member Validator)).filterMap
      (fun m => (memberReport? (items.map fun i => (name i, value i))
        (items.map fun i => (name i, some ((c i).report (value i)))) m).map fun r => (m.name, r)) =
        items.map fun i => (name i, ((c i).report (value i)).under (.key (name i))) := by
    rw [List.filterMap_map, ← List.filterMap_eq_map (f := fun i =>
      (name i, ((c i).report (value i)).under (.key (name i))))]
    apply List.filterMap_congr
    intro i hi
    simp only [Function.comp_apply, memberReport?_of_mem hn c hi (hv i hi), Option.map_some]
  rw [report, objectReport, hchecked]
  simp only [fieldsReport, hfound, List.map_map]
  exact ⟨_, rfl⟩

/-- Such an object is accepted if all values are, and what is made of them is collected. -/
theorem accepted?_object_full (hn : (items.map name).Nodup) (c : ι → Validator) {value : ι → Json}
    (hv : ∀ i ∈ items, value i ≠ .null) {y : Json} :
    (object typeName false (items.map fun i => ⟨name i, optional i, c i⟩)).accepted?
        (.obj (items.map fun i => (name i, value i))) = some y ↔
      (∀ i ∈ items, ((c i).report (value i)).issues = []) ∧
        .obj (items.map fun i => (name i, ((c i).report (value i)).value)) = y := by
  obtain ⟨dropped, hr⟩ : ∃ dropped,
      (object typeName false (items.map fun i => ⟨name i, optional i, c i⟩)).report _ =
        .collect _ _ dropped := report_object_full hn c hv
  rw [accepted?_eq_some_iff, hr]
  simp [List.flatMap_eq_nil_iff]

/-- Where objects are the same to both validators and one accepts them, so are the values of every
field. -/
theorem accepted?_eq_of_object (hn : (items.map name).Nodup) {c c' : ι → Validator}
    {value : ι → Json} (hv : ∀ i ∈ items, value i ≠ .null)
    (he : (object typeName false (items.map fun i => ⟨name i, optional i, c i⟩)).accepted?
        (.obj (items.map fun i => (name i, value i))) =
      (object typeName false (items.map fun i => ⟨name i, optional i, c' i⟩)).accepted?
        (.obj (items.map fun i => (name i, value i))))
    (hall : ∀ i ∈ items, ((c i).report (value i)).issues = []) {i : ι} (hi : i ∈ items) :
    (c i).accepted? (value i) = (c' i).accepted? (value i) := by
  obtain ⟨hall', hmap⟩ := (accepted?_object_full hn c' hv).1
    (he.symm.trans ((accepted?_object_full hn c hv).2 ⟨hall, rfl⟩))
  have hvalue := List.map_inj_left.1 (Json.obj.inj hmap) i hi
  rw [accepted?_eq_some_iff.2 ⟨hall i hi, rfl⟩,
    accepted?_eq_some_iff.2 ⟨hall' i hi, (Prod.mk.inj hvalue).2⟩]

/-- A difference between the validators of one field is carried outwards. -/
theorem Differ.object (hn : (items.map name).Nodup) {c c' : ι → Validator} {i : ι} (hi : i ∈ items)
    (h : (c i).Differ (c' i)) (hshare : ∀ j ∈ items, (c j).Share (c' j)) :
    (object typeName false (items.map fun i => ⟨name i, optional i, c i⟩)).Differ
      (.object typeName false (items.map fun i => ⟨name i, optional i, c' i⟩)) := by
  classical
  obtain ⟨x, hx, hne⟩ := h
  -- the value that tells the two apart stands in its field, and all others hold shared values
  obtain ⟨value, hvalue, hothers⟩ : ∃ value : ι → Json, value i = x ∧ ∀ j ∈ items, j ≠ i →
      value j ≠ .null ∧ ((c j).report (value j)).issues = [] ∧
        ((c' j).report (value j)).issues = [] := by
    choose! shared hshared using (show ∀ j ∈ items, ∃ x, x ≠ .null ∧
      ((c j).report x).issues = [] ∧ ((c' j).report x).issues = [] from hshare)
    refine ⟨Function.update shared i x, Function.update_self .., fun j hj hji => ?_⟩
    rw [Function.update_of_ne hji]
    exact hshared j hj
  have hv : ∀ j ∈ items, value j ≠ .null := by
    intro j hj
    by_cases hji : j = i
    · rw [hji, hvalue]
      exact hx
    · exact (hothers j hj hji).1
  have hall : ∀ d : ι → Validator, ((d i).report x).issues = [] →
      (∀ j ∈ items, j ≠ i → ((d j).report (value j)).issues = []) →
      ∀ j ∈ items, ((d j).report (value j)).issues = [] := by
    intro d hd hrest j hj
    by_cases hji : j = i
    · rw [hji, hvalue]
      exact hd
    · exact hrest j hj hji
  refine ⟨.obj (items.map fun i => (name i, value i)), by simp, fun he => hne ?_⟩
  by_cases hc : ((c i).report x).issues = []
  · have := accepted?_eq_of_object hn hv he (hall c hc fun j hj hji => (hothers j hj hji).2.1) hi
    rwa [hvalue] at this
  · by_cases hc' : ((c' i).report x).issues = []
    · have := accepted?_eq_of_object hn hv he.symm
        (hall c' hc' fun j hj hji => (hothers j hj hji).2.2) hi
      rw [hvalue] at this
      exact this.symm
    · have hrefused : ∀ v : Validator, (v.report x).issues ≠ [] → v.accepted? x = none := by
        intro v hv
        rw [Option.eq_none_iff_forall_ne_some]
        exact fun y hy => hv (accepted?_eq_some_iff.1 hy).1
      rw [hrefused _ hc, hrefused _ hc']

/-- Validators of objects share a value if the validators of all fields do. -/
theorem Share.object (hn : (items.map name).Nodup) {c c' : ι → Validator}
    (hshare : ∀ j ∈ items, (c j).Share (c' j)) :
    (object typeName false (items.map fun i => ⟨name i, optional i, c i⟩)).Share
      (.object typeName false (items.map fun i => ⟨name i, optional i, c' i⟩)) := by
  choose! shared hshared using (show ∀ j ∈ items, ∃ x, x ≠ .null ∧
    ((c j).report x).issues = [] ∧ ((c' j).report x).issues = [] from hshare)
  have hv : ∀ j ∈ items, shared j ≠ .null := fun j hj => (hshared j hj).1
  refine ⟨.obj (items.map fun i => (name i, shared i)), by simp, ?_, ?_⟩
  · exact (accepted?_eq_some_iff.1 ((accepted?_object_full hn c hv).2
      ⟨fun j hj => (hshared j hj).2.1, rfl⟩)).1
  · exact (accepted?_eq_some_iff.1 ((accepted?_object_full hn c' hv).2
      ⟨fun j hj => (hshared j hj).2.2, rfl⟩)).1

end Objects

end OperationTools.Validator
