import OperationTools.Json.Comparison
import OperationTools.Validator.Basic

/-!
# Checking values

A check walks over a value and collects all issues in the order in which they are met, together with
the accepted value: integers are normalised, objects are reduced to their known fields in the order
of the validator, and everything else stays as it is. The paths of issues are relative to the value.

## Main definitions

* `Report`: the accepted value, the issues and the keys that were dropped
* `Validator.report`: the report on a value
* `Validator.judge`: the accepted value or the reported issue

## Main results

* `Report.verdict_eq_ok_iff`: a value is accepted exactly if there are no issues
* `Validator.reportItems_eq_mapIdx`, `Validator.reportEntries_eq_map`: items and entries are checked
  one by one
-/

namespace OperationTools

/-- The keys that were dropped from an object, and the name of its type. -/
structure DroppedKeys where
  keys : List String
  owner : String
deriving DecidableEq, Repr

/-- What a check finds. The value is meant only if there are no issues. -/
structure Report where
  value : Json
  issues : List Issue := []
  dropped : List DroppedKeys := []

namespace Report

/-- A report with one issue at the value itself. -/
def refuse (cls : IssueClass) (reason : Reason) (value : Json) : Report :=
  { value, issues := [{ cls, reason }] }

@[simp] theorem issues_refuse (cls : IssueClass) (reason : Reason) (value : Json) :
    (refuse cls reason value).issues = [{ cls, reason }] := rfl

/-- The report, seen from one step further out. -/
def under (segment : Segment) (r : Report) : Report :=
  { r with issues := r.issues.map (·.under segment) }

@[simp] theorem value_under (segment : Segment) (r : Report) :
    (r.under segment).value = r.value := rfl

@[simp] theorem issues_under (segment : Segment) (r : Report) :
    (r.under segment).issues = r.issues.map (·.under segment) := rfl

/-- The report on the item at a position of a list. -/
def atIndex (index : Nat) (r : Report) : Report :=
  { r with issues := r.issues.map fun issue => issue.asItem.under (.index index) }

@[simp] theorem value_atIndex (index : Nat) (r : Report) : (r.atIndex index).value = r.value := rfl

@[simp] theorem issues_atIndex (index : Nat) (r : Report) :
    (r.atIndex index).issues = r.issues.map fun issue => issue.asItem.under (.index index) := rfl

/-- The accepted value, or the issue to report. -/
def verdict (r : Report) : Except Issue Json :=
  match Issue.reported? r.issues with
  | some issue => .error issue
  | none => .ok r.value

/-- The value is accepted exactly if there are no issues. -/
theorem verdict_eq_ok_iff {r : Report} {x : Json} :
    r.verdict = .ok x ↔ r.issues = [] ∧ r.value = x := by
  unfold verdict
  split
  · rename_i issue h
    have hne : r.issues ≠ [] := fun he => by simp [he, Issue.reported?] at h
    simp [hne]
  · rename_i h
    simp [Issue.reported?_eq_none_iff.1 h]

theorem verdict_eq_error_iff {r : Report} {issue : Issue} :
    r.verdict = .error issue ↔ Issue.reported? r.issues = some issue := by
  unfold verdict
  split <;> simp [*]

/-- A report with a value of its own and all that the given reports found. -/
def collect (value : Json) (reports : List Report) (dropped : List DroppedKeys := []) : Report :=
  { value
    issues := reports.flatMap (·.issues)
    dropped := reports.flatMap (·.dropped) ++ dropped }

@[simp] theorem value_collect (value : Json) (reports : List Report)
    (dropped : List DroppedKeys) : (collect value reports dropped).value = value := rfl

@[simp] theorem issues_collect (value : Json) (reports : List Report)
    (dropped : List DroppedKeys) :
    (collect value reports dropped).issues = reports.flatMap (·.issues) := rfl

end Report

namespace Validator

/-- The report on a value of which no parts are looked at. -/
def shallowReport (v : Validator) (x : Json) : Report :=
  let mismatch what := Report.refuse .typeMismatch (.expected what x.kind) x
  match v with
  | .any => { value := x }
  | .string =>
    match x with
    | .str _ => { value := x }
    | _ => mismatch .string
  | .integer =>
    match x with
    | .int _ => { value := x }
    | .float y =>
      match y.toInt? with
      | some n => { value := .int n }
      | none => mismatch .integer
    | _ => mismatch .integer
  | .number =>
    match x with
    | .int _ | .float _ => { value := x }
    | _ => mismatch .number
  | .boolean =>
    match x with
    | .bool _ => { value := x }
    | _ => mismatch .boolean
  | .literal value =>
    if x.sameValue value then { value := x }
    else .refuse .invalidEnumValue (.notTheValue x value) x
  | .enumeration values =>
    match x with
    | .str s =>
      if values.contains s then { value := x }
      else .refuse .invalidEnumValue (.notAmong s values) x
    | _ => mismatch .enumString
  | .list .. => mismatch .array
  | .object .. => mismatch .object
  | .leaf =>
    match x with
    | .null | .bool _ => { value := x }
    | _ => .refuse .selectionMismatch (.expected .switch x.kind) x
  | .anySelection =>
    match x with
    | .null | .bool _ | .obj _ => { value := x }
    | _ => .refuse .selectionMismatch (.expected .selection x.kind) x
  | .openSelection typeName _ | .lazySelection _ _ typeName =>
    match x with
    | .null | .bool false => { value := x }
    | _ => .refuse .selectionMismatch (.needsSelection (selectionLabel typeName) x.kind) x
  | .strictSelection typeName _ _ =>
    match x with
    | .null | .bool false => { value := x }
    | _ => .refuse .selectionMismatch (.needsSelection typeName x.kind) x

/-- The report on an item of a list, from the report of the item's validator. That one does not
count for a null item. -/
def itemReport (nullItems : Bool) (index : Nat) (x : Json) (r : Report) : Report :=
  if x = .null then
    if nullItems then { value := .null }
    else (Report.refuse .invalidListItem .nullItem .null).under (.index index)
  else r.atIndex index

/-- The report on an array, from the reports on its items. -/
def arrayReport (v : Validator) (items : List Json) (reports : List Report) : Report :=
  match v with
  | .list .. => .collect (.arr (reports.map (·.value))) reports
  | v => v.shallowReport (.arr items)

/-- The report on a field of an object, if the field is there or has to be. -/
def memberReport? (entries : List (String × Json)) (checked : List (String × Option Report))
    (m : Member Validator) : Option Report :=
  match entries.lookup m.name with
  | none =>
    if m.optional then none
    else some ((Report.refuse .missingRequired (.missingField m.name) .null).under (.key m.name))
  | some .null =>
    if m.optional then some { value := .null }
    else some ((Report.refuse .missingRequired (.nullField m.name) .null).under (.key m.name))
  | some x =>
    -- the keys of all fields are known, so there is a report on this one
    let found := (checked.lookup m.name).join.getD { value := x }
    some (found.under (.key m.name))

/-- The report on an object with the given fields. Its accepted value has the fields that are there,
in the order of the validator. -/
def fieldsReport (typeName : Option String) (fields : List (Member Validator))
    (entries : List (String × Json)) (checked : List (String × Option Report)) : Report :=
  let found := fields.filterMap fun m =>
    (memberReport? entries checked m).map fun r => (m.name, r)
  let unknown := (entries.map (·.1)).filter fun key => !fields.any (·.name == key)
  let owner := match typeName with
    | some name => selectionLabel name
    | none => "object"
  .collect (.obj (found.map fun (name, r) => (name, r.value))) (found.map (·.2))
    (if unknown.isEmpty then [] else [⟨unknown, owner⟩])

/-- The report on an entry of a strict selection: its key has to be known. -/
def strictEntryReport (typeName key : String) (checked : Option Report) : Report :=
  match checked with
  | some r => r.under (.key key)
  | none => (Report.refuse .unknownField (.unknownField key typeName) .null).under (.key key)

/-- The report on an object, from the reports on the entries whose keys are known. -/
def objectReport (v : Validator) (entries : List (String × Json))
    (checked : List (String × Option Report)) : Report :=
  match v with
  | .object _ true _ => { value := .obj entries }
  | .object typeName false fields => fieldsReport typeName fields entries checked
  | .openSelection .. | .lazySelection .. =>
    .collect (.obj entries) (checked.filterMap fun (key, r) => r.map (·.under (.key key)))
  | .strictSelection typeName _ _ =>
    let reports := checked.map fun (key, r) => (key, strictEntryReport typeName key r)
    .collect (.obj (reports.map fun (key, r) => (key, r.value))) (reports.map (·.2))
  | v => v.shallowReport (.obj entries)

mutual

/-- The report on a value. -/
def report (v : Validator) : Json → Report
  | .arr items =>
    v.arrayReport items (reportItems v.item (v matches .list _ true) 0 items)
  | .obj entries => v.objectReport entries (reportEntries v entries)
  | .null => v.shallowReport .null
  | .bool b => v.shallowReport (.bool b)
  | .int n => v.shallowReport (.int n)
  | .float x => v.shallowReport (.float x)
  | .str s => v.shallowReport (.str s)

/-- The reports on the items of an array from a position on. -/
def reportItems (item : Validator) (nullItems : Bool) (index : Nat) : List Json → List Report
  | [] => []
  | x :: rest =>
    itemReport nullItems index x (report item x) :: reportItems item nullItems (index + 1) rest

/-- The reports on the entries of an object whose keys are known. -/
def reportEntries (v : Validator) : List (String × Json) → List (String × Option Report)
  | [] => []
  | (key, x) :: rest => (key, (v.child? key).map fun c => report c x) :: reportEntries v rest

end

theorem reportItems_eq_mapIdx (item : Validator) (nullItems : Bool) (index : Nat)
    (items : List Json) :
    reportItems item nullItems index items =
      items.mapIdx fun i x => itemReport nullItems (index + i) x (report item x) := by
  induction items generalizing index with
  | nil => rfl
  | cons x rest ih =>
    simp [reportItems, ih, List.mapIdx_cons, Nat.add_assoc, Nat.add_comm 1]

@[simp] theorem reportEntries_eq_map (v : Validator) (entries : List (String × Json)) :
    reportEntries v entries =
      entries.map fun e => (e.1, (v.child? e.1).map fun c => report c e.2) := by
  induction entries with
  | nil => rfl
  | cons e rest ih => simp [reportEntries, ih]

/-- The accepted value, or the issue to report. -/
def judge (v : Validator) (x : Json) : Except Issue Json := (v.report x).verdict

/-- Whether a value is accepted. -/
def accepts (v : Validator) (x : Json) : Bool := (v.report x).issues.isEmpty

theorem accepts_iff {v : Validator} {x : Json} :
    v.accepts x = true ↔ v.judge x = .ok (v.report x).value := by
  simp [accepts, judge, Report.verdict_eq_ok_iff]

end Validator

end OperationTools
