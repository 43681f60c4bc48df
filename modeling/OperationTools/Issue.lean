import OperationTools.Json.Display

/-!
# Issues

What a validator finds wrong with a value: a class, a reason and the path to the place. A rejection
is the issue that is reported, together with the operation it arose in.

## Main definitions

* `Path`, `Path.text`: places inside a value
* `IssueClass`, `Reason`, `Issue`: what is wrong
* `Issue.reported?`: which of several issues is reported
* `Rejection`, `Rejection.message`: a reported issue

## Main results

* `Issue.reported?_eq_none_iff`: no issue is reported only if there is none
* `Issue.cls_of_reported?`: a missing value is reported before everything else
-/

namespace OperationTools

/-! ## Paths -/

/-- One step into a value: to the entry of a key or to an item. -/
inductive Segment where
  | key (name : String)
  | index (n : Int)
deriving DecidableEq, Repr

/-- The steps from a value to a place in it. -/
abbrev Path := List Segment

/-- A step that follows another one. -/
def Segment.text : Segment → String
  | .key name => "." ++ name
  | .index n => "[" ++ toString n ++ "]"

/-- The text of a path: keys are joined by points, positions stand in brackets. -/
def Path.text : Path → String
  | [] => ""
  | .key name :: rest => name ++ String.join (rest.map Segment.text)
  | .index n :: rest => (Segment.index n).text ++ String.join (rest.map Segment.text)

/-! ## Issues -/

/-- The classes of issues. Invalid list items are type mismatches that lie at a position of a
list. -/
inductive IssueClass where
  | invalid
  | missingRequired
  | typeMismatch
  | invalidListItem
  | invalidEnumValue
  | unknownField
  | selectionMismatch
deriving DecidableEq, Repr

namespace IssueClass

/-- The code of a class. -/
def code : IssueClass → String
  | .invalid => "invalid"
  | .missingRequired => "missing_required"
  | .typeMismatch => "type_mismatch"
  | .invalidListItem => "invalid_list_item"
  | .invalidEnumValue => "invalid_enum_value"
  | .unknownField => "unknown_field"
  | .selectionMismatch => "selection_type_mismatch"

/-- The class is that of type mismatches or one of its kinds. -/
def isTypeMismatch : IssueClass → Bool
  | .typeMismatch | .invalidListItem => true
  | _ => false

end IssueClass

/-- What a place could have held. -/
inductive Expectation where
  | string | integer | number | boolean | enumString | array | object | switch | selection
deriving DecidableEq, Repr

/-- The words for an expectation. -/
def Expectation.text : Expectation → String
  | .string => "string"
  | .integer => "integer"
  | .number => "number"
  | .boolean => "boolean"
  | .enumString => "enum string"
  | .array => "array"
  | .object => "object"
  | .switch => "true or false"
  | .selection => "a selection object or boolean"

/-- Why a value is refused. -/
inductive Reason where
  | expected (what : Expectation) (found : Json.Kind)
  | notTheValue (value allowed : Json)
  | notAmong (value : String) (allowed : List String)
  | nullItem
  | missingField (name : String)
  | nullField (name : String)
  | unknownField (name typeName : String)
  | needsSelection (typeName : String) (found : Json.Kind)
  | selectionNotObject (found : Json.Kind)
  | scalarResult
  | stated (text : String)
deriving DecidableEq

/-- The words for a reason. -/
def Reason.text : Reason → String
  | .expected what found => s!"expected {what.text}, got {found.label}"
  | .notTheValue value allowed =>
    s!"invalid enum value {value.display}, expected {allowed.display}"
  | .notAmong value allowed =>
    s!"invalid enum value {Text.quoted value}, expected one of " ++ ", ".intercalate allowed
  | .nullItem => "list item must not be null"
  | .missingField name => s!"missing required field '{name}'"
  | .nullField name => s!"required field '{name}' is null"
  | .unknownField name typeName => s!"unknown field '{name}' on type {typeName}"
  | .needsSelection typeName found =>
    s!"field of type {typeName} requires a selection object, got {found.label}"
  | .selectionNotObject found => s!"selection must be an object, got {found.label}"
  | .scalarResult => "operation returns a scalar and takes no sub-selection"
  | .stated text => text

/-- Something wrong at a place. -/
structure Issue where
  cls : IssueClass
  reason : Reason
  path : Path := []
deriving DecidableEq

namespace Issue

/-- The issue, seen from one step further out. -/
def under (segment : Segment) (issue : Issue) : Issue :=
  { issue with path := segment :: issue.path }

@[simp] theorem path_under (segment : Segment) (issue : Issue) :
    (issue.under segment).path = segment :: issue.path := rfl

@[simp] theorem cls_under (segment : Segment) (issue : Issue) :
    (issue.under segment).cls = issue.cls := rfl

@[simp] theorem reason_under (segment : Segment) (issue : Issue) :
    (issue.under segment).reason = issue.reason := rfl

/-- The issue of a list's item, seen from the item: a type mismatch of the item itself makes it an
invalid list item. -/
def asItem (issue : Issue) : Issue :=
  if issue.cls = .typeMismatch ∧ issue.path = [] then { issue with cls := .invalidListItem }
  else issue

@[simp] theorem path_asItem (issue : Issue) : issue.asItem.path = issue.path := by
  unfold asItem
  split <;> rfl

@[simp] theorem reason_asItem (issue : Issue) : issue.asItem.reason = issue.reason := by
  unfold asItem
  split <;> rfl

/-- The issue to report: the first one about a missing value, else the first one. -/
def reported? (issues : List Issue) : Option Issue :=
  (issues.find? (·.cls = .missingRequired)).or issues.head?

theorem mem_of_reported? {issues : List Issue} {issue : Issue}
    (h : reported? issues = some issue) : issue ∈ issues := by
  rcases Option.or_eq_some_iff.1 h with h | ⟨_, h⟩
  · exact List.mem_of_find?_eq_some h
  · exact List.mem_of_head? h

/-- No issue is reported only if there is none. -/
@[simp] theorem reported?_eq_none_iff {issues : List Issue} :
    reported? issues = none ↔ issues = [] := by
  cases issues <;> simp [reported?]

/-- A missing value is reported before everything else. -/
theorem cls_of_reported? {issues : List Issue} {issue : Issue}
    (h : reported? issues = some issue) :
    issue.cls = .missingRequired ↔ ∃ i ∈ issues, i.cls = .missingRequired := by
  constructor
  · exact fun hc => ⟨issue, mem_of_reported? h, hc⟩
  · rintro ⟨i, hi, hc⟩
    cases hf : issues.find? (·.cls = .missingRequired) with
    | none => simpa [hc] using List.find?_eq_none.1 hf i hi
    | some j =>
      obtain rfl : j = issue := by simpa [reported?, hf] using h
      simpa using List.find?_some hf

end Issue

/-- A reported issue and the operation in which it arose, once that is known. -/
structure Rejection where
  issue : Issue
  operation : Option String := none
deriving DecidableEq

namespace Rejection

/-- The rejection, attributed to an operation. -/
def inOperation (name : String) (r : Rejection) : Rejection :=
  { r with operation := some name }

/-- The message: the operation unless its name is empty, the reason, and the place unless it is the
value itself. -/
def message (r : Rejection) : String :=
  let operation := r.operation.getD ""
  let head := if operation.isEmpty then "" else s!"Validation failed for {operation}: "
  let place := if r.issue.path.isEmpty then "" else s!" at '{r.issue.path.text}'"
  head ++ r.issue.reason.text ++ place

end Rejection

end OperationTools
