import OperationTools.Proofs.Validator.IssuePaths

/-!
# Issues of list items

A list turns the type mismatches of its own items into invalid list items. Where lists stand in
lists, an issue on its way out passes through several of them, and all compare its path with the
place of an item. Nothing is lost by it: the class of an issue follows from where it lies in the
end, whatever stands around it, and the lists change nothing else.

## Main definitions

* `Validator.gathered`: the issues of a value, when lists treat those of their items in a given way
* `Issue.classified`: the issue with the class that follows from its place

## Main results

* `Validator.ForArguments.gathered_asItem`: the issues of a report are gathered in this way
* `Validator.ForArguments.issues_classified`: type mismatches lie at fields, invalid list items at
  positions, and only the class of an issue depends on the lists
-/

namespace OperationTools

namespace Issue

/-- The issue lies at a position of a list. -/
def atPosition (issue : Issue) : Bool := issue.path.getLast? matches some (.index _)

/-- The issue with the class that follows from its place: a type mismatch at a position of a list
is an invalid list item. -/
def classified (issue : Issue) : Issue :=
  if issue.cls = .typeMismatch ∧ issue.atPosition then { issue with cls := .invalidListItem }
  else issue

variable {issue : Issue}

@[simp] theorem path_classified (issue : Issue) : issue.classified.path = issue.path := by
  unfold classified
  split <;> rfl

@[simp] theorem reason_classified (issue : Issue) : issue.classified.reason = issue.reason := by
  unfold classified
  split <;> rfl

theorem classified_of_ne (h : issue.cls ≠ .typeMismatch) : issue.classified = issue :=
  if_neg fun hc => h hc.1

theorem classified_of_not_atPosition (h : issue.atPosition = false) :
    issue.classified = issue :=
  if_neg fun hc => by simp [h] at hc

/-- What lies at a position still does when it is seen from further out. -/
theorem atPosition_under (s : Segment) (h : issue.path ≠ []) :
    (issue.under s).atPosition = issue.atPosition := by
  rw [atPosition, atPosition, path_under, List.getLast?_cons_of_ne_nil h]

theorem classified_under (s : Segment) (h : issue.path ≠ []) :
    (issue.under s).classified = issue.classified.under s := by
  unfold classified
  rw [atPosition_under s h, cls_under]
  split <;> rfl

/-- In a field, a value keeps the class of what is wrong with it. -/
theorem classified_under_key (name : String) (issue : Issue) :
    (issue.under (.key name)).classified = issue.classified.under (.key name) := by
  by_cases h : issue.path = []
  · rw [classified_of_not_atPosition (by simp [atPosition, h]),
      classified_of_not_atPosition (by simp [atPosition, h])]
  · exact classified_under _ h

/-- In a list, what is wrong with the item itself takes the class of list items, and all that lies
deeper has its class already. -/
theorem classified_under_index (i : Nat) (issue : Issue) :
    (issue.under (.index i)).classified = issue.classified.asItem.under (.index i) := by
  by_cases h : issue.path = []
  · have hclassified : issue.classified = issue :=
      classified_of_not_atPosition (by simp [atPosition, h])
    rw [hclassified]
    by_cases hc : issue.cls = .typeMismatch
    · simp [classified, asItem, atPosition, h, hc, under]
    · rw [classified_of_ne (by simpa using hc), asItem, if_neg fun hi => hc hi.1]
  · rw [classified_under _ h, asItem, if_neg fun hi => h (by simpa using hi.2)]

/-- A type mismatch that has its class does not lie at a position. -/
theorem atPosition_of_typeMismatch (h : issue.classified.cls = .typeMismatch) :
    issue.classified.atPosition = false := by
  unfold classified at h ⊢
  split
  · simp [*] at h
  · rename_i hn
    rw [if_neg hn] at h
    simpa [h] using hn

/-- A path that does not end at a position is empty or ends at a key. -/
theorem path_of_not_atPosition (h : issue.atPosition = false) :
    issue.path = [] ∨ ∃ p name, issue.path = p ++ [.key name] := by
  rcases List.eq_nil_or_concat issue.path with hp | ⟨p, s, hp⟩
  · exact .inl hp
  · cases s with
    | key name => exact .inr ⟨p, name, by simpa using hp⟩
    | index i => simp [atPosition, hp] at h

end Issue

namespace Validator

variable {v : Validator}

mutual

/-- The issues of a value, in the order in which they are met, when a list hands on those of its
items as `onItem` has them. -/
def gathered (onItem : Issue → Issue) : Validator → Json → List Issue
  | .list item nullItems, .arr items =>
    items.zipIdx.flatMap fun e =>
      if e.1 = .null then if nullItems then [] else [⟨.invalidListItem, .nullItem, [.index e.2]⟩]
      else (gathered onItem item e.1).map fun issue => (onItem issue).under (.index e.2)
  | .object _ false fields, .obj entries => gatheredFields onItem entries fields
  | v, x => (v.report x).issues

/-- The issues of the fields of an object. -/
def gatheredFields (onItem : Issue → Issue) (entries : List (String × Json)) :
    List (Member Validator) → List Issue
  | [] => []
  | ⟨name, optional, v⟩ :: rest =>
    (match entries.lookup name with
      | none => if optional then [] else [⟨.missingRequired, .missingField name, [.key name]⟩]
      | some .null => if optional then [] else [⟨.missingRequired, .nullField name, [.key name]⟩]
      | some x => (gathered onItem v x).map (·.under (.key name))) ++
    gatheredFields onItem entries rest

end

variable {onItem : Issue → Issue}

theorem gatheredFields_eq_flatMap (onItem : Issue → Issue) (entries : List (String × Json))
    (fields : List (Member Validator)) :
    gatheredFields onItem entries fields = fields.flatMap fun m =>
      match entries.lookup m.name with
      | none => fieldIssues m none
      | some .null => fieldIssues m (some .null)
      | some x => (gathered onItem m.validator x).map (·.under (.key m.name)) := by
  induction fields with
  | nil => rfl
  | cons m rest ih => rw [gatheredFields, ih]; rfl

/-- The issues of a report are gathered so that lists make those of their items invalid list
items. -/
theorem ForArguments.gathered_asItem (hv : v.ForArguments) (x : Json) :
    gathered Issue.asItem v x = (v.report x).issues := by
  induction hv generalizing x with
  | any | string | integer | number | boolean | literal | enumeration | permissive => rfl
  | list nullItems _ ih =>
    cases x with
    | arr items =>
      rw [issues_list, gathered]
      exact List.flatMap_congr fun e _ => by rw [itemIssues, ih]
    | _ => rfl
  | object typeName hn _ ih =>
    cases x with
    | obj entries =>
      rw [issues_object hn, gathered, gatheredFields_eq_flatMap]
      refine List.flatMap_congr fun m hm => ?_
      cases entries.lookup m.name with
      | none => rfl
      | some x =>
        cases x with
        | null => rfl
        | _ => simp only [ih m hm, fieldIssues]
    | _ => rfl

end Validator

/-- What is wrong with a value as a whole has its class. -/
theorem Report.Whole.map_classified {r : Report} (h : r.Whole) :
    r.issues.map Issue.classified = r.issues := by
  obtain h | ⟨cls, reason, -, -, h⟩ := h
  · rw [h, List.map_nil]
  · rw [h, List.map_singleton, Issue.classified_of_not_atPosition rfl]

namespace Validator

theorem map_classified_fieldIssues_none (m : Member Validator) (x? : Option Json)
    (h : x? = none ∨ x? = some .null) :
    (fieldIssues m x?).map Issue.classified = fieldIssues m x? := by
  obtain rfl | rfl := h <;> cases ho : m.optional <;> simp [fieldIssues, ho, Issue.classified]

/-- However lists stand in lists and in objects, the issues of a report are those that are gathered
without them, each with the class of its place. -/
theorem ForArguments.issues_eq_map_classified (hv : v.ForArguments) (x : Json) :
    (v.report x).issues = (gathered id v x).map Issue.classified := by
  -- by the validator: a list classifies what lies at its items, and all else keeps its class
  rw [← hv.gathered_asItem]
  induction hv generalizing x with
  | any | string | integer | number | boolean | literal | enumeration =>
    refine (Report.Whole.map_classified ?_).symm
    cases x with
    | _ => exact whole_shallowReport _ _
  | permissive =>
    refine (Report.Whole.map_classified ?_).symm
    cases x with
    | obj => exact .inl rfl
    | _ => exact whole_shallowReport _ _
  | list nullItems _ ih =>
    cases x with
    | arr items =>
      rw [gathered, gathered, List.map_flatMap]
      refine List.flatMap_congr fun e _ => ?_
      split
      · cases nullItems <;> simp [Issue.classified]
      · rw [ih, List.map_map, List.map_map]
        exact List.map_congr_left fun issue _ => (Issue.classified_under_index ..).symm
    | _ => exact (whole_shallowReport _ _).map_classified.symm
  | object typeName hn _ ih =>
    cases x with
    | obj entries =>
      rw [gathered, gathered, gatheredFields_eq_flatMap, gatheredFields_eq_flatMap,
        List.map_flatMap]
      refine List.flatMap_congr fun m hm => ?_
      cases entries.lookup m.name with
      | none => exact (map_classified_fieldIssues_none m _ (.inl rfl)).symm
      | some x =>
        cases x with
        | null => exact (map_classified_fieldIssues_none m _ (.inr rfl)).symm
        | _ =>
          simp only [ih m hm, List.map_map]
          exact List.map_congr_left fun issue _ => (Issue.classified_under_key ..).symm
    | _ => exact (whole_shallowReport _ _).map_classified.symm

/-- A type mismatch of a report lies at the value itself or at a field, and an invalid list item at
a position of a list. Lists that treat the issues of their items decide on nothing but this: the
same issues in the same order, with the same places and reasons, are gathered where they do not. -/
theorem ForArguments.issues_classified (hv : v.ForArguments) (x : Json) :
    (∀ issue ∈ (v.report x).issues,
      (issue.cls = .typeMismatch → issue.path = [] ∨ ∃ p name, issue.path = p ++ [.key name]) ∧
      (issue.cls = .invalidListItem → ∃ p i, issue.path = p ++ [.index (.ofNat i)])) ∧
    (v.report x).issues = gathered Issue.asItem v x ∧
    (v.report x).issues = (gathered id v x).map Issue.classified ∧
    (v.report x).issues.map (fun issue => (issue.path, issue.reason)) =
      (gathered id v x).map fun issue => (issue.path, issue.reason) := by
  have hclassified := hv.issues_eq_map_classified x
  refine ⟨fun issue hi => ⟨fun hc => ?_, fun hc => ?_⟩, (hv.gathered_asItem x).symm,
    hclassified, ?_⟩
  · rw [hclassified] at hi
    obtain ⟨found, -, rfl⟩ := List.mem_map.1 hi
    exact Issue.path_of_not_atPosition (Issue.atPosition_of_typeMismatch hc)
  · have hpoints := hv.points x issue hi
    rw [Issue.Points, hc] at hpoints
    obtain ⟨p, i, _, hp, -⟩ := hpoints
    exact ⟨p, i, hp⟩
  · rw [hclassified, List.map_map]
    exact List.map_congr_left fun issue _ => by simp

/-- A table with rows of rows of integers. -/
def tableArguments : Validator :=
  .object (some "table") false
    [⟨"rows", false, .list (.list .integer false) true⟩,
      ⟨"cell", false, .list (.object (some "Cell") false [⟨"x", false, .integer⟩]) true⟩]

/-- A row that is no list, a wrong and a missing integer, and a wrong field of an item. -/
def wrongTable : Json :=
  .obj [("rows", .arr [.int 1, .arr [.int 1, .str "a", .null]]),
    ("cell", .arr [.obj [("x", .str "b")]])]

/-- Of the wrong integers, the ones in a row are invalid list items and the one of a cell is a type
mismatch. -/
theorem issues_classified_wrongTable :
    tableArguments.ForArguments ∧
    ((tableArguments.report wrongTable).issues.map fun issue => (issue.cls, issue.path)) =
      [(.invalidListItem, [.key "rows", .index 0]),
        (.invalidListItem, [.key "rows", .index 1, .index 1]),
        (.invalidListItem, [.key "rows", .index 1, .index 2]),
        (.typeMismatch, [.key "cell", .index 0, .key "x"])] ∧
    (tableArguments.report wrongTable).issues.map (fun issue => (issue.path, issue.reason)) =
      (gathered id tableArguments wrongTable).map fun issue => (issue.path, issue.reason) := by
  have hv : tableArguments.ForArguments := by
    refine .object _ (by decide) ?_
    simp only [List.forall_mem_cons, List.not_mem_nil, false_implies, implies_true, and_true]
    refine ⟨.list _ (.list _ .integer), .list _ (.object _ (by decide) ?_)⟩
    simp only [List.forall_mem_cons, List.not_mem_nil, false_implies, implies_true, and_true]
    exact .integer
  exact ⟨hv, by decide, (hv.issues_classified wrongTable).2.2.2⟩

end Validator

end OperationTools
