import OperationTools.Proofs.Validator.Position
import OperationTools.Proofs.Validator.PublishedArguments

/-!
# Where issues lie

An issue lies at a place of the value that is checked, and no two of them at the same one. Issues
inside an object are gathered field by field and inside an array item by item, each under a step of
its own, so that none is lost on the way out.

## Main definitions

* `Issue.Points`: the place of an issue is there, or is what is missing
* `Validator.fieldIssues`, `Validator.itemIssues`: what is wrong with a field and with an item

## Main results

* `Validator.issues_list`, `Validator.issues_object`: issues are gathered place by place
* `Validator.ForArguments.issues_located`: issues lie at distinct places, and every required field
  that is missing has one of them
-/

namespace OperationTools

/-- The issue lies at a place of the value. A missing value is one that an object on the way does
not have, or has as `null`; an invalid item is one of an array; and any other issue is about a value
that is there. Nothing but the value that is checked may be `null` then. -/
def Issue.Points (issue : Issue) (x : Json) : Prop :=
  match issue.cls with
  | .missingRequired => ∃ p key entries, issue.path = p ++ [.key key] ∧
      x.at? p = some (.obj entries) ∧
      (entries.lookup key = none ∨ entries.lookup key = some .null)
  | .invalidListItem => ∃ p i items, issue.path = p ++ [.index (.ofNat i)] ∧
      x.at? p = some (.arr items) ∧ i < items.length
  | _ => ∃ y, x.at? issue.path = some y ∧ (y ≠ .null ∨ issue.path = [])

namespace Issue

variable {issue : Issue} {x y : Json} {s : Segment}

/-- Seen from one step further out, an issue lies at the same place. -/
theorem Points.under (h : issue.Points y) (hs : x.step? s = some y) (hy : y ≠ .null) :
    (issue.under s).Points x := by
  have hat : ∀ p, x.at? (s :: p) = y.at? p := by
    intro p
    rw [Json.at?_cons, hs, Option.bind_some]
  unfold Points at h ⊢
  rw [cls_under, path_under]
  split at h
  · obtain ⟨p, key, entries, hp, hentries, hkey⟩ := h
    exact ⟨s :: p, key, entries, by rw [hp]; rfl, by rw [hat, hentries], hkey⟩
  · obtain ⟨p, i, items, hp, hitems, hi⟩ := h
    exact ⟨s :: p, i, items, by rw [hp]; rfl, by rw [hat, hitems], hi⟩
  · obtain ⟨z, hz, hne⟩ := h
    refine ⟨z, by rw [hat, hz], .inl (hne.elim id fun hpath => ?_)⟩
    obtain rfl : y = z := by simpa [hpath] using hz
    exact hy

/-- An issue with an item lies at the item, whether it becomes one about the list or not. -/
theorem Points.atIndex {items : List Json} {i : Nat} (h : issue.Points y)
    (hi : items[i]? = some y) (hy : y ≠ .null) :
    (issue.asItem.under (.index i)).Points (.arr items) := by
  by_cases hc : issue.cls = .typeMismatch ∧ issue.path = []
  · have hcls : (issue.asItem.under (.index i)).cls = .invalidListItem := by simp [asItem, hc]
    unfold Points
    rw [hcls]
    refine ⟨[], i, items, ?_, rfl, (List.getElem?_eq_some_iff.1 hi).1⟩
    simp [hc.2]
  · rw [show issue.asItem = issue from if_neg hc]
    exact h.under hi hy

end Issue

namespace Validator

/-! ## Gathering issues -/

/-- What is wrong with what stands in a field of an object. -/
def fieldIssues (m : Member Validator) : Option Json → List Issue
  | none =>
    if m.optional then [] else [⟨.missingRequired, .missingField m.name, [.key m.name]⟩]
  | some .null =>
    if m.optional then [] else [⟨.missingRequired, .nullField m.name, [.key m.name]⟩]
  | some x => (m.validator.report x).issues.map (·.under (.key m.name))

/-- What is wrong with an item of a list. -/
def itemIssues (v : Validator) (nullItems : Bool) (i : Nat) (x : Json) : List Issue :=
  if x = .null then if nullItems then [] else [⟨.invalidListItem, .nullItem, [.index i]⟩]
  else (v.report x).issues.map fun issue => issue.asItem.under (.index i)

theorem fieldIssues_some {m : Member Validator} {x : Json} (hx : x ≠ .null) :
    fieldIssues m (some x) = (m.validator.report x).issues.map (·.under (.key m.name)) := by
  cases x with
  | null => exact absurd rfl hx
  | _ => rfl

/-- The issues of an array are gathered item by item. -/
theorem issues_list (v : Validator) (nullItems : Bool) (items : List Json) :
    ((list v nullItems).report (.arr items)).issues =
      items.zipIdx.flatMap fun e => itemIssues v nullItems e.2 e.1 := by
  have hitem : ∀ (i : Nat) (x : Json),
      (itemReport nullItems i x (v.report x)).issues = itemIssues v nullItems i x := by
    intro i x
    unfold itemReport itemIssues
    split
    · split <;> rfl
    · rfl
  rw [report_list_arr, Report.issues_collect, reportItems_eq_mapIdx, List.mapIdx_eq_zipIdx_map,
    List.flatMap_map]
  simp only [Nat.zero_add, hitem]

section Objects

variable {typeName : Option String} {fields : List (Member Validator)}
  {entries : List (String × Json)}

/-- The issues of an object are gathered field by field. -/
theorem issues_object (hn : (fields.map (·.name)).Nodup) :
    ((object typeName false fields).report (.obj entries)).issues =
      fields.flatMap fun m => fieldIssues m (entries.lookup m.name) := by
  simp only [report, objectReport, fieldsReport, Report.issues_collect, List.flatMap_map,
    List.filterMap_eq_flatMap_toList, List.flatMap_assoc]
  refine List.flatMap_congr fun m hm => ?_
  cases hx : entries.lookup m.name with
  | none => cases ho : m.optional <;> simp [memberReport?, fieldIssues, Issue.under, hx, ho]
  | some x =>
    by_cases hne : x = .null
    · subst hne
      cases ho : m.optional <;> simp [memberReport?, fieldIssues, Issue.under, hx, ho]
    · rw [memberReport?_of_lookup hn hm hx hne, fieldIssues_some hne]
      simp

/-- An issue with a field is one of the object. -/
theorem under_mem_issues_object (hn : (fields.map (·.name)).Nodup) {m : Member Validator}
    (hm : m ∈ fields) {x : Json} (hx : entries.lookup m.name = some x) (hne : x ≠ .null)
    {issue : Issue} (h : issue ∈ (m.validator.report x).issues) :
    issue.under (.key m.name) ∈ ((object typeName false fields).report (.obj entries)).issues := by
  rw [issues_object hn]
  refine List.mem_flatMap.2 ⟨m, hm, ?_⟩
  rw [hx, fieldIssues_some hne]
  exact List.mem_map_of_mem h

end Objects

/-- An issue with an item is one of the array. -/
theorem atIndex_mem_issues_list {v : Validator} {nullItems : Bool} {items : List Json} {i : Nat}
    {x : Json} (hx : items[i]? = some x) (hne : x ≠ .null) {issue : Issue}
    (h : issue ∈ (v.report x).issues) :
    issue.asItem.under (.index i) ∈ ((list v nullItems).report (.arr items)).issues := by
  rw [issues_list]
  refine List.mem_flatMap.2 ⟨(x, i), List.mk_mem_zipIdx_iff_getElem?.2 hx, ?_⟩
  rw [itemIssues, if_neg hne]
  exact List.mem_map_of_mem h

end Validator

/-! ## Checking a value as a whole -/

/-- At most one issue was found. It is about the value as a whole, which is there and is no item. -/
def Report.Whole (r : Report) : Prop :=
  r.issues = [] ∨ ∃ cls reason, cls ≠ .missingRequired ∧ cls ≠ .invalidListItem ∧
    r.issues = [⟨cls, reason, []⟩]

namespace Validator

theorem whole_shallowReport (v : Validator) (x : Json) : (v.shallowReport x).Whole := by
  have hrefuse : ∀ (cls : IssueClass) (reason : Reason), cls ≠ .missingRequired →
      cls ≠ .invalidListItem → (Report.refuse cls reason x).Whole :=
    fun cls reason h₁ h₂ => .inr ⟨cls, reason, h₁, h₂, rfl⟩
  have haccept : ∀ y, Report.Whole { value := y } := fun _ => .inl rfl
  cases v with
  | any => exact haccept x
  | list | object => exact hrefuse _ _ (by simp) (by simp)
  | literal value =>
    simp only [shallowReport]
    split
    · exact haccept x
    · exact hrefuse _ _ (by simp) (by simp)
  | integer =>
    cases x with
    | int => exact haccept _
    | float a =>
      simp only [shallowReport]
      split
      · exact haccept _
      · exact hrefuse _ _ (by simp) (by simp)
    | _ => exact hrefuse _ _ (by simp) (by simp)
  | enumeration values =>
    cases x with
    | str s =>
      simp only [shallowReport]
      split
      · exact haccept _
      · exact hrefuse _ _ (by simp) (by simp)
    | _ => exact hrefuse _ _ (by simp) (by simp)
  | string | number | boolean | leaf | anySelection =>
    cases x with
    | _ => first | exact haccept _ | exact hrefuse _ _ (by simp) (by simp)
  | openSelection | lazySelection | strictSelection =>
    cases x with
    | bool b =>
      cases b with
      | _ => first | exact haccept _ | exact hrefuse _ _ (by simp) (by simp)
    | _ => first | exact haccept _ | exact hrefuse _ _ (by simp) (by simp)

/-- What holds where a value is checked as a whole, and of arrays and objects if it holds of what
stands in them, holds of all arguments. -/
theorem ForArguments.report_induction {motive : Validator → Json → Prop}
    (whole : ∀ v x, (v.report x).Whole → motive v x)
    (list : ∀ v nullItems items, (∀ x, motive v x) → motive (.list v nullItems) (.arr items))
    (object : ∀ typeName fields entries, (fields.map (·.name)).Nodup →
      (∀ m ∈ fields, ∀ x, motive m.validator x) →
        motive (.object typeName false fields) (.obj entries))
    {v : Validator} (hv : v.ForArguments) (x : Json) : motive v x := by
  induction hv generalizing x with
  | any | string | integer | number | boolean | literal | enumeration =>
    refine whole _ x ?_
    cases x with
    | _ => exact whole_shallowReport _ _
  | permissive =>
    refine whole _ x ?_
    cases x with
    | obj => exact .inl rfl
    | _ => exact whole_shallowReport _ _
  | list nullItems _ ih =>
    cases x with
    | arr items => exact list _ nullItems items ih
    | _ => exact whole _ _ (whole_shallowReport _ _)
  | object typeName hn _ ih =>
    cases x with
    | obj entries => exact object typeName _ entries hn ih
    | _ => exact whole _ _ (whole_shallowReport _ _)

/-! ## Distinct places -/

/-- Where issues are gathered from distinct places and have distinct paths at each, they have
distinct paths. -/
theorem nodup_paths_flatMap {ι : Type} {places : List ι} {step : ι → Segment}
    (hn : (places.map step).Nodup) {found : ι → List Issue}
    (hfound : ∀ i ∈ places, ((found i).map (·.path)).Nodup)
    (hunder : ∀ i ∈ places, ∀ issue ∈ found i, ∃ rest, issue.path = step i :: rest) :
    ((places.flatMap found).map (·.path)).Nodup := by
  rw [List.map_flatMap, List.nodup_flatMap]
  refine ⟨hfound, (List.pairwise_map.1 hn).imp_of_mem fun {i j} hi hj hne p hpi hpj => hne ?_⟩
  obtain ⟨a, ha, rfl⟩ := List.mem_map.1 hpi
  obtain ⟨b, hb, hab⟩ := List.mem_map.1 hpj
  obtain ⟨_, hpa⟩ := hunder i hi a ha
  obtain ⟨_, hpb⟩ := hunder j hj b hb
  exact (List.cons.inj (hpa.symm.trans (hab.symm.trans hpb))).1

theorem nodup_paths_under {issues : List Issue} (h : (issues.map (·.path)).Nodup) (s : Segment)
    {f : Issue → Issue} (hf : ∀ issue, (f issue).path = s :: issue.path) :
    ((issues.map f).map (·.path)).Nodup := by
  rw [List.map_map, show (fun issue : Issue => issue.path) ∘ f =
    (s :: ·) ∘ fun issue : Issue => issue.path from funext hf, ← List.map_map]
  exact h.map fun _ _ hcons => (List.cons.inj hcons).2

theorem nodup_paths_fieldIssues {m : Member Validator}
    (h : ∀ x, ((m.validator.report x).issues.map (·.path)).Nodup) (x? : Option Json) :
    ((fieldIssues m x?).map (·.path)).Nodup ∧
      ∀ issue ∈ fieldIssues m x?, ∃ rest, issue.path = .key m.name :: rest := by
  match x? with
  | none | some .null => cases ho : m.optional <;> simp [fieldIssues, ho]
  | some (.bool _) | some (.int _) | some (.float _) | some (.str _) | some (.arr _)
  | some (.obj _) =>
    rw [fieldIssues_some (by simp)]
    refine ⟨nodup_paths_under (h _) (.key m.name) fun _ => rfl, ?_⟩
    exact List.forall_mem_map.2 fun issue _ => ⟨_, rfl⟩

theorem nodup_paths_itemIssues {v : Validator}
    (h : ∀ x, ((v.report x).issues.map (·.path)).Nodup) (nullItems : Bool) (i : Nat) (x : Json) :
    ((itemIssues v nullItems i x).map (·.path)).Nodup ∧
      ∀ issue ∈ itemIssues v nullItems i x, ∃ rest, issue.path = .index i :: rest := by
  unfold itemIssues
  split
  · cases nullItems <;> simp
  · refine ⟨nodup_paths_under (h x) (.index i) fun _ => by simp, ?_⟩
    exact List.forall_mem_map.2 fun issue _ => ⟨_, by rw [Issue.path_under]⟩

/-- No two issues lie at the same place. -/
theorem ForArguments.nodup_paths {v : Validator} (hv : v.ForArguments) (x : Json) :
    ((v.report x).issues.map (·.path)).Nodup := by
  refine hv.report_induction (motive := fun v x => ((v.report x).issues.map (·.path)).Nodup)
    ?whole ?list ?object x
  case whole =>
    intro v x h
    obtain h | ⟨cls, reason, -, -, h⟩ := h <;> simp [h]
  case list =>
    intro v nullItems items ih
    have hplaces := nodup_paths_itemIssues ih nullItems
    have hsteps : (items.zipIdx.map fun e => Segment.index (.ofNat e.2)).Nodup := by
      have hrange : ((List.range' 0 items.length).map fun i => Segment.index (.ofNat i)).Nodup :=
        List.Nodup.map (fun i j h => Int.ofNat.inj (Segment.index.inj h)) List.nodup_range'
      rwa [← List.zipIdx_map_snd, List.map_map] at hrange
    rw [issues_list]
    exact nodup_paths_flatMap hsteps (fun e _ => (hplaces e.2 e.1).1) fun e _ => (hplaces e.2 e.1).2
  case object =>
    intro typeName fields entries hn ih
    have hplaces := fun m hm => nodup_paths_fieldIssues (ih m hm) (entries.lookup m.name)
    have hsteps : (fields.map fun m => Segment.key m.name).Nodup := by
      have hkeys := hn.map (f := Segment.key) fun _ _ h => Segment.key.inj h
      rwa [List.map_map] at hkeys
    rw [issues_object hn]
    exact nodup_paths_flatMap hsteps (fun m hm => (hplaces m hm).1) fun m hm => (hplaces m hm).2

/-! ## Places that are there -/

theorem points_of_mem_itemIssues {v : Validator} {nullItems : Bool} {items : List Json} {i : Nat}
    {x : Json} (hx : items[i]? = some x) (h : ∀ issue ∈ (v.report x).issues, issue.Points x) :
    ∀ issue ∈ itemIssues v nullItems i x, issue.Points (.arr items) := by
  intro issue hi
  unfold itemIssues at hi
  by_cases hne : x = .null
  · cases nullItems with
    | true => simp [hne] at hi
    | false =>
      obtain rfl : issue = ⟨.invalidListItem, .nullItem, [.index i]⟩ := by simpa [hne] using hi
      exact ⟨[], i, items, rfl, rfl, (List.getElem?_eq_some_iff.1 hx).1⟩
  · rw [if_neg hne] at hi
    obtain ⟨inner, hinner, rfl⟩ := List.mem_map.1 hi
    exact (h inner hinner).atIndex hx hne

theorem points_of_mem_fieldIssues {m : Member Validator} {entries : List (String × Json)}
    (h : ∀ x, ∀ issue ∈ (m.validator.report x).issues, issue.Points x) :
    ∀ issue ∈ fieldIssues m (entries.lookup m.name), issue.Points (.obj entries) := by
  intro issue hi
  cases hx : entries.lookup m.name with
  | none =>
    obtain ⟨-, rfl⟩ : m.optional = false ∧ issue =
        ⟨.missingRequired, .missingField m.name, [.key m.name]⟩ := by
      simpa [hx, fieldIssues] using hi
    exact ⟨[], m.name, entries, rfl, rfl, .inl hx⟩
  | some x =>
    by_cases hne : x = .null
    · subst hne
      obtain ⟨-, rfl⟩ : m.optional = false ∧ issue =
          ⟨.missingRequired, .nullField m.name, [.key m.name]⟩ := by
        simpa [hx, fieldIssues] using hi
      exact ⟨[], m.name, entries, rfl, rfl, .inr hx⟩
    · rw [hx, fieldIssues_some hne] at hi
      obtain ⟨inner, hinner, rfl⟩ := List.mem_map.1 hi
      exact (h x inner hinner).under (by rw [Json.step?_key, hx]) hne

/-- Every issue lies at a place of the value. -/
theorem ForArguments.points {v : Validator} (hv : v.ForArguments) (x : Json) :
    ∀ issue ∈ (v.report x).issues, issue.Points x := by
  refine hv.report_induction (motive := fun v x => ∀ issue ∈ (v.report x).issues, issue.Points x)
    ?whole ?list ?object x
  case whole =>
    intro v x h issue hi
    obtain h | ⟨cls, reason, hm, hl, h⟩ := h
    · simp [h] at hi
    · obtain rfl : issue = ⟨cls, reason, []⟩ := by simpa [h] using hi
      unfold Issue.Points
      split
      · exact absurd ‹_› hm
      · exact absurd ‹_› hl
      · exact ⟨x, rfl, .inr rfl⟩
  case list =>
    intro v nullItems items ih issue hi
    rw [issues_list] at hi
    obtain ⟨⟨x, i⟩, hx, hi⟩ := List.mem_flatMap.1 hi
    rw [List.mk_mem_zipIdx_iff_getElem?] at hx
    exact points_of_mem_itemIssues hx (ih x) issue hi
  case object =>
    intro typeName fields entries hn ih issue hi
    rw [issues_object hn] at hi
    obtain ⟨m, hm, hi⟩ := List.mem_flatMap.1 hi
    exact points_of_mem_fieldIssues (ih m hm) issue hi

/-! ## Missing values -/

/-- A required field that an object does not have, or has as `null`, is found missing wherever the
validator comes to the object. -/
theorem Reaches.exists_missing {v : Validator} {x : Json} {p : Path} {typeName : Option String}
    {fields : List (Member Validator)} {entries : List (String × Json)}
    (h : v.Reaches x p (.object typeName false fields) (.obj entries)) (hv : v.ForArguments)
    {m : Member Validator} (hm : m ∈ fields) (ho : m.optional = false)
    (hx : entries.lookup m.name = none ∨ entries.lookup m.name = some .null) :
    ∃ issue ∈ (v.report x).issues, issue.cls = .missingRequired ∧
      issue.path = p ++ [.key m.name] := by
  generalize hw : Validator.object typeName false fields = w at h
  generalize hy : Json.obj entries = y at h
  induction h with
  | here v x =>
    subst hw hy
    cases hv with
    | object _ hn _ =>
      obtain ⟨reason, hreason⟩ : ∃ reason, fieldIssues m (entries.lookup m.name) =
          [⟨.missingRequired, reason, [.key m.name]⟩] := by
        rcases hx with hx | hx <;> simp [fieldIssues, hx, ho]
      rw [issues_object hn]
      exact ⟨_, List.mem_flatMap.2 ⟨m, hm, by rw [hreason]; exact List.mem_singleton_self _⟩,
        rfl, rfl⟩
  | field hm' hx' hne _ ih =>
    cases hv with
    | object _ hn hfields =>
      obtain ⟨issue, hi, hcls, hpath⟩ := ih (hfields _ hm') hw hy
      refine ⟨_, under_mem_issues_object hn hm' hx' hne hi, hcls, ?_⟩
      rw [Issue.path_under, hpath]
      rfl
  | item hx' hne _ ih =>
    cases hv with
    | list _ hitem =>
      obtain ⟨issue, hi, hcls, hpath⟩ := ih hitem hw hy
      refine ⟨_, atIndex_mem_issues_list hx' hne hi, ?_, ?_⟩
      · simp [Issue.asItem, hcls]
      · rw [Issue.path_under, Issue.path_asItem, hpath]
        rfl

/-- Issues lie at distinct places of the value. Wherever the validator comes to an object, each
required field that is missing there has an issue of its own, and one about a missing value is
reported then. -/
theorem ForArguments.issues_located {v : Validator} (hv : v.ForArguments) (x : Json) :
    ((v.report x).issues.map (·.path)).Nodup ∧
      (∀ issue ∈ (v.report x).issues, issue.Points x) ∧
      ∀ p typeName fields entries,
        v.Reaches x p (.object typeName false fields) (.obj entries) →
        ∀ m ∈ fields, m.optional = false →
          (entries.lookup m.name = none ∨ entries.lookup m.name = some .null) →
          (∃ issue ∈ (v.report x).issues, issue.cls = .missingRequired ∧
            issue.path = p ++ [.key m.name]) ∧
          ∃ issue, v.judge x = .error issue ∧ issue.cls = .missingRequired := by
  refine ⟨hv.nodup_paths x, hv.points x, ?_⟩
  intro p typeName fields entries h m hm ho hx
  obtain ⟨missing, hmissing, hcls, hpath⟩ := h.exists_missing hv hm ho hx
  refine ⟨⟨missing, hmissing, hcls, hpath⟩, ?_⟩
  obtain ⟨issue, hissue⟩ : ∃ issue, Issue.reported? (v.report x).issues = some issue := by
    rw [← Option.ne_none_iff_exists', ne_eq, Issue.reported?_eq_none_iff]
    exact List.ne_nil_of_mem hmissing
  exact ⟨issue, Report.verdict_eq_error_iff.2 hissue,
    (Issue.cls_of_reported? hissue).2 ⟨missing, hmissing, hcls⟩⟩

/-- A search with two wrong identifiers and no state to filter by. -/
def misdirected : Json :=
  .obj [("ids", .arr [.str "a", .null]), ("filter", .obj [("state", .null)])]

/-- The state is found missing, although the identifiers come first. -/
theorem issues_located_misdirected :
    ((searchArguments.report misdirected).issues.map (·.path) =
      [[.key "ids", .index 0], [.key "ids", .index 1], [.key "filter", .key "state"]]) ∧
    (∀ issue ∈ (searchArguments.report misdirected).issues, issue.Points misdirected) ∧
    (∃ issue ∈ (searchArguments.report misdirected).issues, issue.cls = .missingRequired ∧
      issue.path = [.key "filter", .key "state"]) ∧
    ∃ issue, searchArguments.judge misdirected = .error issue ∧ issue.cls = .missingRequired := by
  obtain ⟨-, hpoints, hmissing⟩ := forArguments_searchArguments.issues_located misdirected
  refine ⟨by decide, hpoints, ?_⟩
  exact hmissing [.key "filter"] (some "Filter")
    [⟨"state", false, .literal (.str "OPEN")⟩, ⟨"labels", true, .list .any true⟩] [("state", .null)]
    (.field (m := ⟨"filter", true, .object (some "Filter") false
      [⟨"state", false, .literal (.str "OPEN")⟩, ⟨"labels", true, .list .any true⟩]⟩)
      (by simp) rfl (by simp) (.here _ _))
    ⟨"state", false, .literal (.str "OPEN")⟩ (by simp) rfl (.inr rfl)

end Validator

end OperationTools
