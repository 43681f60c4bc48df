import OperationTools.Proofs.Validator.Cleaning
import OperationTools.Proofs.Validator.IssuePaths

/-!
# The order of keys in arguments

Arguments are checked in the order of the validator, never in that of the caller. Values that differ
only in the order of keys, at whatever depth, are accepted together or refused together: what is
made of them differs again only in the order of keys, and where they are refused the reported issues
lie at the same place and have the same class. Their reasons may differ, since a reason can show a
value as it was written.

## Main definitions

* `Json.Reorders`: two values differ only in the order of keys
* `Issue.outline`: the class and the place of an issue

## Main results

* `Validator.ForArguments.outlines_eq`: the same is found wrong, in the same order
* `Validator.ForArguments.judge_reorders`: both values are accepted, or both are refused alike
-/

namespace OperationTools

namespace Json

/-- Two values differ only in the order of keys. Objects have the same keys, each of them once, and
arrays are compared item by item. -/
inductive Reorders : Json → Json → Prop where
  | refl (x : Json) : Reorders x x
  | arr {items others : List Json} (hlength : items.length = others.length)
      (h : ∀ (i : Nat) (x y : Json), items[i]? = some x → others[i]? = some y → Reorders x y) :
      Reorders (.arr items) (.arr others)
  | obj {entries others : List (String × Json)} (hn : (entries.map (·.1)).Nodup)
      (hkeys : (entries.map (·.1)).Perm (others.map (·.1)))
      (h : ∀ key x y, entries.lookup key = some x → others.lookup key = some y → Reorders x y) :
      Reorders (.obj entries) (.obj others)

namespace Reorders

variable {x y : Json} {a b : Option Json}

theorem eq_null_iff (h : x.Reorders y) : x = .null ↔ y = .null := by
  cases h with
  | refl => rfl
  | arr | obj => simp

/-- What may be missing on either side is missing on both, or is reordered. -/
theorem rel_of_isSome (hs : a.isSome = b.isSome)
    (h : ∀ x y, a = some x → b = some y → x.Reorders y) : Option.Rel Reorders a b := by
  cases a <;> cases b
  · exact .none
  · cases hs
  · cases hs
  · exact .some (h _ _ rfl rfl)

theorem rel_refl (a : Option Json) : Option.Rel Reorders a a := by
  cases a
  · exact .none
  · exact .some (.refl _)

theorem isSome_eq (h : Option.Rel Reorders a b) : a.isSome = b.isSome := by
  cases h <;> rfl

theorem exists_some (h : Option.Rel Reorders a b) (hx : a = some x) :
    ∃ y, b = some y ∧ x.Reorders y := by
  subst hx
  cases h with
  | some h => exact ⟨_, rfl, h⟩

/-- What is reordered as an array is one of as many items, each of them reordered. -/
theorem exists_items {items : List Json} (h : (Json.arr items).Reorders y) :
    ∃ others, y = .arr others ∧ items.length = others.length ∧
      ∀ i : Nat, Option.Rel Reorders items[i]? others[i]? := by
  cases h with
  | refl => exact ⟨items, rfl, rfl, fun i => rel_refl _⟩
  | @arr _ others hlength h =>
    refine ⟨others, rfl, hlength, fun i => rel_of_isSome ?_ (h i)⟩
    rw [Bool.eq_iff_iff, isSome_getElem?, isSome_getElem?, hlength]

/-- What is reordered as an object has the same keys, and what stands under them is reordered. -/
theorem exists_entries {entries : List (String × Json)} (h : (Json.obj entries).Reorders y) :
    ∃ others, y = .obj others ∧
      ∀ key, Option.Rel Reorders (entries.lookup key) (others.lookup key) := by
  cases h with
  | refl => exact ⟨entries, rfl, fun key => rel_refl _⟩
  | @obj _ others _ hkeys h =>
    refine ⟨others, rfl, fun key => rel_of_isSome ?_ (h key)⟩
    rw [Bool.eq_iff_iff, Entries.isSome_lookup_iff, Entries.isSome_lookup_iff]
    exact hkeys.mem_iff

theorem singleton (h : x.Reorders y) : (Json.arr [x]).Reorders (.arr [y]) := by
  refine .arr rfl fun i x' y' hx hy => ?_
  cases i with
  | zero =>
    obtain rfl := Option.some.inj hx
    obtain rfl := Option.some.inj hy
    exact h
  | succ i => cases hx

/-- Two entries may be given in either order. -/
theorem swap {key other : String} {x' y' : Json} (hne : key ≠ other) (hx : x.Reorders x')
    (hy : y.Reorders y') :
    (Json.obj [(key, x), (other, y)]).Reorders (.obj [(other, y'), (key, x')]) := by
  refine .obj (by simpa using hne) (.swap _ _ _) fun k a b ha hb => ?_
  rw [List.lookup_cons, List.lookup_cons, List.lookup_nil] at ha hb
  by_cases hk : k = key
  · subst hk
    simp [beq_eq_false_iff_ne.2 hne] at ha hb
    rwa [← ha, ← hb]
  · by_cases ho : k = other
    · subst ho
      simp [beq_eq_false_iff_ne.2 hk] at ha hb
      rwa [← ha, ← hb]
    · simp [beq_eq_false_iff_ne.2 hk, beq_eq_false_iff_ne.2 ho] at ha

end Reorders

end Json

/-! ## Outlines of issues -/

namespace Issue

/-- The class of an issue and its place. -/
def outline (issue : Issue) : IssueClass × Path := (issue.cls, issue.path)

theorem outline_asItem (issue : Issue) :
    issue.asItem.outline = if issue.outline = (.typeMismatch, []) then (.invalidListItem, [])
      else issue.outline := by
  unfold asItem outline
  by_cases hi : issue.cls = .typeMismatch ∧ issue.path = []
  · rw [if_pos hi, if_pos (Prod.ext hi.1 hi.2)]
    exact Prod.ext rfl hi.2
  · rw [if_neg hi, if_neg fun he => hi (Prod.mk.inj he)]

variable {issues others : List Issue}

theorem map_outline_under (h : issues.map outline = others.map outline) (s : Segment) :
    (issues.map (·.under s)).map outline = (others.map (·.under s)).map outline := by
  have hunder : outline ∘ (fun issue => issue.under s) =
      (fun place : IssueClass × Path => (place.1, s :: place.2)) ∘ outline := rfl
  rw [List.map_map, List.map_map, hunder, ← List.map_map, h, List.map_map]

theorem map_outline_asItem (h : issues.map outline = others.map outline) :
    (issues.map asItem).map outline = (others.map asItem).map outline := by
  have hitem : outline ∘ asItem = (fun place : IssueClass × Path =>
      if place = (.typeMismatch, []) then (.invalidListItem, []) else place) ∘ outline :=
    funext outline_asItem
  rw [List.map_map, List.map_map, hitem, ← List.map_map, h, List.map_map]

/-- Which issue is reported depends on the outlines alone. -/
theorem map_outline_reported? (h : issues.map outline = others.map outline) :
    (reported? issues).map outline = (reported? others).map outline := by
  have houtlines : ∀ issues : List Issue, (reported? issues).map outline =
      ((issues.map outline).find? (·.1 = .missingRequired)).or (issues.map outline).head? := by
    intro issues
    rw [reported?, Option.map_or, List.find?_map, List.head?_map]
    rfl
  rw [houtlines, houtlines, h]

end Issue

namespace Validator

open Json (Reorders)

section Outlines

variable {v : Validator} {x y : Json}

/-- The outlines of what is found wrong with a value. -/
def outlines (v : Validator) (x : Json) : List (IssueClass × Path) :=
  (v.report x).issues.map Issue.outline

theorem accepts_iff_outlines : v.accepts x = true ↔ v.outlines x = [] := by
  rw [accepts_iff_issues, outlines, List.map_eq_nil_iff]

/-- The validator finds the same wrong with both values. -/
theorem outlines_itemIssues (hv : ∀ {x y}, x.Reorders y → v.outlines x = v.outlines y)
    (nullItems : Bool) (i : Nat) (h : x.Reorders y) :
    (itemIssues v nullItems i x).map Issue.outline =
      (itemIssues v nullItems i y).map Issue.outline := by
  unfold itemIssues
  by_cases hx : x = .null
  · rw [if_pos hx, if_pos (h.eq_null_iff.1 hx)]
  · rw [if_neg hx, if_neg fun hy => hx (h.eq_null_iff.2 hy)]
    have hitems := Issue.map_outline_under (Issue.map_outline_asItem (hv h)) (.index i)
    simpa only [List.map_map, Function.comp_def] using hitems

theorem outlines_fieldIssues {m : Member Validator}
    (hv : ∀ {x y}, x.Reorders y → m.validator.outlines x = m.validator.outlines y)
    {x? y? : Option Json} (h : Option.Rel Reorders x? y?) :
    (fieldIssues m x?).map Issue.outline = (fieldIssues m y?).map Issue.outline := by
  cases h with
  | none => rfl
  | @some x y h =>
    by_cases hx : x = .null
    · obtain rfl := h.eq_null_iff.1 hx
      rw [hx]
    · rw [fieldIssues_some hx, fieldIssues_some fun hy => hx (h.eq_null_iff.2 hy)]
      exact Issue.map_outline_under (hv h) _

/-- Whatever the order of keys is, the same is found wrong in the same order. -/
theorem ForArguments.outlines_eq (hv : v.ForArguments) (h : x.Reorders y) :
    v.outlines x = v.outlines y := by
  induction hv generalizing x y with
  | any | string | integer | number | boolean | enumeration | permissive => cases h <;> rfl
  | literal s =>
    cases h with
    | refl => rfl
    | arr | obj =>
      simp [outlines, report, arrayReport, objectReport, shallowReport, Json.sameValue,
        Json.sameScalar, Json.integer?, Issue.outline]
  | @list v nullItems hitem ih =>
    cases x with
    | arr items =>
      obtain ⟨others, rfl, hlength, hitems⟩ := h.exists_items
      unfold outlines
      rw [issues_list, issues_list, List.map_flatMap, List.map_flatMap, List.flatMap_def,
        List.flatMap_def]
      refine congrArg List.flatten (List.ext_getElem (by simp [hlength]) fun i hi hi' => ?_)
      simp only [List.getElem_map, List.getElem_zipIdx, Nat.zero_add]
      simp only [List.length_map, List.length_zipIdx] at hi hi'
      have hrel := hitems i
      rw [List.getElem?_eq_getElem hi, List.getElem?_eq_getElem hi'] at hrel
      cases hrel with
      | some h => exact outlines_itemIssues ih nullItems i h
    | _ => cases h <;> rfl
  | @object typeName fields hn hfields ih =>
    cases x with
    | obj entries =>
      obtain ⟨others, rfl, hentries⟩ := h.exists_entries
      unfold outlines
      rw [issues_object hn, issues_object hn, List.map_flatMap, List.map_flatMap]
      exact List.flatMap_congr fun m hm => outlines_fieldIssues (ih m hm) (hentries m.name)
    | _ => cases h <;> rfl

theorem ForArguments.accepts_iff_of_reorders (hv : v.ForArguments) (h : x.Reorders y) :
    v.accepts x = true ↔ v.accepts y = true := by
  rw [accepts_iff_outlines, accepts_iff_outlines, hv.outlines_eq h]

end Outlines

/-! ## What is made of reordered values -/

section Values

variable {v : Validator} {x y : Json}

theorem reorders_valueAt (hv : x ≠ .null → (v.report x).value.Reorders (v.report y).value)
    (h : x.Reorders y) : (v.valueAt x).Reorders (v.valueAt y) := by
  by_cases hx : x = .null
  · rw [hx, h.eq_null_iff.1 hx]
    exact .refl _
  · rw [valueAt_of_ne hx, valueAt_of_ne fun hy => hx (h.eq_null_iff.2 hy)]
    exact hv hx

theorem ForArguments.reorders_of_leavesAll (hv : v.ForArguments) (hl : v.leavesAll = true)
    (h : x.Reorders y) : (v.report x).value.Reorders (v.report y).value := by
  rwa [hv.value_of_leavesAll hl, hv.value_of_leavesAll hl]

section Objects

variable {typeName : Option String} {fields : List (Member Validator)}
  {entries others : List (String × Json)}

/-- What is kept of an accepted object: the fields that are there, in the order of the validator,
and what is made of their values. -/
theorem exists_kept (hn : (fields.map (·.name)).Nodup)
    (ha : (object typeName false fields).accepts (.obj entries) = true) :
    ∃ kept, ((object typeName false fields).report (.obj entries)).value = .obj kept ∧
      kept.map (·.1) =
        (fields.map (·.name)).filter (fun name => (entries.lookup name).isSome) ∧
      ∀ m ∈ fields, kept.lookup m.name = (entries.lookup m.name).map m.validator.valueAt := by
  refine ⟨_, value_object hn ha, ?_, fun m hm => ?_⟩
  · rw [← keys_value_object hn ha, value_object hn ha, Json.entries_obj]
  · rw [← lookup_value_object hn ha hm, value_object hn ha, Json.entries_obj]

/-- The fields that are there are the same ones in both objects. -/
theorem filter_isSome_congr
    (h : ∀ key, Option.Rel Reorders (entries.lookup key) (others.lookup key))
    (names : List String) :
    names.filter (fun name => (entries.lookup name).isSome) =
      names.filter (fun name => (others.lookup name).isSome) :=
  List.filter_congr fun name _ => Reorders.isSome_eq (h name)

end Objects

/-- What is made of values that differ only in the order of keys differs in nothing else. -/
theorem ForArguments.reorders_value (hv : v.ForArguments) (h : x.Reorders y)
    (ha : v.accepts x = true) : (v.report x).value.Reorders (v.report y).value := by
  have hb := (hv.accepts_iff_of_reorders h).1 ha
  induction hv generalizing x y with
  | any | string | number | boolean | literal | enumeration | permissive =>
    exact ForArguments.reorders_of_leavesAll (by constructor) rfl h
  | integer =>
    obtain ⟨n, -, rfl | ⟨a, rfl, -⟩⟩ := exists_value_integer ha
    all_goals
      cases h
      exact .refl _
  | @list v nullItems hitem ih =>
    obtain ⟨items, rfl, -⟩ := accepts_list_iff.1 ha
    obtain ⟨others, rfl, hlength, hitems⟩ := h.exists_items
    rw [value_list, value_list]
    refine .arr (by simpa using hlength) fun i r s hr hs => ?_
    rw [List.getElem?_map, Option.map_eq_some_iff] at hr hs
    obtain ⟨x, hx, rfl⟩ := hr
    obtain ⟨y, hy, rfl⟩ := hs
    obtain ⟨_, hy', h⟩ := Reorders.exists_some (hitems i) hx
    obtain rfl := Option.some.inj (hy.symm.trans hy')
    refine reorders_valueAt (fun hne => ?_) h
    exact ih h (accepts_item ha hx hne) (accepts_item hb hy fun hy => hne (h.eq_null_iff.2 hy))
  | @object typeName fields hn hfields ih =>
    obtain ⟨entries, rfl, -⟩ := (accepts_object_iff hn).1 ha
    obtain ⟨others, rfl, hentries⟩ := h.exists_entries
    obtain ⟨kept, hvalue, hkeys, hlookup⟩ := exists_kept hn ha
    obtain ⟨kept', hvalue', hkeys', hlookup'⟩ := exists_kept hn hb
    have hsame : kept.map (·.1) = kept'.map (·.1) := by
      rw [hkeys, hkeys', filter_isSome_congr hentries]
    rw [hvalue, hvalue']
    refine .obj (hkeys ▸ hn.filter _) (.of_eq hsame) fun key r s hr hs => ?_
    have hkey : key ∈ kept.map (·.1) := List.mem_map_of_mem (Entries.mem_of_lookup hr)
    rw [hkeys, List.mem_filter] at hkey
    obtain ⟨m, hm, rfl⟩ := List.mem_map.1 hkey.1
    rw [hlookup m hm] at hr
    rw [hlookup' m hm] at hs
    obtain ⟨x, hx, rfl⟩ := Option.map_eq_some_iff.1 hr
    obtain ⟨y, hy, rfl⟩ := Option.map_eq_some_iff.1 hs
    obtain ⟨_, hy', h⟩ := Reorders.exists_some (hentries m.name) hx
    obtain rfl := Option.some.inj (hy.symm.trans hy')
    refine reorders_valueAt (fun hne => ?_) h
    exact ih m hm h (accepts_field hn ha hm hx hne)
      (accepts_field hn hb hm hy fun hy => hne (h.eq_null_iff.2 hy))

/-! ## Places in reordered values -/

/-- The validator comes to the same places in both values, and what it comes to is reordered. -/
theorem Reaches.reorders {w : Validator} {p : Path} {z : Json} (hr : v.Reaches x p w z)
    (h : x.Reorders y) : ∃ z', v.Reaches y p w z' ∧ z.Reorders z' := by
  induction hr generalizing y with
  | here v x => exact ⟨y, .here v y, h⟩
  | field hm hx hne _ ih =>
    obtain ⟨others, rfl, hentries⟩ := h.exists_entries
    obtain ⟨y, hy, h⟩ := Reorders.exists_some (hentries _) hx
    obtain ⟨z', hz', hreorders⟩ := ih h
    exact ⟨z', .field hm hy (fun hnull => hne (h.eq_null_iff.2 hnull)) hz', hreorders⟩
  | item hx hne _ ih =>
    obtain ⟨others, rfl, -, hitems⟩ := h.exists_items
    obtain ⟨y, hy, h⟩ := Reorders.exists_some (hitems _) hx
    obtain ⟨z', hz', hreorders⟩ := ih h
    exact ⟨z', .item hy (fun hnull => hne (h.eq_null_iff.2 hnull)) hz', hreorders⟩

/-- Wherever an object with known fields stands, what is kept of it has the same keys in the same
order. -/
theorem Reaches.keys_eq {p : Path} {typeName : Option String} {fields : List (Member Validator)}
    {entries : List (String × Json)}
    (hr : v.Reaches x p (.object typeName false fields) (.obj entries)) (hv : v.ForArguments)
    (h : x.Reorders y) (ha : v.accepts x = true) :
    ∃ kept kept', (v.report x).value.at? p = some (.obj kept) ∧
      (v.report y).value.at? p = some (.obj kept') ∧ kept.map (·.1) = kept'.map (·.1) := by
  obtain ⟨z, hr', hz⟩ := hr.reorders h
  obtain ⟨others, rfl, hentries⟩ := hz.exists_entries
  obtain ⟨_, hat, kept, rfl, hkeys, -⟩ := hr.cleans hv ha
  obtain ⟨_, hat', kept', rfl, hkeys', -⟩ := hr'.cleans hv ((hv.accepts_iff_of_reorders h).1 ha)
  exact ⟨kept, kept', hat, hat', by rw [hkeys, hkeys', filter_isSome_congr hentries]⟩

/-- The verdict on arguments does not depend on the order of keys. Either both values are accepted:
what is made of them is the same up to the order of keys, and in one order wherever an object with
known fields stands. Or both are refused, with an issue of one class at one place. -/
theorem ForArguments.judge_reorders (hv : v.ForArguments) (h : x.Reorders y) :
    (∃ r s, v.judge x = .ok r ∧ v.judge y = .ok s ∧ r.Reorders s ∧
      ∀ p typeName fields entries,
        v.Reaches x p (.object typeName false fields) (.obj entries) →
        ∃ kept kept', r.at? p = some (.obj kept) ∧ s.at? p = some (.obj kept') ∧
          kept.map (·.1) = kept'.map (·.1)) ∨
    ∃ i j, v.judge x = .error i ∧ v.judge y = .error j ∧ i.cls = j.cls ∧ i.path = j.path := by
  cases hx : v.judge x with
  | ok r =>
    obtain ⟨ha, rfl⟩ := judge_eq_ok_iff.1 hx
    refine .inl ⟨_, _, rfl, judge_eq_ok_iff.2 ⟨(hv.accepts_iff_of_reorders h).1 ha, rfl⟩,
      hv.reorders_value h ha, fun p typeName fields entries hr => hr.keys_eq hv h ha⟩
  | error i =>
    have hi := Report.verdict_eq_error_iff.1 hx
    have houtline := Issue.map_outline_reported? (hv.outlines_eq h)
    rw [hi, Option.map_some, eq_comm, Option.map_eq_some_iff] at houtline
    obtain ⟨j, hj, hplace⟩ := houtline
    obtain ⟨hcls, hpath⟩ := Prod.mk.inj hplace
    exact .inr ⟨i, j, rfl, Report.verdict_eq_error_iff.2 hj, hcls.symm, hpath.symm⟩

end Values

/-- A search for open issues with a label, given in the order of the arguments. -/
def labelledSearch : Json :=
  .obj [("ids", .arr [.int 2]),
    ("filter", .obj [("state", .str "OPEN"),
      ("labels", .arr [.obj [("a", .int 1), ("b", .null)]])])]

/-- The same search with all keys turned around. -/
def turnedSearch : Json :=
  .obj [("filter",
      .obj [("labels", .arr [.obj [("b", .null), ("a", .int 1)]]), ("state", .str "OPEN")]),
    ("ids", .arr [.int 2])]

theorem reorders_turnedSearch : labelledSearch.Reorders turnedSearch :=
  .swap (by decide) (.refl _) (.swap (by decide) (.refl _)
    (.singleton (.swap (by decide) (.refl _) (.refl _))))

/-- A search that is wrong in both arguments. -/
def wrongSearch : Json := .obj [("ids", .arr [.null]), ("filter", .int 0)]

/-- The same search with the filter first. -/
def turnedWrongSearch : Json := .obj [("filter", .int 0), ("ids", .arr [.null])]

theorem reorders_turnedWrongSearch : wrongSearch.Reorders turnedWrongSearch :=
  .swap (by decide) (.refl _) (.refl _)

/-- The turned search is brought into the order of the arguments, up to its label. The wrong one is
refused for its identifiers, although the filter comes first. -/
theorem judge_reorders_search : searchArguments.ForArguments ∧
    (labelledSearch.Reorders turnedSearch ∧
      ∃ s, searchArguments.judge turnedSearch = .ok s ∧ labelledSearch.Reorders s ∧
        ∃ kept, s.at? [.key "filter"] = some (.obj kept) ∧ kept.map (·.1) = ["state", "labels"]) ∧
    wrongSearch.Reorders turnedWrongSearch ∧
      ∃ i, searchArguments.judge turnedWrongSearch = .error i ∧ i.cls = .invalidListItem ∧
        i.path = [.key "ids", .index 0] := by
  have hv := forArguments_searchArguments
  have hlabelled : searchArguments.judge labelledSearch = .ok labelledSearch :=
    judge_eq_ok_iff.2 ⟨by decide, by decide⟩
  have hwrong : searchArguments.judge wrongSearch =
      .error ⟨.invalidListItem, .nullItem, [.key "ids", .index 0]⟩ :=
    Report.verdict_eq_error_iff.2 (by decide)
  refine ⟨hv, ⟨reorders_turnedSearch, ?_⟩, reorders_turnedWrongSearch, ?_⟩
  · obtain ⟨r, s, hr, hs, hreorders, hkeys⟩ | ⟨i, -, hi, -⟩ :=
      hv.judge_reorders reorders_turnedSearch
    · obtain rfl := Except.ok.inj (hlabelled.symm.trans hr)
      obtain ⟨kept, kept', hat, hat', hsame⟩ := hkeys [.key "filter"] _ _ _
        (.field (m := ⟨"filter", true, .object (some "Filter") false
          [⟨"state", false, .literal (.str "OPEN")⟩, ⟨"labels", true, .list .any true⟩]⟩)
          (by simp) rfl (by simp) (.here _ _))
      obtain rfl := Json.obj.inj (Option.some.inj hat)
      exact ⟨s, hs, hreorders, kept', hat', hsame.symm⟩
    · rw [hlabelled] at hi
      cases hi
  · obtain ⟨r, -, hr, -⟩ | ⟨i, j, hi, hj, hcls, hpath⟩ :=
      hv.judge_reorders reorders_turnedWrongSearch
    · rw [hwrong] at hr
      cases hr
    · obtain rfl := Except.error.inj (hwrong.symm.trans hi)
      exact ⟨j, hj, hcls.symm, hpath.symm⟩

end Validator

end OperationTools
