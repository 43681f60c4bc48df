import OperationTools.Proofs.Tool.Render

/-!
# Narrowings in a document

A part is written as a narrowing if its key starts with an upper-case character, whereas a strict
validator takes a key for a narrowing if it is none of the fields of the type. The two agree on a
key exactly if it starts with an upper-case character or is a field, but not both.

## Main results

* `Schema.query_around_iff`: how a part is written, and what its key is taken for
-/

namespace OperationTools

namespace OutputTypes

variable {types : OutputTypes}

/-- What stands in the slots of an object without issues has none. -/
theorem Arises.issues_within {memo : Memo} {v c : Validator} (h : types.Arises memo v)
    {outer : List Slot} {x : Json} (hx : (v.report (Slot.within outer x)).issues = [])
    (hc : v.at? (outer.map (·.key)) = some c) : (c.report x).issues = [] := by
  induction outer generalizing v with
  | nil =>
    cases hc
    exact hx
  | cons slot rest ih =>
    obtain ⟨w, hw, hc⟩ := Option.bind_eq_some_iff.1 hc
    have he : (slot.key, Slot.within rest x) ∈
        slot.before ++ (slot.key, Slot.within rest x) :: slot.after := by simp
    exact ih (h.child hw) (h.issues_child hx he hw) hc

/-- A strict validator finds a field exactly under the names of the fields that it knows. -/
theorem Arises.lookup_fields_eq_none_iff {memo : Memo} {typeName : String}
    {fields fragments : List (String × Validator)}
    (h : types.Arises memo (.strictSelection typeName fields fragments)) {key : String} :
    fields.lookup key = none ↔ key ∉ types.knownNames typeName := by
  obtain ⟨body, part, hb, -, he⟩ := h.exists_node
  rw [node, Validator.strictSelection.injEq] at he
  rw [he.2.1, knownNames_eq hb]
  refine ⟨fun hnone hkey => ?_, lookup_knownFields_eq_none⟩
  obtain ⟨f, hf, rfl⟩ := List.mem_map.1 hkey
  have hne := List.lookup_eq_none_iff.1 hnone _ (List.mem_map_of_mem hf)
  exact bne_iff_ne.1 hne rfl

/-- Parts are asked for under fields and narrowings. -/
theorem lookup_isSome_of_issues {typeName key : String}
    {fields fragments : List (String × Validator)} {entries before after : List (String × Json)}
    (h : ((Validator.strictSelection typeName fields fragments).report
      (.obj (before ++ (key, .obj entries) :: after))).issues = []) :
    (fields.lookup key).isSome ∨ (fragments.lookup key).isSome := by
  obtain ⟨c, hc, hr⟩ :=
    Validator.issues_strictSelection_eq_nil_iff.1 h (key, .obj entries) (by simp)
  rw [Validator.child?] at hc
  split at hc
  · cases hc
    simp [Validator.report, Validator.objectReport, Validator.shallowReport] at hr
  · rw [← Bool.or_eq_true, ← Option.isSome_or, hc, Option.isSome_some]

end OutputTypes

theorem Validator.at?_anySelection {keys : List String} {c : Validator}
    (h : Validator.anySelection.at? keys = some c) : c = .anySelection := by
  cases keys with
  | nil => exact (Option.some.inj h).symm
  | cons => cases h

namespace Schema

/-- A part is written as a narrowing if its key starts with an upper-case character, and else as a
field. The strict validator at its place takes the key for a narrowing if it is none of the fields
that it knows. -/
theorem query_around_iff {schema : Schema} {settings : Settings} {scalars : ScalarTable}
    {memo : Memo} (hm : schema.Fills settings scalars memo) {ops : List Operation} {set : ToolSet}
    (h : (schema.toolsFor settings memo scalars ops).1 = .ok set) {tool : Tool}
    (ht : tool ∈ set.tools) (outer : List Slot) (slot : Slot) {typeName : String}
    {fields fragments : List (String × Validator)}
    (hat : tool.selection.validator.at? (outer.map (·.key)) =
      some (.strictSelection typeName fields fragments)) :
    ∃ before after : String, ∀ (values : Json) (entries : List (String × Json))
      (rendered : Rendered),
      (tool.render values (Slot.within outer (slot.fill (.obj entries)))).1 = .ok rendered →
      (Selection.ofJson (.obj entries)).text ≠ "" →
        (rendered.query = before ++
            Selection.narrowed slot.key (Selection.ofJson (.obj entries)).text ++ after ↔
          Selection.isNarrowing slot.key = true) ∧
        (rendered.query = before ++
            Selection.nested slot.key (Selection.ofJson (.obj entries)).text ++ after ↔
          Selection.isNarrowing slot.key = false) ∧
        (fields.lookup slot.key = none ∧ (fragments.lookup slot.key).isSome ↔
          slot.key ∉ ({ schema, settings } : OutputTypes).knownNames typeName) := by
  obtain ⟨-, hc⟩ := compiled_of_toolsFor hm h ht
  have hany : tool.selection.validator ≠ .anySelection := by
    intro hany
    rw [hany] at hat
    cases Validator.at?_anySelection hat
  obtain ⟨before, after, haround⟩ := tool.operation.exists_around outer slot
  refine ⟨before, after, fun values entries rendered hr hne => ?_⟩
  obtain ⟨all, hall, hwithin⟩ := Selection.exists_within_fill outer slot (.obj entries)
  obtain ⟨-, selected, hsel, hquery⟩ := Tool.render_eq_ok_iff.1 hr
  rw [hwithin] at hsel
  obtain ⟨htakes, rfl⟩ := (hc.acceptSelection_obj_eq_ok_iff hany hall).1 hsel
  have hissues := (Validator.takes_iff.1 htakes).2
  have hq := Tool.query_eq_of_write_obj hquery
  rw [← hwithin] at hissues hq
  rw [haround entries hne] at hq
  refine ⟨?_, ?_, ?_⟩
  · rw [hq, String.append_left_inj, String.append_right_inj, Selection.partsText_eq_narrowed_iff]
  · rw [hq, String.append_left_inj, String.append_right_inj, Selection.partsText_eq_nested_iff]
  · obtain ⟨memo, ha⟩ := hc.arises hany
    have hknown := OutputTypes.lookup_isSome_of_issues (ha.issues_within hissues hat)
    rw [← (ha.at? hat).lookup_fields_eq_none_iff, and_iff_left_iff_imp]
    intro hnone
    simpa [hnone] using hknown

/-- A field that starts with an upper-case character, and a union member that does not. -/
def petOwners : Schema where
  types :=
    [⟨"cat", .object [] [⟨"name", .named "String", [], none⟩]⟩,
      ⟨"Pet", .union ["cat"]⟩,
      ⟨"Owner", .object [] [⟨"Best", .named "cat", [], none⟩, ⟨"pet", .named "Pet", [], none⟩]⟩,
      ⟨"Query", .object [] [⟨"owner", .named "Owner", [], none⟩]⟩,
      ⟨"String", .scalar⟩]
  roots := [(.query, "Query")]

/-- The field `Best` is written as a narrowing, although the validator takes it for a field. -/
theorem query_narrowed_best :
    ¬ ∀ set tool rendered fields fragments, (petOwners.tools {}).1 = .ok set → tool ∈ set.tools →
      tool.selection.validator = .strictSelection "Owner" fields fragments →
      (tool.render (.obj []) (.obj [("Best", .obj [("name", .bool true)])])).1 = .ok rendered →
      ((∃ before after, rendered.query = before ++ Selection.narrowed "Best" "name" ++ after) ↔
        fields.lookup "Best" = none ∧ (fragments.lookup "Best").isSome) := by
  intro h
  have hbest := (h _ _ _ _ _ rfl List.mem_cons_self rfl rfl).1
    ⟨"query owner \x7b owner \x7b ", " \x7d \x7d", by decide +kernel⟩
  have hfield := congrArg Option.isSome hbest.1
  revert hfield
  decide +kernel

/-- The operation of the field `owner`. -/
def ownerOperation : Operation :=
  .ofField {} .query { name := "owner", type := .named "Owner" }

/-- The member `cat` of the union under `pet` is always written as a field. -/
theorem query_nested_cat :
    ∃ set, (petOwners.toolsFor {} {} .standard [ownerOperation]).1 = .ok set ∧
      ∃ tool ∈ set.tools, ∃ before after : String, ∀ values entries rendered,
        (tool.render values (Slot.within [⟨[], "pet", []⟩]
          (Slot.fill ⟨[], "cat", []⟩ (.obj entries)))).1 = .ok rendered →
        (Selection.ofJson (.obj entries)).text ≠ "" →
        rendered.query =
          before ++ Selection.nested "cat" (Selection.ofJson (.obj entries)).text ++ after := by
  have hm : petOwners.Fills {} .standard {} := .empty
  refine ⟨_, rfl, _, List.mem_cons_self, ?_⟩
  obtain ⟨before, after, h⟩ := query_around_iff hm
    (show (petOwners.toolsFor {} {} .standard [ownerOperation]).1 = .ok _ from rfl)
    List.mem_cons_self [⟨[], "pet", []⟩] ⟨[], "cat", []⟩ rfl
  refine ⟨before, after, fun values entries rendered hr hne => ?_⟩
  exact (h values entries rendered hr hne).2.1.2 (by decide +kernel)

end Schema

end OperationTools
