import OperationTools.Proofs.Validator.Place
import OperationTools.Proofs.Validator.Satisfaction

/-!
# Published schemas of arguments

An argument validator accepts a value only if the value satisfies the schema that is published for
it. The converse needs care at one point. A place that is not optional refuses `null` whatever its
validator is, but the schema of the validator that accepts everything has no keyword to say so. Where
no such validator stands at a place that is not optional, the schema admits what is accepted and
nothing else.

## Main definitions

* `Validator.ForArguments`: the validators of arguments
* `Validator.Demands`: a validator inside another one whose place is not optional

## Main results

* `Validator.ForArguments.satisfies_published`: what is accepted and what satisfies the schema
-/

namespace OperationTools

namespace Validator

/-- A validator of arguments. The value of a literal is a text, and no two fields of an object have
the same name. -/
inductive ForArguments : Validator → Prop where
  | any : ForArguments .any
  | string : ForArguments .string
  | integer : ForArguments .integer
  | number : ForArguments .number
  | boolean : ForArguments .boolean
  | literal (s : String) : ForArguments (.literal (.str s))
  | enumeration (values : List String) : ForArguments (.enumeration values)
  | list {item : Validator} (nullItems : Bool) :
      ForArguments item → ForArguments (.list item nullItems)
  | permissive (typeName : Option String) (fields : List (Member Validator)) :
      ForArguments (.object typeName true fields)
  | object (typeName : Option String) {fields : List (Member Validator)} :
      (fields.map (·.name)).Nodup → (∀ m ∈ fields, ForArguments m.validator) →
        ForArguments (.object typeName false fields)

/-- A validator stands inside another one, for the items of a list or for a field of an object, and
its place is not optional. -/
inductive Demands : Validator → Validator → Prop where
  | item (v : Validator) : Demands (.list v false) v
  | field {typeName : Option String} {fields : List (Member Validator)} {m : Member Validator} :
      m ∈ fields → m.optional = false → Demands (.object typeName false fields) m.validator
  | insideItem {v w : Validator} {nullItems : Bool} : Demands v w → Demands (.list v nullItems) w
  | insideField {typeName : Option String} {fields : List (Member Validator)}
      {m : Member Validator} {w : Validator} :
      m ∈ fields → Demands m.validator w → Demands (.object typeName false fields) w

theorem demands_list_iff {v w : Validator} {nullItems : Bool} :
    (list v nullItems).Demands w ↔ nullItems = false ∧ v = w ∨ v.Demands w := by
  constructor
  · intro h
    cases h with
    | item => exact .inl ⟨rfl, rfl⟩
    | insideItem h => exact .inr h
  · rintro (⟨rfl, rfl⟩ | h)
    · exact .item v
    · exact .insideItem h

theorem demands_object_iff {typeName : Option String} {fields : List (Member Validator)}
    {w : Validator} :
    (object typeName false fields).Demands w ↔
      ∃ m ∈ fields, m.optional = false ∧ m.validator = w ∨ m.validator.Demands w := by
  constructor
  · intro h
    cases h with
    | field hm ho => exact ⟨_, hm, .inl ⟨ho, rfl⟩⟩
    | insideField hm h => exact ⟨_, hm, .inr h⟩
  · rintro ⟨m, hm, ⟨ho, rfl⟩ | h⟩
    · exact .field hm ho
    · exact .insideField hm h

/-- The schema of what may stand at a place. -/
def publishedAt (v : Validator) (optional : Bool) : JsonSchema :=
  if optional then v.published.nullable else v.published

section Scalars

variable {x : Json}

theorem accepts_string_iff : string.accepts x = true ↔ "string" ∈ x.typeNames := by
  cases x <;> simp [accepts, report, arrayReport, objectReport, shallowReport, Json.typeNames]

theorem accepts_boolean_iff : boolean.accepts x = true ↔ "boolean" ∈ x.typeNames := by
  cases x <;> simp [accepts, report, arrayReport, objectReport, shallowReport, Json.typeNames]

theorem accepts_number_iff : number.accepts x = true ↔ "number" ∈ x.typeNames := by
  cases x <;> simp [accepts, report, arrayReport, objectReport, shallowReport, Json.typeNames]

/-- An integer is accepted however it is written. -/
theorem accepts_integer_iff : integer.accepts x = true ↔ "integer" ∈ x.typeNames := by
  cases x with
  | float y =>
    cases h : y.toInt? <;> simp [accepts, report, shallowReport, Json.typeNames, h]
  | _ => simp [accepts, report, arrayReport, objectReport, shallowReport, Json.typeNames]

theorem accepts_literal_iff {s : String} : (literal (.str s)).accepts x = true ↔ x = .str s := by
  rw [accepts_iff_issues, ← Json.sameValue_str_iff]
  cases h : x.sameValue (.str s) <;>
    cases x <;> simp_all [report, arrayReport, objectReport, shallowReport]

theorem accepts_enumeration_iff {values : List String} :
    (enumeration values).accepts x = true ↔ ∃ s ∈ values, x = .str s := by
  cases x with
  | str s => by_cases h : s ∈ values <;> simp [accepts, report, shallowReport, h]
  | _ => simp [accepts, report, arrayReport, objectReport, shallowReport]

theorem accepts_permissive_iff {typeName : Option String} {fields : List (Member Validator)} :
    (object typeName true fields).accepts x = true ↔ "object" ∈ x.typeNames := by
  cases x <;> simp [accepts, report, arrayReport, objectReport, shallowReport, Json.typeNames]

end Scalars

/-! ## Places -/

section Places

variable {v : Validator} {optional : Bool} {x : Json}

/-- The schema of a validator admits `null` only if the validator accepts everything. -/
theorem ForArguments.eq_any_of_null (hv : v.ForArguments)
    (hx : Json.null.satisfies v.published.toJson = true) : v = .any := by
  cases hv with
  | any => rfl
  | string | integer | number | boolean | permissive =>
    simp [published, JsonSchema.satisfies_ofType_iff, SchemaType.name, Json.typeNames] at hx
  | literal => simp [published, JsonSchema.satisfies_const_iff] at hx
  | enumeration => simp [published, JsonSchema.satisfies_enumeration_iff] at hx
  | list => simp [published, JsonSchema.satisfies_array_iff] at hx
  | object => simp [published, JsonSchema.satisfies_object_iff] at hx

theorem satisfies_publishedAt_iff :
    x.satisfies (v.publishedAt optional).toJson = true ↔
      optional = true ∧ x = .null ∨ x.satisfies v.published.toJson = true := by
  cases optional <;> simp [publishedAt, JsonSchema.satisfies_nullable_iff]

/-- What is taken at a place satisfies the schema of the place if what the validator accepts does. -/
theorem satisfies_publishedAt_of_takesAt
    (hv : v.accepts x = true → x.satisfies v.published.toJson = true)
    (hx : v.takesAt optional (some x) = true) :
    x.satisfies (v.publishedAt optional).toJson = true := by
  rw [satisfies_publishedAt_iff]
  by_cases hnull : x = .null
  · subst hnull
    exact .inl ⟨hx, rfl⟩
  · rw [takesAt_some hnull] at hx
    exact .inr (hv hx)

/-- What satisfies the schema of a place is taken there if the validator accepts what satisfies its
own schema, unless the place is not optional and the validator accepts everything. -/
theorem ForArguments.takesAt_of_satisfies (hv : v.ForArguments)
    (hany : optional = false → v ≠ .any)
    (haccepts : x.satisfies v.published.toJson = true → v.accepts x = true)
    (hx : x.satisfies (v.publishedAt optional).toJson = true) :
    v.takesAt optional (some x) = true := by
  rw [satisfies_publishedAt_iff] at hx
  by_cases hnull : x = .null
  · subst hnull
    cases optional with
    | true => rfl
    | false =>
      have hadmitted := hx.resolve_left (by simp)
      exact absurd (hv.eq_any_of_null hadmitted) (hany rfl)
  · rw [takesAt_some hnull]
    exact haccepts (hx.resolve_left fun h => hnull h.2)

end Places

/-! ## Lists and objects -/

theorem published_list (item : Validator) (nullItems : Bool) :
    (list item nullItems).published = .array (item.publishedAt nullItems) := by
  cases nullItems <;> rfl

theorem published_object (typeName : Option String) (fields : List (Member Validator)) :
    (object typeName false fields).published =
      .object (fields.map fun m => (m.name, m.validator.publishedAt m.optional))
        ((fields.filter (!·.optional)).map (·.name)) false := by
  simp only [published, memberSchemas_eq_map, publishedAt]

/-- An object satisfies the schema of an object validator if what stands in each field satisfies the
schema of the field and only optional fields are missing. -/
theorem satisfies_published_object_iff {typeName : Option String}
    {fields : List (Member Validator)} {x : Json} :
    x.satisfies (object typeName false fields).published.toJson = true ↔
      ∃ entries, x = .obj entries ∧ ∀ m ∈ fields,
        (entries.lookup m.name = none → m.optional = true) ∧
          ∀ y, entries.lookup m.name = some y →
            y.satisfies (m.validator.publishedAt m.optional).toJson = true := by
  rw [published_object, JsonSchema.satisfies_object_iff]
  apply exists_congr
  intro entries
  simp only [List.forall_mem_map, List.mem_filter, Bool.not_eq_true', and_imp,
    Bool.false_eq_true, false_implies, and_true]
  apply and_congr_right'
  constructor
  · rintro ⟨hschemas, hrequired⟩ m hm
    refine ⟨fun hnone => ?_, hschemas m hm⟩
    by_contra ho
    have hsome := hrequired m hm (by simpa using ho)
    simp [hnone] at hsome
  · intro h
    refine ⟨fun m hm => (h m hm).2, fun m hm ho => ?_⟩
    cases hlookup : entries.lookup m.name with
    | none => simp [(h m hm).1 hlookup] at ho
    | some y => rfl

/-- What is accepted satisfies the published schema. -/
theorem ForArguments.satisfies_of_accepts {v : Validator} (hv : v.ForArguments) {x : Json}
    (hx : v.accepts x = true) : x.satisfies v.published.toJson = true := by
  induction hv generalizing x with
  | any => simp [published]
  | string => exact JsonSchema.satisfies_ofType_iff.2 (accepts_string_iff.1 hx)
  | integer => exact JsonSchema.satisfies_ofType_iff.2 (accepts_integer_iff.1 hx)
  | number => exact JsonSchema.satisfies_ofType_iff.2 (accepts_number_iff.1 hx)
  | boolean => exact JsonSchema.satisfies_ofType_iff.2 (accepts_boolean_iff.1 hx)
  | literal s =>
    exact JsonSchema.satisfies_const_iff.2 (Json.equals_str_iff.2 (accepts_literal_iff.1 hx))
  | enumeration values =>
    exact JsonSchema.satisfies_enumeration_iff.2 (accepts_enumeration_iff.1 hx)
  | permissive => exact JsonSchema.satisfies_ofType_iff.2 (accepts_permissive_iff.1 hx)
  | list nullItems hitem ih =>
    obtain ⟨items, rfl, hitems⟩ := accepts_list_iff.1 hx
    rw [published_list]
    exact JsonSchema.satisfies_array_iff.2
      ⟨items, rfl, fun y hy => satisfies_publishedAt_of_takesAt ih (hitems y hy)⟩
  | object typeName hn hfields ih =>
    obtain ⟨entries, rfl, htaken⟩ := (accepts_object_iff hn).1 hx
    refine satisfies_published_object_iff.2 ⟨entries, rfl, fun m hm => ⟨fun hnone => ?_, ?_⟩⟩
    · simpa [hnone] using htaken m hm
    · intro y hy
      have htakes := htaken m hm
      rw [hy] at htakes
      exact satisfies_publishedAt_of_takesAt (ih m hm) htakes

/-- What satisfies the published schema is accepted, unless everything is accepted at a place that
is not optional. -/
theorem ForArguments.accepts_of_satisfies {v : Validator} (hv : v.ForArguments)
    (hany : ∀ w, v.Demands w → w ≠ .any) {x : Json}
    (hx : x.satisfies v.published.toJson = true) : v.accepts x = true := by
  induction hv generalizing x with
  | any => exact accepts_any x
  | string => exact accepts_string_iff.2 (JsonSchema.satisfies_ofType_iff.1 hx)
  | integer => exact accepts_integer_iff.2 (JsonSchema.satisfies_ofType_iff.1 hx)
  | number => exact accepts_number_iff.2 (JsonSchema.satisfies_ofType_iff.1 hx)
  | boolean => exact accepts_boolean_iff.2 (JsonSchema.satisfies_ofType_iff.1 hx)
  | literal s =>
    exact accepts_literal_iff.2 (Json.equals_str_iff.1 (JsonSchema.satisfies_const_iff.1 hx))
  | enumeration values =>
    exact accepts_enumeration_iff.2 (JsonSchema.satisfies_enumeration_iff.1 hx)
  | permissive => exact accepts_permissive_iff.2 (JsonSchema.satisfies_ofType_iff.1 hx)
  | list nullItems hitem ih =>
    rw [published_list] at hx
    obtain ⟨items, rfl, hitems⟩ := JsonSchema.satisfies_array_iff.1 hx
    refine accepts_list_iff.2 ⟨items, rfl, fun y hy => hitem.takesAt_of_satisfies ?_
      (ih fun w hw => hany w hw.insideItem) (hitems y hy)⟩
    rintro rfl
    exact hany _ (.item _)
  | object typeName hn hfields ih =>
    obtain ⟨entries, rfl, hplaces⟩ := satisfies_published_object_iff.1 hx
    refine (accepts_object_iff hn).2 ⟨entries, rfl, fun m hm => ?_⟩
    cases hlookup : entries.lookup m.name with
    | none => exact (hplaces m hm).1 hlookup
    | some y =>
      exact (hfields m hm).takesAt_of_satisfies (fun ho => hany _ (.field hm ho))
        (ih m hm fun w hw => hany w (.insideField hm hw)) ((hplaces m hm).2 y hlookup)

/-- What an argument validator accepts satisfies its published schema, and where no validator that
accepts everything stands at a place that is not optional, what satisfies the schema is accepted. -/
theorem ForArguments.accepts_satisfies_published {v : Validator} (hv : v.ForArguments) (x : Json) :
    (v.accepts x = true → x.satisfies v.published.toJson = true) ∧
      ((∀ w, v.Demands w → w ≠ .any) →
        x.satisfies v.published.toJson = true → v.accepts x = true) :=
  ⟨hv.satisfies_of_accepts, fun hany hx => hv.accepts_of_satisfies hany hx⟩

/-- Arguments of a search: required numbers, and an optional filter with labels that may be `null`
and may hold anything. -/
def searchArguments : Validator :=
  .object (some "search") false
    [⟨"ids", false, .list .integer false⟩,
      ⟨"filter", true, .object (some "Filter") false
        [⟨"state", false, .literal (.str "OPEN")⟩, ⟨"labels", true, .list .any true⟩]⟩]

theorem forArguments_searchArguments : searchArguments.ForArguments := by
  refine .object _ (by decide) ?_
  simp only [List.forall_mem_cons, List.not_mem_nil, false_implies, implies_true, and_true]
  refine ⟨.list _ .integer, .object _ (by decide) ?_⟩
  simp only [List.forall_mem_cons, List.not_mem_nil, false_implies, implies_true, and_true]
  exact ⟨.literal _, .list _ .any⟩

/-- Anything may stand among the labels only, and they need not be there. -/
theorem ne_any_of_demands_searchArguments (w : Validator) (hw : searchArguments.Demands w) :
    w ≠ .any := by
  rintro rfl
  simp only [searchArguments, demands_object_iff, demands_list_iff, List.exists_mem_cons_iff,
    List.not_mem_nil] at hw
  simp only [reduceCtorEq, Bool.true_eq_false, false_and, and_false, false_or, or_false,
    exists_false] at hw
  rcases hw with hw | hw | hw <;> cases hw

/-- A search with a label that is `null`. -/
def labelled : Json :=
  .obj [("ids", .arr [.int 1]),
    ("filter", .obj [("state", .str "OPEN"), ("labels", .arr [.null, .bool true])])]

theorem satisfies_labelled :
    (labelled.satisfies searchArguments.published.toJson = true ∧
      searchArguments.accepts labelled = true) ∧
    ((Json.obj []).satisfies searchArguments.published.toJson = false ∧
      searchArguments.accepts (.obj []) = false) := by
  have hboth := forArguments_searchArguments.accepts_satisfies_published
  refine ⟨⟨(hboth labelled).1 (by decide), (hboth labelled).2 ne_any_of_demands_searchArguments
    (by decide)⟩, ?_, ?_⟩
  · decide
  · by_contra haccepts
    have hsatisfied := (hboth (.obj [])).1 (by simpa using haccepts)
    exact absurd hsatisfied (by decide)

end Validator

end OperationTools
