import OperationTools.Proofs.Validator.Satisfaction
import OperationTools.Validator.Policy

/-!
# Published schemas of selections

The schema of a strict selection is a closed object: it names every key that the validator knows,
with the schema of what stands under the key. A field that is called `__typename` takes the place of
the type name in the schema, though not in the validator. What is looked up lazily is an object to
the schema, and a leaf is a truth value. So there are exclusions that a schema has no place for:
`null`, and a truth value where parts are selected.

## Main definitions

* `Validator.property?`: the validator whose schema is published for a key
* `Validator.Unpublished`: exclusions that the published schema has no place for

## Main results

* `Validator.satisfies_strictSelection_iff`: what satisfies the schema of a strict selection
* `SelectionPolicy.satisfies_published`: the default in a schema restrains nothing
-/

namespace OperationTools

namespace Validator

/-- The validator whose schema is published for a key of a strict selection. -/
def property? : Validator → String → Option Validator
  | .strictSelection _ fields fragments, key =>
    (fields.lookup key).or (if key = typenameKey then some .leaf else fragments.lookup key)
  | _, _ => none

/-- An exclusion stands in a selection that the published schema has no place for: `null`, or a truth
value where parts are selected. Only what stands under the keys of strict selections is looked at. -/
inductive Unpublished : Validator → Json → Prop where
  | null (v : Validator) : Unpublished v .null
  | whole {v : Validator} (b : Bool) (hv : v ≠ .leaf) : Unpublished v (.bool b)
  | under {v c : Validator} {entries : List (String × Json)} {key : String} {x : Json}
      (hx : entries.lookup key = some x) (hc : v.property? key = some c) :
      Unpublished c x → Unpublished v (.obj entries)

theorem not_unpublished_leaf (b : Bool) : ¬ leaf.Unpublished (.bool b) := by
  intro h
  cases h with
  | whole _ hv => exact hv rfl

theorem unpublished_obj_iff {v : Validator} {entries : List (String × Json)} :
    v.Unpublished (.obj entries) ↔ ∃ key x c, entries.lookup key = some x ∧
      v.property? key = some c ∧ c.Unpublished x := by
  constructor
  · intro h
    cases h with
    | under hx hc h => exact ⟨_, _, _, hx, hc, h⟩
  · rintro ⟨key, x, c, hx, hc, h⟩
    exact .under hx hc h

theorem property?_eq_child? {typeName : String} {fields fragments : List (String × Validator)}
    {key : String} (h : key ≠ typenameKey) :
    (strictSelection typeName fields fragments).property? key =
      (strictSelection typeName fields fragments).child? key := by
  simp only [property?, child?, if_neg h]

/-! ## Strict selections -/

section Strict

variable {typeName : String} {fields fragments : List (String × Validator)}

variable (fields fragments) in
/-- The properties of a strict selection: those of its fields, that of the type name, and those of
its fragments. -/
def properties : List (String × JsonSchema) :=
  (fragments.map fun e => (e.1, e.2.published)).foldl (fun acc e => Entries.insertNew e.1 e.2 acc)
    ((fields.map fun e => (e.1, e.2.published)).foldl (fun acc e => Entries.insert e.1 e.2 acc)
      [(typenameKey, .ofType .boolean)])

theorem published_strictSelection :
    (strictSelection typeName fields fragments).published =
      .object (properties fields fragments) [] true := by
  simp only [published, childSchemas_eq_map, properties]

theorem nodup_properties : ((properties fields fragments).map (·.1)).Nodup :=
  Entries.nodup_keys_foldl_insertNew _ (Entries.nodup_keys_foldl_insert _ _ (by simp))

/-- Under a key stands the schema of the validator that is published for it. -/
theorem lookup_properties (hd : (fields.map (·.1)).Nodup) (key : String) :
    (properties fields fragments).lookup key =
      ((strictSelection typeName fields fragments).property? key).map published := by
  have hkeys : (fields.map fun e => (e.1, e.2.published)).map (·.1) = fields.map (·.1) := by
    rw [List.map_map]
    rfl
  rw [properties, Entries.lookup_foldl_insertNew, Entries.lookup_foldl_insert (hkeys ▸ hd),
    Entries.lookup_map_values, Entries.lookup_map_values, property?, Option.map_or, Option.or_assoc]
  congr 1
  by_cases h : key = typenameKey
  · simp [h, published]
  · simp [h, List.lookup_cons, beq_eq_false_iff_ne.2 h]

/-- A selection satisfies the schema of a strict one if every key has a schema that is satisfied by
what stands under the key. -/
theorem satisfies_strictSelection_iff (hd : (fields.map (·.1)).Nodup)
    {entries : List (String × Json)} :
    (Json.obj entries).satisfies (strictSelection typeName fields fragments).published.toJson =
        true ↔
      ∀ key x, entries.lookup key = some x →
        ∃ c, (strictSelection typeName fields fragments).property? key = some c ∧
          x.satisfies c.published.toJson = true := by
  have hlookup := @lookup_properties typeName fields fragments hd
  rw [published_strictSelection, JsonSchema.satisfies_object_iff]
  constructor
  · rintro ⟨_, ⟨⟩, hschemas, -, hclosed⟩ key x hx
    obtain ⟨⟨_, schema⟩, hmem, rfl⟩ :=
      List.mem_map.1 (hclosed rfl _ (Entries.mem_of_lookup hx))
    have hschema := Entries.lookup_of_mem nodup_properties hmem
    rw [hlookup] at hschema
    obtain ⟨c, hc, rfl⟩ := Option.map_eq_some_iff.1 hschema
    exact ⟨c, hc, hschemas _ hmem x hx⟩
  · intro h
    refine ⟨entries, rfl, ?_, by simp, fun _ e he => ?_⟩
    · rintro ⟨key, schema⟩ hmem x hx
      obtain ⟨c, hc, hsatisfied⟩ := h key x hx
      have hschema := Entries.lookup_of_mem nodup_properties hmem
      rw [hlookup, hc] at hschema
      cases hschema
      exact hsatisfied
    · obtain ⟨x, hx⟩ := Option.isSome_iff_exists.1
        (List.lookup_isSome_iff.2 ⟨e, he, beq_self_eq_true e.1⟩)
      obtain ⟨c, hc, -⟩ := h e.1 x hx
      have hschema : (properties fields fragments).lookup e.1 = some c.published := by
        rw [hlookup, hc, Option.map_some]
      exact List.mem_map_of_mem (Entries.mem_of_lookup hschema)

end Strict

end Validator

/-! ## Defaults -/

theorem JsonSchema.obj_entries_toJson (schema : JsonSchema) :
    Json.obj schema.toJson.entries = schema.toJson := by
  cases schema <;> simp [toJson]

/-- A default restrains nothing. -/
theorem Json.satisfiesAll_insert_default (x value : Json) (properties : List String)
    (keywords : List (String × Json)) :
    satisfiesAll x properties (Entries.insert "default" value keywords) =
      satisfiesAll x properties keywords := by
  induction keywords with
  | nil => simp [Entries.insert, satisfiesAll, satisfiesKeyword]
  | cons keyword rest ih =>
    obtain ⟨name, operand⟩ := keyword
    rw [Entries.insert]
    by_cases h : name = "default"
    · subst h
      simp [satisfiesAll, satisfiesKeyword]
    · simp [h, satisfiesAll, ih]

/-- The published schema of a policy says what that of its validator says. -/
theorem SelectionPolicy.satisfies_published (policy : SelectionPolicy) (x : Json) :
    x.satisfies policy.published = x.satisfies policy.validator.published.toJson := by
  calc x.satisfies policy.published
    _ = x.satisfies (.obj policy.validator.published.toJson.entries) := by
      rw [published, Json.satisfies, Json.satisfies, Json.satisfiesAll_insert_default,
        Entries.lookup_insert_of_ne (by decide)]
    _ = x.satisfies policy.validator.published.toJson := by
      rw [JsonSchema.obj_entries_toJson]

/-- The fallback is published as the default. -/
theorem SelectionPolicy.lookup_default (policy : SelectionPolicy) :
    policy.published.entries.lookup "default" = some policy.fallback :=
  Entries.lookup_insert_self ..

end OperationTools
