import OperationTools.Proofs.Schema.Lawful

/-!
# Closed schemas

Definitions that name a type without a definition are at fault. So the schema of a text is closed:
fields, arguments, interfaces and members of unions all name types that the schema has, and the
built-in scalars are added where they are named.

## Main definitions

* `TypeBody.typeNames`: the names of types that stand in a type
* `Schema.Closed`: schemas that have every type that they name

## Main results

* `Schema.closed_of_ofText`: the schema of a text is closed
-/

namespace OperationTools

/-- The names of types that stand in a type. -/
def TypeBody.typeNames : TypeBody → List String
  | .object is fs | .interface is fs =>
    is ++ fs.flatMap fun f => f.arguments.map (·.type.name) ++ [f.type.name]
  | .union members => members
  | .input fs => fs.map (·.type.name)
  | .scalar | .enum _ => []

theorem TypeBody.mem_typeNames_of_mem_fields {body : TypeBody} {f : Field} (hf : f ∈ body.fields) :
    f.type.name ∈ body.typeNames := by
  have hflat : ∀ fs : List Field, f ∈ fs → f.type.name ∈ fs.flatMap fun f =>
      f.arguments.map (·.type.name) ++ [f.type.name] := fun fs hf =>
    List.mem_flatMap.2 ⟨f, hf, List.mem_append_right _ List.mem_cons_self⟩
  cases body with
  | object is fs | interface is fs => exact List.mem_append_right _ (hflat fs hf)
  | scalar | union | enum | input => cases hf

namespace TypeParts

/-- A type names what its parts name. -/
theorem typeNames_body (parts : TypeParts) : parts.body.typeNames = parts.typeNames := by
  cases parts with
  | object is fs | interface is fs =>
    simp only [body, body.field, TypeBody.typeNames, typeNames, List.flatMap_map, List.map_map]
    rfl
  | scalar | union | enum | input => simp [body, TypeBody.typeNames, typeNames]

/-- An extension adds its own names only. -/
theorem mem_typeNames_append {a b : TypeParts} {n : String} (h : n ∈ (a.append b).typeNames) :
    n ∈ a.typeNames ∨ n ∈ b.typeNames := by
  cases a <;> cases b <;>
    simp only [append, typeNames, List.flatMap_append, List.map_append, List.mem_append] at h ⊢ <;>
    tauto

theorem mem_typeNames_foldl_append {extensions : List (String × TypeParts)} {parts : TypeParts}
    {n : String} (h : n ∈ (extensions.foldl (fun acc e => acc.append e.2) parts).typeNames) :
    n ∈ parts.typeNames ∨ ∃ e ∈ extensions, n ∈ e.2.typeNames := by
  induction extensions generalizing parts with
  | nil => exact .inl h
  | cons e rest ih =>
    rcases ih h with h | ⟨e', he', hn⟩
    · exact (mem_typeNames_append h).imp id fun hn => ⟨e, List.mem_cons_self, hn⟩
    · exact .inr ⟨e', List.mem_cons_of_mem _ he', hn⟩

end TypeParts

namespace Schema

/-- Every name of a type that stands in a type is that of a type of the schema. -/
def Closed (schema : Schema) : Prop :=
  ∀ t ∈ schema.types, ∀ n ∈ t.body.typeNames, schema.has n = true

theorem has_of_mem {schema : Schema} {t : TypeDefinition} (ht : t ∈ schema.types) :
    schema.has t.name = true := by
  rw [has, body?, Option.isSome_map, List.find?_isSome]
  exact ⟨t, ht, beq_self_eq_true t.name⟩

/-- What merged types name stands in the definitions. -/
theorem mem_typeNames_of_mem_mergedTypes {definitions : List Definition} {p : String × TypeParts}
    (hp : p ∈ mergedTypes definitions) {n : String} (hn : n ∈ p.2.typeNames) :
    n ∈ definitions.flatMap Definition.typeNames := by
  obtain ⟨⟨name, parts⟩, hd, rfl⟩ := List.mem_map.1 hp
  rcases TypeParts.mem_typeNames_foldl_append hn with hn | ⟨e, he, hn⟩
  · obtain ⟨d, hd, hdef⟩ := List.mem_filterMap.1 hd
    match d, hdef with
    | .type false _ _ _, rfl => exact List.mem_flatMap.2 ⟨_, hd, hn⟩
  · obtain ⟨d, hd, hext⟩ := List.mem_filterMap.1 (List.mem_filter.1 he).1
    match d, hext with
    | .type true _ _ _, rfl => exact List.mem_flatMap.2 ⟨_, hd, hn⟩

/-- Without a fault every type that is named is a standard one or defined. -/
theorem known_of_fault? {definitions : List Definition} (h : fault? definitions = none) {n : String}
    (hn : n ∈ definitions.flatMap Definition.typeNames) :
    n ∈ standardTypes ∨ n ∈ (mergedTypes definitions).map (·.1) := by
  have hchecks := List.findSome?_eq_none_iff.1 h
  simp only [List.forall_mem_cons, id] at hchecks
  obtain ⟨-, -, -, -, -, -, -, hknown, -⟩ := hchecks
  have hmem := List.find?_eq_none.1 (Option.map_eq_none_iff.1 hknown) n hn
  rw [mergedTypes, List.map_map, or_iff_not_imp_left]
  simpa using hmem

/-- The assembled types have the built-in scalars that they name, those of the introspection and
those that are defined. -/
theorem has_assemble {definitions : List Definition} {p : String × TypeParts}
    (hp : p ∈ (mergedTypes definitions).filter fun p => !standardTypes.contains p.1) {n : String}
    (hn : n ∈ p.2.typeNames)
    (hknown : n ∈ standardTypes ∨ n ∈ (mergedTypes definitions).map (·.1)) :
    (assemble definitions).has n = true := by
  by_cases hstandard : n ∈ standardTypes
  · rcases List.mem_append.1 hstandard with hscalar | hintrospection
    · refine has_of_mem (t := ⟨n, .scalar⟩) (List.mem_append_right _ (List.mem_map_of_mem ?_))
      have hnamed := List.mem_flatMap_of_mem (f := fun q => q.2.typeNames) hp hn
      simp only [List.mem_filter, List.contains_iff_mem, List.mem_append]
      exact ⟨hscalar, .inl (.inl (.inr hnamed))⟩
    · obtain ⟨t, ht, rfl⟩ := List.mem_map.1 hintrospection
      exact has_of_mem (List.mem_append_left _ (List.mem_append_right _ ht))
  · obtain ⟨q, hq, rfl⟩ := List.mem_map.1 (hknown.resolve_left hstandard)
    have hown : q ∈ (mergedTypes definitions).filter fun p => !standardTypes.contains p.1 :=
      List.mem_filter.2 ⟨hq, by simpa using hstandard⟩
    exact has_of_mem (t := ⟨q.1, q.2.body⟩) (List.mem_append_left _ (List.mem_append_left _
      (List.mem_map_of_mem (f := fun q => (⟨q.1, q.2.body⟩ : TypeDefinition)) hown)))

/-- The types of the introspection name each other and two built-in scalars that are always used. -/
theorem has_assemble_of_introspection (definitions : List Definition) {t : TypeDefinition}
    (ht : t ∈ Introspection.types) {n : String} (hn : n ∈ t.body.typeNames) :
    (assemble definitions).has n = true := by
  have hnames : n = "String" ∨ n = "Boolean" ∨ n ∈ Introspection.types.map (·.name) := by
    revert t n
    decide +kernel
  have hscalar : n = "String" ∨ n = "Boolean" → (assemble definitions).has n = true := by
    intro h
    refine has_of_mem (t := ⟨n, .scalar⟩) (List.mem_append_right _ (List.mem_map_of_mem ?_))
    rcases h with rfl | rfl <;> simp [builtInScalars]
  rcases hnames with h | h | h
  · exact hscalar (.inl h)
  · exact hscalar (.inr h)
  · obtain ⟨t, ht, rfl⟩ := List.mem_map.1 h
    exact has_of_mem (List.mem_append_left _ (List.mem_append_right _ ht))

/-- Definitions that make a schema make a closed one. -/
theorem closed_of_ofDefinitions {definitions : List Definition} {schema : Schema}
    (h : ofDefinitions definitions = .ok schema) : schema.Closed := by
  obtain ⟨hfault, rfl⟩ := eq_assemble_of_ofDefinitions h
  intro t ht n hn
  simp only [assemble, List.mem_append] at ht
  rcases ht with (ht | ht) | ht
  · obtain ⟨p, hp, rfl⟩ := List.mem_map.1 ht
    rw [TypeParts.typeNames_body] at hn
    have hnamed := mem_typeNames_of_mem_mergedTypes (List.mem_filter.1 hp).1 hn
    exact has_assemble hp hn (known_of_fault? hfault hnamed)
  · exact has_assemble_of_introspection definitions ht hn
  · obtain ⟨name, -, rfl⟩ := List.mem_map.1 ht
    cases hn

/-- The schema of a text is closed. -/
theorem closed_of_ofText {text : String} {schema : Schema} (h : ofText text = .ok schema) :
    schema.Closed := by
  obtain ⟨definitions, hd⟩ := exists_definitions_of_ofText h
  exact closed_of_ofDefinitions hd

end Schema

end OperationTools
