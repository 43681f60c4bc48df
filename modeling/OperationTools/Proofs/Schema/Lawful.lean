import Mathlib.Data.List.Nodup
import OperationTools.Proofs.Operation.Listing
import OperationTools.Schema.Build

/-!
# Lawful schemas

The types of a schema have distinct names, and so have the parts of a type and the arguments of a
field. Definitions that make a schema make a lawful one, since a name that is given twice is a
fault. The operations of a lawful schema have distinct arguments.

## Main definitions

* `Schema.Lawful`: schemas without repeated names

## Main results

* `Schema.lawful_of_ofText`: the schema of a text is lawful
* `Schema.Lawful.nodup_arguments`: the arguments of an operation are distinct
-/

namespace OperationTools

namespace TypeBody

/-- The fields of an input object type. -/
def inputFields : TypeBody → List InputField
  | .input fields => fields
  | _ => []

/-- The names inside a type are distinct. -/
structure Lawful (body : TypeBody) : Prop where
  fields : (body.fields.map (·.name)).Nodup
  inputFields : (body.inputFields.map (·.name)).Nodup
  arguments : ∀ f ∈ body.fields, (f.arguments.map (·.name)).Nodup

instance (body : TypeBody) : Decidable body.Lawful :=
  decidable_of_iff ((body.fields.map (·.name)).Nodup ∧ (body.inputFields.map (·.name)).Nodup ∧
      ∀ f ∈ body.fields, (f.arguments.map (·.name)).Nodup)
    ⟨fun ⟨hf, hi, ha⟩ => ⟨hf, hi, ha⟩, fun h => ⟨h.fields, h.inputFields, h.arguments⟩⟩

end TypeBody

namespace TypeParts

/-- The fields that are written for an object or interface type. -/
def fieldSources : TypeParts → List FieldSource
  | .object _ fs | .interface _ fs => fs
  | _ => []

/-- No field has an argument twice. -/
def HasDistinctArguments (parts : TypeParts) : Prop :=
  ∀ f ∈ parts.fieldSources, (f.arguments.map (·.name)).Nodup

theorem hasDistinctArguments_of_repeatedArgument? {parts : TypeParts}
    (h : parts.repeatedArgument? = none) : parts.HasDistinctArguments := by
  have hfields : ∀ fs : List FieldSource, (fs.findSome? fun f =>
      (Entries.firstRepeated? (f.arguments.map (·.name))).map (f.name, ·)) = none →
      ∀ f ∈ fs, (f.arguments.map (·.name)).Nodup := by
    intro fs h f hf
    have hn := List.findSome?_eq_none_iff.1 h f hf
    exact Entries.firstRepeated?_eq_none_iff.1 (Option.map_eq_none_iff.1 hn)
  cases parts with
  | object is fs => exact hfields fs h
  | interface is fs => exact hfields fs h
  | scalar | union | enum | input => simp [HasDistinctArguments, fieldSources]

/-- An extension adds its own fields only. -/
theorem mem_fieldSources_append {a b : TypeParts} {f : FieldSource}
    (h : f ∈ (a.append b).fieldSources) : f ∈ a.fieldSources ∨ f ∈ b.fieldSources := by
  cases a <;> cases b <;> simp_all [append, fieldSources]

theorem HasDistinctArguments.append {a b : TypeParts} (ha : a.HasDistinctArguments)
    (hb : b.HasDistinctArguments) : (a.append b).HasDistinctArguments := by
  intro f hf
  rcases mem_fieldSources_append hf with hf | hf
  · exact ha f hf
  · exact hb f hf

theorem HasDistinctArguments.foldl_append {extensions : List (String × TypeParts)}
    {parts : TypeParts} (hp : parts.HasDistinctArguments)
    (he : ∀ e ∈ extensions, e.2.HasDistinctArguments) :
    (extensions.foldl (fun acc e => acc.append e.2) parts).HasDistinctArguments := by
  induction extensions generalizing parts with
  | nil => exact hp
  | cons e rest ih =>
    exact ih (hp.append (he e List.mem_cons_self)) fun e' he' => he e' (List.mem_cons_of_mem _ he')

/-- Parts with distinct names make a lawful type. -/
theorem lawful_body {parts : TypeParts} (hn : parts.partNames.Nodup)
    (ha : parts.HasDistinctArguments) : parts.body.Lawful := by
  have hobject : ∀ fs : List FieldSource, (fs.map (·.name)).Nodup →
      (∀ f ∈ fs, (f.arguments.map (·.name)).Nodup) →
      ((fs.map TypeParts.body.field).map (·.name)).Nodup ∧
        ∀ f ∈ fs.map TypeParts.body.field, (f.arguments.map (·.name)).Nodup := by
    intro fs hn ha
    rw [List.map_map]
    refine ⟨hn, fun f hf => ?_⟩
    obtain ⟨g, hg, rfl⟩ := List.mem_map.1 hf
    rw [body.field, List.map_map]
    exact ha g hg
  cases parts with
  | object is fs | interface is fs =>
    exact ⟨(hobject fs hn ha).1, by simp [body, TypeBody.inputFields], (hobject fs hn ha).2⟩
  | input fs =>
    refine ⟨by simp [body, TypeBody.fields], ?_, by simp [body, TypeBody.fields]⟩
    rw [body, TypeBody.inputFields, List.map_map]
    exact hn
  | scalar | union | enum =>
    exact ⟨by simp [body, TypeBody.fields], by simp [body, TypeBody.inputFields],
      by simp [body, TypeBody.fields]⟩

end TypeParts

namespace Schema

/-- The names of the types are distinct, and so are those inside each type. -/
structure Lawful (schema : Schema) : Prop where
  names : (schema.types.map (·.name)).Nodup
  bodies : ∀ t ∈ schema.types, t.body.Lawful

instance (schema : Schema) : Decidable schema.Lawful :=
  decidable_of_iff ((schema.types.map (·.name)).Nodup ∧ ∀ t ∈ schema.types, t.body.Lawful)
    ⟨fun ⟨hn, hb⟩ => ⟨hn, hb⟩, fun h => ⟨h.names, h.bodies⟩⟩

/-- The type of a name stands among the types of the schema. -/
theorem mem_of_body? {schema : Schema} {n : String} {body : TypeBody}
    (h : schema.body? n = some body) : ⟨n, body⟩ ∈ schema.types := by
  obtain ⟨t, ht, rfl⟩ := Option.map_eq_some_iff.1 h
  have hn : t.name = n := by simpa using List.find?_some ht
  have hm := List.mem_of_find?_eq_some ht
  rw [← hn]
  exact hm

theorem Lawful.body {schema : Schema} (h : schema.Lawful) {n : String} {body : TypeBody}
    (hb : schema.body? n = some body) : body.Lawful :=
  h.bodies _ (mem_of_body? hb)

/-- Among items with distinct names each one is found under its own. -/
theorem find?_name_of_mem {α : Type} {name : α → String} {items : List α}
    (hn : (items.map name).Nodup) {a : α} (ha : a ∈ items) :
    items.find? (name · == name a) = some a := by
  obtain ⟨b, hb⟩ : ∃ b, items.find? (name · == name a) = some b :=
    Option.isSome_iff_exists.1 (List.find?_isSome.2 ⟨a, ha, beq_self_eq_true (name a)⟩)
  have hname : name b = name a := by simpa using List.find?_some hb
  rw [hb, List.inj_on_of_nodup_map hn (List.mem_of_find?_eq_some hb) ha hname]

/-- Each type of a lawful schema is found under its name. -/
theorem Lawful.body?_of_mem {schema : Schema} (h : schema.Lawful) {t : TypeDefinition}
    (ht : t ∈ schema.types) : schema.body? t.name = some t.body := by
  rw [body?, find?_name_of_mem h.names ht, Option.map_some]

/-- What implements an interface is an object type. -/
theorem Lawful.isComposite_of_mem_possibleTypes {schema : Schema} (h : schema.Lawful)
    {n m : String} (hm : m ∈ schema.possibleTypes n) : schema.isComposite m = true := by
  obtain ⟨t, ht, hm⟩ := List.mem_flatMap.1 hm
  split at hm
  · rename_i interfaces fields hbody
    obtain ⟨-, -, rfl⟩ := List.mem_map.1 hm
    rw [isComposite, h.body?_of_mem ht, hbody]
    rfl
  · cases hm

/-- Without a fault no type is given twice, no type has two parts of one name, and no field two
arguments. -/
theorem distinct_of_fault? {definitions : List Definition} (h : fault? definitions = none) :
    ((mergedTypes definitions).map (·.1)).Nodup ∧
      (∀ p ∈ mergedTypes definitions, p.2.partNames.Nodup) ∧
      ∀ d ∈ definitions, d.repeatedArgument? = none := by
  have hchecks := List.findSome?_eq_none_iff.1 h
  simp only [List.forall_mem_cons, id] at hchecks
  obtain ⟨-, -, htypes, -, -, hparts, harguments, -⟩ := hchecks
  refine ⟨?_, fun p hp => ?_, fun d hd => ?_⟩
  · rw [mergedTypes, List.map_map]
    exact Entries.firstRepeated?_eq_none_iff.1 (Option.map_eq_none_iff.1 htypes)
  · have hr := List.findSome?_eq_none_iff.1 hparts p hp
    exact Entries.firstRepeated?_eq_none_iff.1 (Option.map_eq_none_iff.1 hr)
  · exact List.findSome?_eq_none_iff.1 (Option.map_eq_none_iff.1 harguments) d hd

theorem hasDistinctArguments_of_type {isExtension : Bool} {name : String}
    {used : List DirectiveUse} {parts : TypeParts}
    (h : (Definition.type isExtension name used parts).repeatedArgument? = none) :
    parts.HasDistinctArguments :=
  TypeParts.hasDistinctArguments_of_repeatedArgument? h

/-- Merging adds to the parts of a definition those of its extensions. -/
theorem hasDistinctArguments_mergedTypes {definitions : List Definition}
    (h : ∀ d ∈ definitions, d.repeatedArgument? = none) {p : String × TypeParts}
    (hp : p ∈ mergedTypes definitions) : p.2.HasDistinctArguments := by
  obtain ⟨⟨name, parts⟩, hd, rfl⟩ := List.mem_map.1 hp
  apply TypeParts.HasDistinctArguments.foldl_append
  · obtain ⟨d, hd, hdef⟩ := List.mem_filterMap.1 hd
    match d, hdef with
    | .type false _ _ _, rfl => exact hasDistinctArguments_of_type (h _ hd)
  · intro e he
    obtain ⟨d, hd, hext⟩ := List.mem_filterMap.1 (List.mem_filter.1 he).1
    match d, hext with
    | .type true _ _ _, rfl => exact hasDistinctArguments_of_type (h _ hd)

theorem lawful_scalar : TypeBody.scalar.Lawful := by decide

theorem lawful_introspection {t : TypeDefinition} (ht : t ∈ Introspection.types) :
    t.body.Lawful := by
  revert t
  decide +kernel

/-- The types that are assembled have distinct names if those that are defined have. -/
theorem nodup_names_assemble {definitions : List Definition}
    (h : ((mergedTypes definitions).map (·.1)).Nodup) :
    ((assemble definitions).types.map (·.name)).Nodup := by
  have hstandard : standardTypes.Nodup := by decide +kernel
  obtain ⟨hscalars, hintrospection, hapart⟩ := List.nodup_append.1 hstandard
  have hused : ∀ own roots,
      ((usedScalars definitions own roots).map (·.name)).Sublist builtInScalars := by
    intro own roots
    rw [usedScalars, List.map_map]
    exact (List.map_id _).symm ▸ List.filter_sublist
  simp only [assemble, List.map_append, List.map_map, List.append_assoc]
  refine List.nodup_append.2 ⟨h.sublist (List.filter_sublist.map _),
    List.nodup_append.2 ⟨hintrospection, hscalars.sublist (hused _ _), ?_⟩, ?_⟩
  · intro a ha b hb
    exact (hapart b ((hused _ _).subset hb) a ha).symm
  · intro a ha b hb
    obtain ⟨p, hp, rfl⟩ := List.mem_map.1 ha
    have hnot : p.1 ∉ standardTypes := by simpa using (List.mem_filter.1 hp).2
    rintro rfl
    rcases List.mem_append.1 hb with hb | hb
    · exact hnot (List.mem_append_right _ hb)
    · exact hnot (List.mem_append_left _ ((hused _ _).subset hb))

/-- Definitions that make a schema are without a fault, and the schema is assembled from them. -/
theorem eq_assemble_of_ofDefinitions {definitions : List Definition} {schema : Schema}
    (h : ofDefinitions definitions = .ok schema) :
    fault? definitions = none ∧ schema = assemble definitions := by
  unfold ofDefinitions at h
  split at h
  · cases h
  · rename_i hfault
    split at h
    · cases h
    · cases h
      exact ⟨hfault, rfl⟩

theorem exists_definitions_of_ofText {text : String} {schema : Schema}
    (h : ofText text = .ok schema) : ∃ definitions, ofDefinitions definitions = .ok schema := by
  unfold ofText at h
  split at h
  · cases h
  · exact ⟨_, h⟩

/-- Definitions that make a schema make a lawful one. -/
theorem lawful_of_ofDefinitions {definitions : List Definition} {schema : Schema}
    (h : ofDefinitions definitions = .ok schema) : schema.Lawful := by
  obtain ⟨hfault, rfl⟩ := eq_assemble_of_ofDefinitions h
  obtain ⟨htypes, hnames, harguments⟩ := distinct_of_fault? hfault
  refine ⟨nodup_names_assemble htypes, fun t ht => ?_⟩
  simp only [assemble, List.mem_append] at ht
  rcases ht with (ht | ht) | ht
  · obtain ⟨p, hp, rfl⟩ := List.mem_map.1 ht
    have hp := (List.mem_filter.1 hp).1
    exact TypeParts.lawful_body (hnames p hp) (hasDistinctArguments_mergedTypes harguments hp)
  · exact lawful_introspection ht
  · obtain ⟨name, -, rfl⟩ := List.mem_map.1 ht
    exact lawful_scalar

/-- The schema of a text is lawful. -/
theorem lawful_of_ofText {text : String} {schema : Schema} (h : ofText text = .ok schema) :
    schema.Lawful := by
  obtain ⟨definitions, hd⟩ := exists_definitions_of_ofText h
  exact lawful_of_ofDefinitions hd

/-! ## Operations of a schema -/

/-- Every operation of a schema is that of a field of a root type. -/
theorem exists_field_of_mem_operations {schema : Schema} {settings : Settings}
    {operations : List Operation} {log : List Notice}
    (h : schema.operations settings = (.ok operations, log)) {op : Operation}
    (hop : op ∈ operations) :
    ∃ kind name body f, schema.body? name = some body ∧ f ∈ body.fields ∧
      op = .ofField settings kind f := by
  obtain rfl := eq_of_operations (congrArg Prod.fst h)
  obtain ⟨c, hc, rfl⟩ := List.mem_map.1 hop
  obtain ⟨name, body, hb, hf⟩ := exists_body_of_mem_keptFields (List.mem_of_mem_take hc)
  exact ⟨c.1, name, body, c.2, hb, hf, rfl⟩

/-- The arguments of an operation of a lawful schema are distinct. -/
theorem Lawful.nodup_arguments {schema : Schema} (hl : schema.Lawful) {settings : Settings}
    {operations : List Operation} {log : List Notice}
    (h : schema.operations settings = (.ok operations, log)) {op : Operation}
    (hop : op ∈ operations) : (op.arguments.map (·.name)).Nodup := by
  obtain ⟨kind, name, body, f, hb, hf, rfl⟩ := exists_field_of_mem_operations h hop
  have hd := (hl.body hb).arguments f hf
  have he : (Operation.ofField settings kind f).arguments.map (·.name) =
      (f.arguments.map (·.name)).take settings.maxOperationArguments := by
    rw [Operation.ofField, List.map_map, ← List.map_take]
    rfl
  rw [he]
  exact hd.sublist (List.take_sublist _ _)

end Schema

end OperationTools
