import OperationTools.Proofs.Document.Tokens
import OperationTools.Proofs.Language.Spelling
import OperationTools.Proofs.Schema.Selectable

/-!
# Named schemas

The names that stand in a schema text are those of its tokens. So the types of the schema of a text
have names of the language, and so have their fields, arguments and members; the references to the
types of arguments are proper. The operations of such a schema can be written, if what is put in
front of their names is a name as well.

## Main definitions

* `TypeBody.Named`, `Schema.Named`: types and schemas in which all names are names
* `Settings.PrefixesNamed`: settings that put names in front of names

## Main results

* `Schema.named_of_ofText`: the schema of a text is named
* `Schema.Named.wellNamed`: the operations of a named schema can be written
-/

namespace OperationTools

open Token (isName)

/-- The names of a field and its arguments are names, and the types of these can be written. -/
structure Field.Named (f : Field) : Prop where
  name : isName f.name = true
  arguments : ∀ a ∈ f.arguments, isName a.name = true ∧ a.type.isProper = true

instance (f : Field) : Decidable f.Named :=
  decidable_of_iff (isName f.name = true ∧
      ∀ a ∈ f.arguments, isName a.name = true ∧ a.type.isProper = true)
    ⟨fun ⟨hn, ha⟩ => ⟨hn, ha⟩, fun h => ⟨h.name, h.arguments⟩⟩

/-- The names inside a type are names. -/
structure TypeBody.Named (body : TypeBody) : Prop where
  fields : ∀ f ∈ body.fields, f.Named
  inputFields : ∀ f ∈ body.inputFields, isName f.name = true
  members : ∀ m ∈ body.members, isName m = true

instance (body : TypeBody) : Decidable body.Named :=
  decidable_of_iff ((∀ f ∈ body.fields, f.Named) ∧
      (∀ f ∈ body.inputFields, isName f.name = true) ∧ ∀ m ∈ body.members, isName m = true)
    ⟨fun ⟨hf, hi, hm⟩ => ⟨hf, hi, hm⟩, fun h => ⟨h.fields, h.inputFields, h.members⟩⟩

/-- The names of all types and inside them are names. -/
def Schema.Named (schema : Schema) : Prop :=
  ∀ t ∈ schema.types, isName t.name = true ∧ t.body.Named

instance (schema : Schema) : Decidable schema.Named :=
  inferInstanceAs (Decidable (∀ t ∈ schema.types, isName t.name = true ∧ t.body.Named))

/-- What is put in front of the names of operations is empty or a name. -/
structure Settings.PrefixesNamed (settings : Settings) : Prop where
  query : settings.queryNamePrefix = "" ∨ isName settings.queryNamePrefix = true
  mutation : settings.mutationNamePrefix = "" ∨ isName settings.mutationNamePrefix = true
  subscription :
    settings.subscriptionNamePrefix = "" ∨ isName settings.subscriptionNamePrefix = true

theorem Settings.PrefixesNamed.namePrefix {settings : Settings} (h : settings.PrefixesNamed)
    (kind : OperationKind) :
    settings.namePrefix kind = "" ∨ isName (settings.namePrefix kind) = true := by
  cases kind with
  | query => exact h.query
  | mutation => exact h.mutation
  | subscription => exact h.subscription

/-! ## Parts of types -/

namespace TypeBody

theorem named_of_fields {is : List String} {fs : List Field} (h : ∀ f ∈ fs, f.Named) :
    (object is fs).Named ∧ (interface is fs).Named :=
  ⟨⟨h, by simp [inputFields], by simp [members]⟩, ⟨h, by simp [inputFields], by simp [members]⟩⟩

theorem named_scalar : scalar.Named := by decide

theorem named_enum (values : Option (List String)) : (enum values).Named :=
  ⟨by simp [fields], by simp [inputFields], by simp [members]⟩

theorem named_union {ms : List String} (h : ∀ m ∈ ms, isName m = true) : (union ms).Named :=
  ⟨by simp [fields], by simp [inputFields], h⟩

theorem named_input {fs : List InputField} (h : ∀ f ∈ fs, isName f.name = true) :
    (input fs).Named :=
  ⟨by simp [fields], h, by simp [members]⟩

end TypeBody

namespace TypeParts

/-- What an extension adds is as well named as the extension. -/
theorem named_append {a b : TypeParts} (ha : a.body.Named) (hb : b.body.Named) :
    (a.append b).body.Named := by
  cases a with
  | object is fs =>
    cases b with
    | object js gs =>
      rw [append, body, List.map_append]
      exact (TypeBody.named_of_fields (List.forall_mem_append.2 ⟨ha.fields, hb.fields⟩)).1
    | scalar | interface | union | enum | input => exact ha
  | interface is fs =>
    cases b with
    | interface js gs =>
      rw [append, body, List.map_append]
      exact (TypeBody.named_of_fields (List.forall_mem_append.2 ⟨ha.fields, hb.fields⟩)).2
    | scalar | object | union | enum | input => exact ha
  | union ms =>
    cases b with
    | union ns => exact TypeBody.named_union (List.forall_mem_append.2 ⟨ha.members, hb.members⟩)
    | scalar | object | interface | enum | input => exact ha
  | input fs =>
    cases b with
    | input gs =>
      rw [append, body, List.map_append]
      exact TypeBody.named_input (List.forall_mem_append.2 ⟨ha.inputFields, hb.inputFields⟩)
    | scalar | object | interface | union | enum => exact ha
  | enum vs => cases b <;> exact TypeBody.named_enum _
  | scalar => exact TypeBody.named_scalar

theorem named_foldl_append {extensions : List (String × TypeParts)} {parts : TypeParts}
    (hp : parts.body.Named) (he : ∀ e ∈ extensions, e.2.body.Named) :
    (extensions.foldl (fun acc e => acc.append e.2) parts).body.Named := by
  induction extensions generalizing parts with
  | nil => exact hp
  | cons e rest ih =>
    obtain ⟨hhead, htail⟩ := List.forall_mem_cons.1 he
    exact ih (named_append hp hhead) htail

end TypeParts

/-! ## Definitions -/

namespace Definition

open Reader

/-- The names of a type that is defined or extended are names. -/
def Named : Definition → Prop
  | .type _ name _ parts => isName name = true ∧ parts.body.Named
  | _ => True

theorem gives_inputSource :
    inputSource.Gives fun f => isName f.name = true ∧ f.type.isProper = true :=
  keeps_description.bind fun _ => gives_name.bind fun _ hname =>
    (keeps_token .colon).bind fun _ => gives_typeRef.bind fun _ htype =>
      keeps_default.bind fun _ => (keeps_directives true _).bind fun _ => gives_pure ⟨hname, htype⟩

theorem gives_fieldSource : fieldSource.Gives fun f => (TypeParts.body.field f).Named := by
  refine keeps_description.bind fun _ => gives_name.bind fun _ hname =>
    (gives_inputSource.optionalBlock .leftParen .rightParen).bind fun arguments harguments =>
      (keeps_token .colon).bind fun _ => gives_typeRef.bind fun _ _ =>
        (keeps_directives true _).bind fun _ => gives_pure ⟨hname, fun a ha => ?_⟩
  obtain ⟨source, hsource, rfl⟩ := List.mem_map.1 ha
  exact harguments source hsource

theorem keeps_valueSource : Keeps valueSource := by
  refine keeps_description.bind fun _ => gives_name.keeps.bind fun name => ?_
  have htail : Keeps (do
      let directives ← directives true
      pure ({ name, directives } : ValueSource)) :=
    (keeps_directives true _).bind fun _ => keeps_pure _
  split
  · exact Keeps.bind gives_failure fun _ => htail
  · exact htail

theorem keeps_implemented : Keeps implemented := by
  refine (keeps_keywordIf "implements").bind fun found => ?_
  split
  · exact (gives_name.separated .ampersand).keeps
  · exact keeps_pure []

theorem gives_fieldSources :
    fieldSources.Gives fun fs => ∀ f ∈ fs, (TypeParts.body.field f).Named :=
  gives_fieldSource.optionalBlock .leftBrace .rightBrace

theorem gives_members : members.Gives fun ms => ∀ m ∈ ms, isName m = true := by
  refine (keeps_tokenIf .equals).bind fun found => ?_
  split
  · exact gives_name.separated .pipe
  · exact gives_nil

theorem keeps_root : Keeps root := by
  refine gives_name.keeps.bind fun word => ?_
  split
  · exact gives_failure
  · exact (keeps_token .colon).bind fun _ => gives_name.keeps.bind fun _ => keeps_pure _

theorem named_of_sources {is : List String} {fs : List FieldSource}
    (h : ∀ f ∈ fs, (TypeParts.body.field f).Named) :
    (TypeParts.object is fs).body.Named ∧ (TypeParts.interface is fs).body.Named :=
  TypeBody.named_of_fields fun f hf => by
    obtain ⟨source, hsource, rfl⟩ := List.mem_map.1 hf
    exact h source hsource

theorem gives_typeBody (word : String) :
    (typeBody word).Gives fun p => isName p.1 = true ∧ p.2.2.body.Named := by
  have hused := keeps_directives true maxNesting
  refine gives_name.bind fun name hname => ?_
  split
  · exact hused.bind fun _ => gives_pure ⟨hname, TypeBody.named_scalar⟩
  · exact keeps_implemented.bind fun _ => hused.bind fun _ =>
      gives_fieldSources.bind fun _ h => gives_pure ⟨hname, (named_of_sources h).1⟩
  · exact keeps_implemented.bind fun _ => hused.bind fun _ =>
      gives_fieldSources.bind fun _ h => gives_pure ⟨hname, (named_of_sources h).2⟩
  · exact hused.bind fun _ =>
      gives_members.bind fun _ h => gives_pure ⟨hname, TypeBody.named_union h⟩
  · exact hused.bind fun _ => (keeps_valueSource.optionalBlock .leftBrace .rightBrace).bind
      fun _ _ => gives_pure ⟨hname, TypeBody.named_enum _⟩
  · refine hused.bind fun _ => (gives_inputSource.optionalBlock .leftBrace .rightBrace).bind
      fun fs h => gives_pure ⟨hname, TypeBody.named_input fun f hf => ?_⟩
    obtain ⟨source, hsource, rfl⟩ := List.mem_map.1 hf
    exact (h source hsource).1
  · exact gives_failure

theorem keeps_directiveLocation : Keeps directiveLocation := by
  refine gives_name.keeps.bind fun word => ?_
  split
  · exact keeps_pure _
  · exact gives_failure

theorem gives_directiveBody : directiveBody.Gives Named :=
  (keeps_token .atSign).bind fun _ => gives_name.keeps.bind fun _ =>
    (gives_inputSource.optionalBlock .leftParen .rightParen).keeps.bind fun _ =>
      (keeps_directives true _).bind fun _ => (keeps_keywordIf "repeatable").bind fun _ =>
        (keeps_keyword "on").bind fun _ => (keeps_directiveLocation.separated .pipe).keeps.bind
          fun _ => gives_pure trivial

theorem gives_extension : extension.Gives Named := by
  have hused := keeps_directives true maxNesting
  refine gives_name.keeps.bind fun word => ?_
  split
  · refine hused.bind fun _ => (keeps_root.optionalBlock .leftBrace .rightBrace).keeps.bind
      fun _ => ?_
    split
    · exact gives_failure
    · exact gives_pure trivial
  · split
    · refine (keeps_token .atSign).bind fun _ => gives_name.keeps.bind fun _ =>
        hused.bind fun _ => ?_
      split
      · exact gives_failure
      · exact gives_pure trivial
    · refine (gives_typeBody word).bind fun p hp => ?_
      split
      split
      · exact gives_failure
      · exact gives_pure hp

theorem gives_describable (word : String) : (describable word).Gives Named := by
  unfold describable
  split
  · rename_i reader hreader
    exact (Request.keeps_of_reader? hreader).bind fun _ => gives_pure trivial
  · split
    · exact (keeps_directives true _).bind fun _ => (keeps_token .leftBrace).bind fun _ =>
        gives_of_get fun ts _ => (keeps_root.manyUntil .rightBrace ts.length).keeps.bind
          fun _ => gives_pure trivial
    · split
      · exact gives_directiveBody
      · exact (gives_typeBody word).bind fun _ hp => gives_pure hp

theorem gives_definition : definition.Gives Named := by
  refine gives_of_get fun ts _ => ?_
  split
  · exact Request.keeps_parts.bind fun _ => gives_pure trivial
  · refine keeps_description.bind fun _ => gives_name.keeps.bind fun word => ?_
    split
    · split
      · exact gives_failure
      · exact gives_extension
    · exact gives_describable word

theorem gives_definitions (fuel : Nat) :
    (definitions fuel).Gives fun ds => ∀ d ∈ ds, d.Named := by
  induction fuel with
  | zero => exact gives_failure
  | succ fuel ih =>
    refine gives_definition.bind fun _ hd => gives_of_get fun ts _ => ?_
    split
    · exact gives_singleton hd
    · exact gives_cons hd ih

/-- The definitions of a text have names. -/
theorem named_of_ofText? {text : String} {ds : List Definition} (h : ofText? text = some ds) :
    ∀ d ∈ ds, d.Named := by
  obtain ⟨tokens, htokens, h⟩ := Option.bind_eq_some_iff.1 h
  obtain ⟨⟨found, rest⟩, hfound, h⟩ := Option.bind_eq_some_iff.1 h
  cases h
  exact (gives_definitions tokens.length tokens _ rest (Token.spelled_of_scan? htokens) hfound).1

end Definition

/-! ## Schemas -/

namespace Schema

theorem named_introspection {t : TypeDefinition} (ht : t ∈ Introspection.types) :
    isName t.name = true ∧ t.body.Named := by
  revert t
  decide +kernel

theorem isName_of_mem_builtInScalars {n : String} (hn : n ∈ builtInScalars) :
    isName n = true := by
  revert n
  decide +kernel

theorem named_of_mem_mergedTypes {definitions : List Definition}
    (h : ∀ d ∈ definitions, d.Named) {p : String × TypeParts} (hp : p ∈ mergedTypes definitions) :
    isName p.1 = true ∧ p.2.body.Named := by
  obtain ⟨⟨name, parts⟩, hd, rfl⟩ := List.mem_map.1 hp
  obtain ⟨hname, hparts⟩ : isName name = true ∧ parts.body.Named := by
    obtain ⟨d, hd, hdef⟩ := List.mem_filterMap.1 hd
    match d, hdef with
    | .type false _ _ _, rfl => exact h _ hd
  refine ⟨hname, TypeParts.named_foldl_append hparts fun e he => ?_⟩
  obtain ⟨d, hd, hext⟩ := List.mem_filterMap.1 (List.mem_filter.1 he).1
  match d, hext with
  | .type true _ _ _, rfl => exact (h _ hd).2

/-- Definitions with names make a named schema. -/
theorem named_of_ofDefinitions {definitions : List Definition} (hd : ∀ d ∈ definitions, d.Named)
    {schema : Schema} (h : ofDefinitions definitions = .ok schema) : schema.Named := by
  obtain ⟨-, rfl⟩ := eq_assemble_of_ofDefinitions h
  intro t ht
  simp only [assemble, List.mem_append] at ht
  rcases ht with (ht | ht) | ht
  · obtain ⟨p, hp, rfl⟩ := List.mem_map.1 ht
    exact named_of_mem_mergedTypes hd (List.mem_filter.1 hp).1
  · exact named_introspection ht
  · obtain ⟨name, hname, rfl⟩ := List.mem_map.1 ht
    exact ⟨isName_of_mem_builtInScalars (List.mem_filter.1 hname).1, TypeBody.named_scalar⟩

/-- The schema of a text is named. -/
theorem named_of_ofText {text : String} {schema : Schema} (h : ofText text = .ok schema) :
    schema.Named := by
  unfold ofText at h
  split at h
  · cases h
  · exact named_of_ofDefinitions (Definition.named_of_ofText? ‹_›) h

theorem Named.body {schema : Schema} (hn : schema.Named) {n : String} {body : TypeBody}
    (hb : schema.body? n = some body) : body.Named :=
  (hn _ (mem_of_body? hb)).2

end Schema

/-! ## Operations -/

/-- A name behind another one is a name. -/
theorem Token.isName_append {a b : String} (ha : a = "" ∨ isName a = true)
    (hb : isName b = true) : isName (a ++ b) = true := by
  rcases ha with rfl | ha
  · rwa [String.empty_append]
  · unfold isName at ha hb ⊢
    rw [String.toList_append]
    split at ha
    case h_2 => cases ha
    case h_1 c cs hcs =>
      split at hb
      case h_2 => cases hb
      case h_1 d ds hds =>
        obtain ⟨hd, hds'⟩ := Bool.and_eq_true_iff.1 hb
        obtain ⟨hc, hcs'⟩ := Bool.and_eq_true_iff.1 ha
        rw [hcs, hds]
        simp [hc, hcs', isNamePart_of_isNameStart hd, hds']

/-- The operation of a field with names has names. -/
theorem Field.Named.wellNamed_ofField {f : Field} (h : f.Named) {settings : Settings}
    (hs : settings.PrefixesNamed) (kind : OperationKind) :
    (Operation.ofField settings kind f).WellNamed := by
  refine ⟨Token.isName_append (hs.namePrefix kind) h.name, h.name, fun v hv => ?_⟩
  obtain ⟨a, ha, rfl⟩ := List.mem_map.1 hv
  obtain ⟨hname, htype⟩ := h.arguments a (List.mem_of_mem_take ha)
  exact ⟨hname, a.type, htype, by simp [Variable.make]⟩

namespace Schema

/-- The operations of a named schema can be written. -/
theorem Named.wellNamed {schema : Schema} (hn : schema.Named) {settings : Settings}
    (hs : settings.PrefixesNamed) {operations : List Operation} {log : List Notice}
    (h : schema.operations settings = (.ok operations, log)) {op : Operation}
    (hop : op ∈ operations) : op.WellNamed := by
  obtain ⟨kind, name, body, f, hb, hf, rfl⟩ := exists_field_of_mem_operations h hop
  exact ((hn.body hb).fields f hf).wellNamed_ofField hs kind

end Schema

end OperationTools
