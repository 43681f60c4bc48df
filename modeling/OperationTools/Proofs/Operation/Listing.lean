import Mathlib.Data.List.Forall2
import Mathlib.Data.List.Nodup
import OperationTools.Operation.Extraction

/-!
# Which operations a schema has

The fields of the root types are listed kind by kind, without those that are marked to be ignored.
Of the fields that would have one name the first is kept, and the first fields that were kept are
the operations. What is ignored, or of a kind that is not included, is not listed and takes no name.

## Main definitions

* `Settings.Ignored`, `Settings.finalName`: marked fields, and the names of operations
* `Schema.includedFields`, `Schema.listedFields`, `Schema.keptFields`: the fields of the included
  roots, those of them that are considered, and those of these with new names
* `Operation.Presents`: an operation says of a field what the field says of itself
* `Schema.HasCallableRoots`: the included root types have fields that can be called

## Main results

* `Schema.eq_of_operations`: the operations are those of the first fields that were kept
* `Schema.exists_operations`: there are operations where all roots can be called
-/

namespace OperationTools

/-! ## Items with new names -/

section Unrepeated

variable {α : Type} {name : α → String}

/-- The items whose name is not taken, neither from the beginning nor by an item kept before. -/
def unrepeated (name : α → String) (taken : List String) : List α → List α
  | [] => []
  | a :: rest =>
    if name a ∈ taken then unrepeated name taken rest
    else a :: unrepeated name (taken ++ [name a]) rest

theorem unrepeated_sublist (taken : List String) (items : List α) :
    (unrepeated name taken items).Sublist items := by
  induction items generalizing taken with
  | nil => exact .slnil
  | cons a rest ih =>
    unfold unrepeated
    split
    · exact (ih _).cons a
    · exact (ih _).cons_cons a

/-- No two items are kept with one name, and none with a name that is taken. -/
theorem nodup_unrepeated {taken : List String} (h : taken.Nodup) (items : List α) :
    (taken ++ (unrepeated name taken items).map name).Nodup := by
  induction items generalizing taken with
  | nil => simpa [unrepeated] using h
  | cons a rest ih =>
    unfold unrepeated
    split
    · exact ih h
    · rename_i ha
      have hnext := ih (h.append (List.nodup_singleton _) (List.disjoint_singleton.2 ha))
      rwa [List.append_assoc] at hnext

/-- The first item of a name is kept unless the name is taken from the beginning. -/
theorem mem_unrepeated_of_first {taken : List String} {before after : List α} {a : α}
    (ht : name a ∉ taken) (hb : ∀ b ∈ before, name b ≠ name a) :
    a ∈ unrepeated name taken (before ++ a :: after) := by
  induction before generalizing taken with
  | nil => simp [unrepeated, ht]
  | cons b before ih =>
    rw [List.cons_append, unrepeated]
    have hrest := fun c hc => hb c (List.mem_cons_of_mem b hc)
    split
    · exact ih ht hrest
    · refine List.mem_cons_of_mem b (ih ?_ hrest)
      simp [ht, Ne.symm (hb b List.mem_cons_self)]

end Unrepeated

/-! ## Listed fields -/

namespace Settings

/-- A field is marked to be ignored: its description holds the phrase, which is not empty. -/
def Ignored (settings : Settings) (f : Field) : Prop :=
  ∃ text, f.description = some text ∧ settings.ignorePhrase ≠ "" ∧
    Text.points settings.ignorePhrase.toList <:+: Text.points text.toList

theorem ignores_field_iff {settings : Settings} {f : Field} :
    settings.ignores (.field f) = true ↔ settings.Ignored f := by
  unfold ignores Ignored
  cases hd : f.description with
  | none => simp [RootPart.description, hd]
  | some text => simp [RootPart.description, hd, Text.holds, Text.occursIn_iff]

instance (settings : Settings) (f : Field) : Decidable (settings.Ignored f) :=
  decidable_of_iff _ ignores_field_iff

/-- The name of the operation of a root field: that of the field behind the prefix of the kind. -/
def finalName (settings : Settings) : OperationKind × Field → String
  | (.query, f) => settings.queryNamePrefix ++ f.name
  | (.mutation, f) => settings.mutationNamePrefix ++ f.name
  | (.subscription, f) => settings.subscriptionNamePrefix ++ f.name

theorem finalName_eq (settings : Settings) (c : OperationKind × Field) :
    settings.finalName c = settings.namePrefix c.1 ++ c.2.name := by
  obtain ⟨kind, f⟩ := c
  cases kind <;> rfl

end Settings

/-- The fields of objects and interfaces can be called. -/
def TypeBody.isCallable : TypeBody → Bool
  | .object .. | .interface .. => true
  | _ => false

namespace Schema

/-- The fields of the root type of a kind. -/
def rootFields (schema : Schema) (kind : OperationKind) : List Field :=
  (((schema.root? kind).bind schema.body?).map (·.fields)).getD []

/-- The fields of the included root types: those for queries, then those for mutations, then those
for subscriptions, each in the order of their definition. -/
def includedFields (schema : Schema) (settings : Settings) : List (OperationKind × Field) :=
  (if settings.includeQueries then (schema.rootFields .query).map (.query, ·) else []) ++
    (if settings.includeMutations then (schema.rootFields .mutation).map (.mutation, ·) else []) ++
    if settings.includeSubscriptions then
      (schema.rootFields .subscription).map (.subscription, ·)
    else []

/-- The fields of the included root types without those that are marked to be ignored. -/
def listedFields (schema : Schema) (settings : Settings) : List (OperationKind × Field) :=
  (schema.includedFields settings).filter fun c => ¬ settings.Ignored c.2

/-- The listed fields whose operation has another name than those of all fields kept before. -/
def keptFields (schema : Schema) (settings : Settings) : List (OperationKind × Field) :=
  unrepeated settings.finalName [] (schema.listedFields settings)

/-- The root type of a kind, if there is one, has fields that can be called. -/
def IsCallableRoot (schema : Schema) (kind : OperationKind) : Prop :=
  ((schema.root? kind).bind schema.body?).all (·.isCallable) = true

instance (schema : Schema) (kind : OperationKind) : Decidable (schema.IsCallableRoot kind) :=
  inferInstanceAs (Decidable (_ = true))

/-- The included root types have fields that can be called. -/
structure HasCallableRoots (schema : Schema) (settings : Settings) : Prop where
  query : settings.includeQueries = true → schema.IsCallableRoot .query
  mutation : settings.includeMutations = true → schema.IsCallableRoot .mutation
  subscription : settings.includeSubscriptions = true → schema.IsCallableRoot .subscription

theorem hasCallableRoots_iff {schema : Schema} {settings : Settings} :
    schema.HasCallableRoots settings ↔
      ∀ kind, settings.offers kind = true → schema.IsCallableRoot kind := by
  constructor
  · intro h kind hkind
    cases kind with
    | query => exact h.query hkind
    | mutation => exact h.mutation hkind
    | subscription => exact h.subscription hkind
  · intro h
    exact ⟨h .query, h .mutation, h .subscription⟩

instance (schema : Schema) (settings : Settings) : Decidable (schema.HasCallableRoots settings) :=
  decidable_of_iff ((settings.includeQueries = true → schema.IsCallableRoot .query) ∧
      (settings.includeMutations = true → schema.IsCallableRoot .mutation) ∧
      (settings.includeSubscriptions = true → schema.IsCallableRoot .subscription))
    ⟨fun ⟨hq, hm, hs⟩ => ⟨hq, hm, hs⟩, fun h => ⟨h.query, h.mutation, h.subscription⟩⟩

end Schema

/-- An operation says of a root field what the field says of itself, with its first arguments. -/
structure Operation.Presents (settings : Settings) (c : OperationKind × Field) (op : Operation) :
    Prop where
  name : op.name = settings.finalName c
  kind : op.kind = c.1
  fieldName : op.fieldName = c.2.name
  result : op.result = some c.2.type
  description : op.description = c.2.description
  arguments : op.arguments.map (fun a => (a.name, a.type, a.description)) =
    (c.2.arguments.take settings.maxOperationArguments).map fun a =>
      (a.name, some a.type, a.description)

theorem Operation.presents_ofField (settings : Settings) (c : OperationKind × Field) :
    (Operation.ofField settings c.1 c.2).Presents settings c where
  name := (settings.finalName_eq c).symm
  kind := rfl
  fieldName := rfl
  result := rfl
  description := rfl
  arguments := by
    rw [Operation.ofField, List.map_map]
    rfl

/-! ## Extraction -/

/-- The field that is met, if one is met that can be called. -/
def RootPart.field? : RootPart → Option Field
  | .field f => some f
  | _ => none

theorem RootPart.field?_eq_some_iff {part : RootPart} {f : Field} :
    part.field? = some f ↔ part = .field f := by
  cases part <;> simp [field?]

namespace Operation

variable {settings : Settings} {found found' : Found}

/-- What cannot be called is not added. -/
theorem consider_of_field?_eq_none {c : OperationKind × RootPart} (hc : c.2.field? = none)
    (h : consider settings found c = .ok found') : found'.1 = found.1 := by
  obtain ⟨kind, part⟩ := c
  cases part with
  | field => cases hc
  | withoutFields => simp [consider] at h
  | inputField f =>
    simp only [consider, reduceCtorEq, if_false] at h
    split at h
    · cases h
      rfl
    · split at h
      · cases h
        rfl
      · cases h

/-- The fields with new names are added among those that are considered. -/
theorem operations_of_foldlM_consider {candidates : List (OperationKind × RootPart)}
    (h : candidates.foldlM (consider settings) found = .ok found') :
    found'.1 = found.1 ++ (unrepeated settings.finalName (found.1.map (·.name))
      ((candidates.filterMap fun c => c.2.field?.map fun f => (c.1, f)).filter fun c =>
        ¬ settings.Ignored c.2)).map fun c => ofField settings c.1 c.2 := by
  -- induction on the candidates; what was found before them says which names are taken
  induction candidates generalizing found with
  | nil =>
    cases h
    simp [unrepeated]
  | cons c rest ih =>
    rw [List.foldlM_cons] at h
    obtain ⟨next, hnext, h⟩ : ∃ next, consider settings found c = .ok next ∧
        rest.foldlM (consider settings) next = .ok found' := by
      cases hc : consider settings found c with
      | error e =>
        rw [hc] at h
        cases h
      | ok next =>
        rw [hc] at h
        exact ⟨next, rfl, h⟩
    rw [ih h]
    obtain ⟨kind, part⟩ := c
    cases hf : part.field? with
    | none =>
      rw [consider_of_field?_eq_none hf hnext]
      simp [hf]
    | some f =>
      obtain rfl := RootPart.field?_eq_some_iff.1 hf
      obtain ⟨log, hlog⟩ := consider_field settings found kind f
      obtain rfl := Except.ok.inj (hlog.symm.trans hnext)
      rw [List.filterMap_cons_some (by rfl)]
      by_cases hi : settings.Ignored f
      · rw [if_pos (.inl (Settings.ignores_field_iff.2 hi)), List.filter_cons_of_neg (by simpa)]
      · rw [List.filter_cons_of_pos (by simpa), unrepeated]
        rw [settings.finalName_eq]
        by_cases ht : settings.namePrefix kind ++ f.name ∈ found.1.map (·.name)
        · rw [if_pos (.inr ht), if_pos ht]
        · rw [if_neg (by rw [Settings.ignores_field_iff]; exact not_or.2 ⟨hi, ht⟩), if_neg ht]
          simp

/-- Fields of root types can all be considered. -/
theorem exists_foldlM_consider {candidates : List (OperationKind × RootPart)}
    (h : ∀ c ∈ candidates, c.2.field? ≠ none) (found : Found) :
    ∃ found', candidates.foldlM (consider settings) found = .ok found' := by
  induction candidates generalizing found with
  | nil => exact ⟨found, rfl⟩
  | cons c rest ih =>
    obtain ⟨kind, part⟩ := c
    obtain ⟨f, hf⟩ := Option.ne_none_iff_exists'.1 (h _ List.mem_cons_self)
    obtain rfl := RootPart.field?_eq_some_iff.1 hf
    obtain ⟨log, hlog⟩ := consider_field settings found kind f
    rw [List.foldlM_cons, hlog]
    exact ih (fun c hc => h c (List.mem_cons_of_mem _ hc)) _

end Operation

namespace Schema

variable {schema : Schema} {settings : Settings}

theorem filterMap_ofBody (body : TypeBody) :
    (RootPart.ofBody body).filterMap RootPart.field? = body.fields := by
  cases body with
  | object _ fields | interface _ fields =>
    exact List.filterMap_map.trans (List.filterMap_some (l := fields))
  | input fields => simp [RootPart.ofBody, TypeBody.fields, RootPart.field?]
  | scalar | enum | union => rfl

theorem includedFields_eq_flatMap (schema : Schema) (settings : Settings) :
    schema.includedFields settings =
      (OperationKind.all.filter settings.offers).flatMap fun kind =>
        (schema.rootFields kind).map fun f => (kind, f) := by
  unfold includedFields OperationKind.all
  cases hq : settings.includeQueries <;> cases hm : settings.includeMutations <;>
    cases hs : settings.includeSubscriptions <;> simp [Settings.offers, hq, hm, hs]

/-- The fields among the parts of the root types. -/
theorem filterMap_rootParts (schema : Schema) (settings : Settings) :
    (schema.rootParts settings).filterMap (fun c => c.2.field?.map fun f => (c.1, f)) =
      schema.includedFields settings := by
  rw [rootParts, includedFields_eq_flatMap, List.filterMap_flatMap]
  refine List.flatMap_congr fun kind _ => ?_
  unfold rootFields
  cases (schema.root? kind).bind schema.body? with
  | none => rfl
  | some body =>
    rw [List.filterMap_map, Option.map_some, Option.getD_some, ← filterMap_ofBody,
      List.map_filterMap]
    rfl

/-- The operations of a schema are those of the first fields that were kept. -/
theorem eq_of_operations {ops : List Operation} (h : (schema.operations settings).1 = .ok ops) :
    ops = ((schema.keptFields settings).take settings.maxOperations).map fun c =>
      .ofField settings c.1 c.2 := by
  unfold operations at h
  split at h
  · cases h
  · rename_i found log hfound
    have hkept := Operation.operations_of_foldlM_consider hfound
    rw [filterMap_rootParts] at hkept
    rw [← Except.ok.inj h, List.map_take]
    exact congrArg (List.take _) hkept

/-- Where all roots can be called there are operations. -/
theorem exists_operations (h : schema.HasCallableRoots settings) :
    ∃ ops, (schema.operations settings).1 = .ok ops := by
  have hparts : ∀ c ∈ schema.rootParts settings, c.2.field? ≠ none := by
    intro c hc
    obtain ⟨kind, hkind, hc⟩ := List.mem_flatMap.1 hc
    have hcallable := hasCallableRoots_iff.1 h kind (List.mem_filter.1 hkind).2
    split at hc
    · rename_i body hbody
      obtain ⟨part, hpart, rfl⟩ := List.mem_map.1 hc
      rw [IsCallableRoot, hbody, Option.all_some] at hcallable
      cases body with
      | object _ fields | interface _ fields =>
        obtain ⟨f, -, rfl⟩ := List.mem_map.1 hpart
        simp [RootPart.field?]
      | scalar | union | enum | input => cases hcallable
    · cases hc
  obtain ⟨found, hfound⟩ := Operation.exists_foldlM_consider hparts ([], [])
  exact ⟨_, by rw [operations, hfound]⟩

/-- A lower limit cuts the operations short and changes nothing else. -/
theorem operations_lower {limit : Cap} (h : limit.value ≤ settings.maxOperations) :
    (schema.operations { settings with maxOperations := limit }).1 =
      (schema.operations settings).1.map (·.take limit) := by
  have hsame : (schema.rootParts { settings with maxOperations := limit }).foldlM
      (Operation.consider { settings with maxOperations := limit }) ([], []) =
        (schema.rootParts settings).foldlM (Operation.consider settings) ([], []) := rfl
  unfold operations
  rw [hsame]
  split
  · rfl
  · rw [Except.map, List.take_take, Nat.min_eq_left h]

/-- The names of the operations are distinct. -/
theorem nodup_names_operations {ops : List Operation}
    (h : (schema.operations settings).1 = .ok ops) : (ops.map (·.name)).Nodup := by
  have hkept : ((schema.keptFields settings).map settings.finalName).Nodup :=
    nodup_unrepeated List.nodup_nil _
  have hnames : settings.finalName = Operation.name ∘ fun c => .ofField settings c.1 c.2 :=
    funext settings.finalName_eq
  rw [hnames] at hkept
  rw [eq_of_operations h, List.map_map]
  exact hkept.sublist ((List.take_sublist _ _).map _)

/-- A field that is kept is one of a type of the schema. -/
theorem exists_body_of_mem_keptFields {c : OperationKind × Field}
    (h : c ∈ schema.keptFields settings) :
    ∃ name body, schema.body? name = some body ∧ c.2 ∈ body.fields := by
  have hlisted := (unrepeated_sublist _ _).subset h
  have hincluded := (List.mem_filter.1 hlisted).1
  rw [includedFields_eq_flatMap] at hincluded
  obtain ⟨kind, -, hc⟩ := List.mem_flatMap.1 hincluded
  obtain ⟨f, hf, rfl⟩ := List.mem_map.1 hc
  unfold rootFields at hf
  cases hb : (schema.root? kind).bind schema.body? with
  | none => simp [hb] at hf
  | some body =>
    obtain ⟨name, -, hname⟩ := Option.bind_eq_some_iff.1 hb
    exact ⟨name, body, hname, by simpa [hb] using hf⟩

/-- A listed field is kept unless one before it has its name. -/
theorem mem_keptFields_of_first {before after : List (OperationKind × Field)}
    {c : OperationKind × Field} (h : schema.listedFields settings = before ++ c :: after)
    (hb : ∀ b ∈ before, settings.finalName b ≠ settings.finalName c) :
    c ∈ schema.keptFields settings := by
  rw [keptFields, h]
  exact mem_unrepeated_of_first List.not_mem_nil hb

end Schema

end OperationTools
