import OperationTools.Proofs.Tool.Fallback
import OperationTools.Proofs.Validator.PublishedSelection

/-!
# Published selections of tools

The schema that a tool publishes for its selections is narrower than its validator in one way: it has
no place for `null`, nor for a truth value where parts are selected, although both are accepted as
exclusions. An accepted selection satisfies the schema exactly if it holds no such exclusion under
the keys of strict validators; what is looked up lazily is not described. The fallback is published
as the default, and satisfies the schema exactly if no default key stands behind the limit on
fields.

## Main results

* `OutputTypes.Arises.satisfies_published_iff`: when an accepted selection satisfies the schema
* `OutputTypes.PolicyFor.satisfies_fallback_iff`: when the fallback satisfies the schema
* `Schema.satisfies_publishedSelection_iff`: both for the tools of a schema
-/

namespace OperationTools

namespace OutputTypes

variable {types : OutputTypes} {memo : Memo} {v c : Validator}

/-! ## Values without parts -/

/-- No schema of a selection has a place for `null`. -/
theorem Arises.satisfies_null (h : types.Arises memo v) :
    Json.null.satisfies v.published.toJson = false := by
  rw [← Bool.not_eq_true]
  cases h with
  | leaf | lazily =>
    simp [OutputTypes.lazily, Validator.published, JsonSchema.satisfies_ofType_iff, SchemaType.name,
      Json.typeNames]
  | strictly =>
    simp [node, Validator.published_strictSelection, JsonSchema.satisfies_object_iff]

/-- Only the schema of a leaf has a place for truth values. -/
theorem Arises.satisfies_bool_iff (h : types.Arises memo v) {b : Bool} :
    (Json.bool b).satisfies v.published.toJson = true ↔ v = .leaf := by
  cases h with
  | leaf =>
    simp [Validator.published, JsonSchema.satisfies_ofType_iff, SchemaType.name, Json.typeNames]
  | lazily =>
    simp [OutputTypes.lazily, Validator.published, JsonSchema.satisfies_ofType_iff, SchemaType.name,
      Json.typeNames]
  | strictly =>
    simp [node, Validator.published_strictSelection, JsonSchema.satisfies_object_iff]

/-- Only a leaf is asked for as a whole. -/
theorem Arises.takes_whole_iff (h : types.Arises memo v) :
    v.takes (.bool true) = true ↔ v = .leaf := by
  cases h with
  | leaf => exact iff_of_true rfl rfl
  | lazily => exact iff_of_false Bool.false_ne_true (by simp [OutputTypes.lazily])
  | strictly => exact iff_of_false Bool.false_ne_true (by simp [node])

/-- A switch satisfies the schema of whatever stands there unless it is an exclusion that the schema
has no place for. -/
theorem Arises.satisfies_switch_iff (h : types.Arises memo v) {x : Json}
    (hx : (Validator.leaf.report x).issues = []) :
    x.satisfies v.published.toJson = true ↔ ¬ v.Unpublished x := by
  cases x with
  | null => exact iff_of_false (by simp [h.satisfies_null]) (not_not_intro (.null v))
  | bool b =>
    rw [h.satisfies_bool_iff]
    constructor
    · rintro rfl
      exact Validator.not_unpublished_leaf b
    · intro hun
      by_contra hv
      exact hun (.whole b hv)
  | int | float | str | arr | obj =>
    simp [Validator.report, Validator.arrayReport, Validator.objectReport,
      Validator.shallowReport] at hx

/-! ## Strict validators -/

section Node

variable {n : String} {body : TypeBody} {part : String → Validator}

/-- Under a key of the schema stands a leaf or one of the parts. -/
theorem property?_node_cases {key : String}
    (h : (types.node n body part).property? key = some c) :
    c = .leaf ∨ ∃ m ∈ types.parts n body, c = part m := by
  by_cases hk : key = typenameKey
  · subst hk
    rw [node, Validator.property?, if_pos rfl] at h
    rcases Option.or_eq_some_iff.1 h with h | ⟨-, h⟩
    · obtain ⟨f, hf, he⟩ := List.mem_map.1 (Entries.mem_of_lookup h)
      exact .inr ⟨_, List.mem_append_left _ (List.mem_map_of_mem hf), (Prod.mk.inj he).2.symm⟩
    · exact .inl (Option.some.inj h).symm
  · rw [node, Validator.property?_eq_child? hk, ← node] at h
    exact child?_node_cases h

variable (types n body part) in
theorem exists_property?_typename :
    ∃ c, (types.node n body part).property? typenameKey = some c := by
  rw [← Option.isSome_iff_exists, node, Validator.property?, if_pos rfl, Option.isSome_or]
  simp

theorem arises_property? {left : Nat}
    (hp : ∀ m ∈ types.parts n body, types.Stands memo left m (part m)) {key : String}
    (h : (types.node n body part).property? key = some c) : types.Arises memo c := by
  rcases property?_node_cases h with rfl | ⟨m, hm, rfl⟩
  · exact .leaf
  · exact (hp m hm).arises

theorem satisfies_node_iff (hl : types.schema.Lawful) (hb : types.schema.body? n = some body)
    {entries : List (String × Json)} :
    (Json.obj entries).satisfies (types.node n body part).published.toJson = true ↔
      ∀ key x, entries.lookup key = some x →
        ∃ c, (types.node n body part).property? key = some c ∧
          x.satisfies c.published.toJson = true := by
  apply Validator.satisfies_strictSelection_iff
  rw [List.map_map]
  exact (hl.body hb).fields.sublist ((List.take_sublist _ _).map _)

/-- Where every key has a schema that refuses what holds an exclusion, so has the whole. -/
theorem satisfies_node_iff_not_unpublished (hl : types.schema.Lawful)
    (hb : types.schema.body? n = some body) {entries : List (String × Json)}
    (h : ∀ key x, entries.lookup key = some x →
      ∃ c, (types.node n body part).property? key = some c ∧
        (x.satisfies c.published.toJson = true ↔ ¬ c.Unpublished x)) :
    (Json.obj entries).satisfies (types.node n body part).published.toJson = true ↔
      ¬ (types.node n body part).Unpublished (.obj entries) := by
  rw [satisfies_node_iff hl hb, Validator.unpublished_obj_iff]
  constructor
  · rintro hall ⟨key, x, c, hlookup, hc, hun⟩
    obtain ⟨d, hd, hsatisfied⟩ := hall key x hlookup
    obtain ⟨e, he, hiff⟩ := h key x hlookup
    cases hc.symm.trans hd
    cases hc.symm.trans he
    exact hiff.1 hsatisfied hun
  · intro hall key x hlookup
    obtain ⟨c, hc, hiff⟩ := h key x hlookup
    exact ⟨c, hc, hiff.2 fun hun => hall ⟨key, x, c, hlookup, hc, hun⟩⟩

end Node

/-- An accepted selection satisfies the published schema exactly if it holds no exclusion that the
schema has no place for. -/
theorem Arises.satisfies_published_iff (hl : types.schema.Lawful) (h : types.Arises memo v)
    {x : Json} (hx : (v.report x).issues = []) :
    x.satisfies v.published.toJson = true ↔ ¬ v.Unpublished x := by
  -- induction on the selection, along the keys of strict validators
  induction x using Json.induction generalizing v with
  | scalar x harr hobj =>
    cases x with
    | null => exact h.satisfies_switch_iff rfl
    | bool b => exact h.satisfies_switch_iff rfl
    | int | float | str =>
      cases h <;> simp [node, OutputTypes.lazily, Validator.report, Validator.shallowReport] at hx
    | arr | obj => simp [Json.kind] at harr hobj
  | arr items =>
    cases h <;> simp [node, OutputTypes.lazily, Validator.report, Validator.arrayReport,
      Validator.shallowReport] at hx
  | obj entries ih =>
    have hchild := fun (key : String) (c : Validator) => @Arises.child types memo v c h key
    cases h with
    | leaf => simp [Validator.report, Validator.objectReport, Validator.shallowReport] at hx
    | lazily n =>
      refine iff_of_true (JsonSchema.satisfies_ofType_iff.2 List.mem_cons_self) ?_
      rw [Validator.unpublished_obj_iff]
      rintro ⟨_, _, _, -, hc, -⟩
      cases hc
    | @strictly _ n body part hb hc hp =>
      have hknown := Validator.issues_strictSelection_eq_nil_iff.1 hx
      refine satisfies_node_iff_not_unpublished hl hb fun key x hlookup => ?_
      have hmem := Entries.mem_of_lookup hlookup
      obtain ⟨c, hc, hissues⟩ := hknown _ hmem
      by_cases hk : key = typenameKey
      · subst hk
        rw [Validator.child?_strictSelection_typename] at hc
        cases hc
        obtain ⟨d, hd⟩ := exists_property?_typename types n body part
        exact ⟨d, hd, (arises_property? hp hd).satisfies_switch_iff hissues⟩
      · refine ⟨c, ?_, ih _ hmem (hchild key c hc) hissues⟩
        rw [node, Validator.property?_eq_child? hk]
        exact hc

/-! ## Fallbacks -/

/-- A default key `__typename` has the schema of a leaf, even if it is a field of the type. -/
theorem property?_typename_of_default (hl : types.schema.Lawful) {left : Nat} {n : String}
    {body : TypeBody} {part : String → Validator} (hb : types.schema.body? n = some body)
    (hp : ∀ m ∈ types.parts n body, types.Stands memo left m (part m))
    (hk : typenameKey ∈ types.schema.defaultKeys n) :
    (types.node n body part).property? typenameKey = some .leaf := by
  rw [node, Validator.property?, if_pos rfl]
  cases hlookup : ((types.knownFields body).map fun f => (f.name, part f.type.name)).lookup
      typenameKey with
  | none => rfl
  | some c =>
    obtain ⟨f, hf, he⟩ := List.mem_map.1 (Entries.mem_of_lookup hlookup)
    obtain ⟨hname, rfl⟩ := Prod.mk.inj he
    rcases (Schema.mem_defaultKeys_iff hb).1 hk with ⟨⟨_, rfl⟩, -⟩ | ⟨g, hg, hgname, hentry, -⟩
    · simp [knownFields, TypeBody.fields] at hf
    · obtain rfl : g = f := List.inj_on_of_nodup_map (hl.body hb).fields hg
        (List.mem_of_mem_take hf) (hgname.trans hname.symm)
      have hstands := hp g.type.name (List.mem_append_left _ (List.mem_map_of_mem hf))
      have hwhole := hstands.takes_whole_iff.2 (Schema.isComposite_eq_false_of_isLeaf hentry)
      rw [hstands.arises.takes_whole_iff.1 hwhole, Option.some_or]

/-- A default key has a schema with a place for `true` if it is `__typename` or a field that is
known. -/
theorem satisfies_default_iff (hl : types.schema.Lawful) {left : Nat} {n key : String}
    {body : TypeBody} {part : String → Validator} (hb : types.schema.body? n = some body)
    (hp : ∀ m ∈ types.parts n body, types.Stands memo left m (part m))
    (hk : key ∈ types.schema.defaultKeys n) :
    (∃ c, (types.node n body part).property? key = some c ∧
        (Json.bool true).satisfies c.published.toJson = true) ↔
      key = typenameKey ∨ key ∈ types.knownNames n := by
  by_cases htypename : key = typenameKey
  · subst htypename
    exact iff_of_true ⟨.leaf, property?_typename_of_default hl hb hp hk, rfl⟩ (.inl rfl)
  · rw [← takes_default_iff hl hb hp hk]
    apply exists_congr
    intro c
    have hchild : (types.node n body part).property? key = (types.node n body part).child? key :=
      Validator.property?_eq_child? htypename
    rw [← hchild]
    apply and_congr_right
    intro hc
    have harises := arises_property? hp hc
    rw [harises.satisfies_bool_iff, harises.takes_whole_iff]

theorem PolicyFor.validator_ne_anySelection {type : TypeRef} {p : SelectionPolicy}
    (h : types.PolicyFor memo (some type) p) : p.validator ≠ .anySelection := by
  cases h <;> simp [node]

/-- The fallback satisfies the published schema exactly if no default key stands behind the limit. -/
theorem PolicyFor.satisfies_fallback_iff (hl : types.schema.Lawful) {type : TypeRef}
    {p : SelectionPolicy} (h : types.PolicyFor memo (some type) p)
    (hc : types.schema.isComposite type.name = true) :
    p.fallback.satisfies p.published = true ↔ types.KnowsDefaults (some type) := by
  cases h with
  | leaf hleaf => simp [hc] at hleaf
  | @strict _ _ body part hb _ hp =>
    rw [SelectionPolicy.satisfies_published, SelectionPolicy.fallback, satisfies_node_iff hl hb]
    constructor
    · rintro h _ ⟨⟩ key hk
      exact (satisfies_default_iff hl hb hp hk).1
        (h key _ (Entries.lookup_map_of_mem (fun _ => Json.bool true) hk))
    · intro h key x hlookup
      obtain ⟨k, hk, he⟩ := List.mem_map.1 (Entries.mem_of_lookup hlookup)
      obtain ⟨rfl, rfl⟩ := Prod.mk.inj he
      exact (satisfies_default_iff hl hb hp hk).2 (h type rfl k hk)

end OutputTypes

namespace Schema

/-- The schema that a tool with parts to select publishes. An accepted selection satisfies it exactly
if it holds no exclusion that the schema has no place for. The fallback, which is its default,
satisfies it exactly if no default key stands behind the limit on fields. -/
theorem satisfies_publishedSelection_iff {schema : Schema} (hl : schema.Lawful)
    {settings : Settings} {scalars : ScalarTable} {memo : Memo}
    (hm : schema.Fills settings scalars memo) {set : ToolSet}
    (h : (schema.tools settings memo scalars).1 = .ok set) {tool : Tool} (ht : tool ∈ set.tools)
    {type : TypeRef} (hr : tool.operation.result = some type)
    (hc : schema.isComposite type.name = true) :
    (∀ entries selected, entries ≠ [] → tool.acceptSelection (.obj entries) = .ok selected →
        ((Json.obj entries).satisfies tool.publishedSelection = true ↔
          ¬ tool.selection.validator.Unpublished (.obj entries))) ∧
      (tool.selection.fallback.satisfies tool.publishedSelection = true ↔
        ({ schema, settings } : OutputTypes).KnowsDefaults tool.operation.result) ∧
      tool.publishedSelection.entries.lookup "default" = some tool.selection.fallback := by
  obtain ⟨ops, log, -, h⟩ := exists_operations_of_tools h
  obtain ⟨-, hcompiled⟩ := compiled_of_toolsFor hm h ht
  obtain ⟨memo, hp⟩ := hcompiled.policyFor
  rw [hr] at hp ⊢
  refine ⟨fun entries selected hne hok => ?_, hp.satisfies_fallback_iff hl hc,
    tool.selection.lookup_default⟩
  have hany := hp.validator_ne_anySelection
  obtain ⟨htakes, -⟩ := (hcompiled.acceptSelection_obj_eq_ok_iff hany hne).1 hok
  rw [Tool.publishedSelection, SelectionPolicy.satisfies_published]
  exact (hp.arises.resolve_left hany).satisfies_published_iff hl (Validator.takes_iff.1 htakes).2

/-- Users with a friend. -/
def befriended : Schema where
  types :=
    [⟨"User", .object [] [⟨"id", .named "ID", [], none⟩, ⟨"friend", .named "User", [], none⟩]⟩,
      ⟨"Query", .object [] [⟨"user", .named "User", [], none⟩]⟩,
      ⟨"ID", .scalar⟩]
  roots := [(.query, "Query")]

/-- A selection without the friend. -/
def friendless : List (String × Json) := [("friend", .bool false)]

/-- The friend may be excluded, but the published schema asks for an object there. -/
theorem not_satisfies_friendless :
    ¬ ∀ set tool selected, (befriended.tools {}).1 = .ok set → tool ∈ set.tools →
      tool.acceptSelection (.obj friendless) = .ok selected →
        (Json.obj friendless).satisfies tool.publishedSelection = true := by
  intro h
  have hsatisfied := h _ _ (.obj friendless) rfl List.mem_cons_self rfl
  revert hsatisfied
  decide +kernel

/-- The selection without the friend is accepted and does not satisfy the schema, but the default
does. -/
theorem satisfies_default_friendless : befriended.Lawful ∧
    ∃ set, (befriended.tools {}).1 = .ok set ∧ ∃ tool ∈ set.tools,
      tool.operation.result = some (.named "User") ∧ befriended.isComposite "User" = true ∧
        tool.acceptSelection (.obj friendless) = .ok (.obj friendless) ∧
        (Json.obj friendless).satisfies tool.publishedSelection = false ∧
        tool.selection.fallback.satisfies tool.publishedSelection = true := by
  have hl : befriended.Lawful := by decide +kernel
  have hc : befriended.isComposite "User" = true := by decide +kernel
  refine ⟨hl, _, rfl, _, List.mem_cons_self, rfl, hc, rfl, ?_⟩
  obtain ⟨haccepted, hfallback, -⟩ := satisfies_publishedSelection_iff hl
    (show befriended.Fills {} .standard {} from .empty)
    (show (befriended.tools {}).1 = .ok _ from rfl) List.mem_cons_self
    (show _ = some (.named "User") from rfl) hc
  constructor
  · rw [← Bool.not_eq_true, haccepted friendless _ (by decide) rfl, not_not]
    have hfriend : friendless.lookup "friend" = some (.bool false) := rfl
    exact .under hfriend rfl (.whole false (by simp [OutputTypes.lazily]))
  · refine hfallback.2 fun type htype key hkey => ?_
    cases htype
    revert key
    decide +kernel

end Schema

end OperationTools
