import OperationTools.Proofs.Schema.DefaultKeys
import OperationTools.Proofs.Tool.Render

/-!
# Rendering the fallback

An empty selection is rendered as the fallback, which is not checked. If the fallback is given as it
stands, it is checked, and the strict validator of the result refuses the fields behind its limit.
So both render the same document exactly if no default key stands behind the limit.

## Main definitions

* `OutputTypes.KnowsDefaults`: no default key stands behind the limit on fields

## Main results

* `OutputTypes.PolicyFor.takes_fallback_iff`: when a fallback is taken
* `Schema.query_fallback_iff`: when the fallback is rendered as an empty selection is
-/

namespace OperationTools

namespace OutputTypes

variable {types : OutputTypes}

variable (types) in
/-- The default keys of a result are `__typename` or among the fields that its strict validator
knows. -/
def KnowsDefaults (result : Option TypeRef) : Prop :=
  ∀ type, result = some type → ∀ key ∈ types.schema.defaultKeys type.name,
    key = typenameKey ∨ key ∈ types.knownNames type.name

/-- A type with fields is narrowed to types with parts. -/
theorem isComposite_of_mem_narrowings (hl : types.schema.Lawful) {n m : String} {body : TypeBody}
    (hb : types.schema.body? n = some body) {f : Field} (hf : f ∈ body.fields)
    (hm : m ∈ types.knownNarrowings n) : types.schema.isComposite m = true := by
  rw [knownNarrowings, Schema.narrowings, hb] at hm
  cases body with
  | interface =>
    dsimp only at hm
    split at hm
    · exact hl.isComposite_of_mem_possibleTypes hm
    · cases hm
  | object => cases hm
  | scalar | union | enum | input => cases hf

/-- Nothing with parts is asked for as a whole. -/
theorem Stands.takes_whole_iff {memo : Memo} {left : Nat} {n : String} {v : Validator}
    (h : types.Stands memo left n v) :
    v.takes (.bool true) = true ↔ types.schema.isComposite n = false := by
  cases h with
  | leaf hc => simp [hc, Validator.takes, Validator.overreaches, Validator.accepts,
      Validator.report, Validator.shallowReport]
  | lazily hc => simp [hc, OutputTypes.lazily, Validator.takes, Validator.accepts,
      Validator.report, Validator.shallowReport]
  | strictly hb hc => simp [isComposite_of_body? hb hc, node, Validator.takes, Validator.accepts,
      Validator.report, Validator.shallowReport]

/-- A strict validator takes a default key if it is `__typename` or a field that it knows. -/
theorem takes_default_iff (hl : types.schema.Lawful) {memo : Memo} {left : Nat} {n key : String}
    {body : TypeBody} {part : String → Validator} (hb : types.schema.body? n = some body)
    (hp : ∀ m ∈ types.parts n body, types.Stands memo left m (part m))
    (hk : key ∈ types.schema.defaultKeys n) :
    (∃ c, (types.node n body part).child? key = some c ∧ c.takes (.bool true) = true) ↔
      key = typenameKey ∨ key ∈ types.knownNames n := by
  rw [knownNames_eq hb]
  by_cases htypename : key = typenameKey
  · rw [htypename, child?_node, if_pos rfl]
    exact ⟨fun _ => .inl rfl, fun _ => ⟨_, rfl, rfl⟩⟩
  · obtain ⟨g, hg, hname, hleaf, -⟩ :=
      ((Schema.mem_defaultKeys_iff hb).1 hk).resolve_left fun h => htypename h.2
    have hd := (hl.body hb).fields
    rw [or_iff_right htypename]
    constructor
    · rintro ⟨c, hc, ht⟩
      by_contra hkey
      rw [child?_node_other hkey htypename] at hc
      split at hc
      · rename_i hm
        cases hc
        have hstands := hp key (List.mem_append_right _ hm)
        rw [hstands.takes_whole_iff, isComposite_of_mem_narrowings hl hb hg hm] at ht
        cases ht
      · cases hc
    · intro hkey
      obtain ⟨f, hf, rfl⟩ := List.mem_map.1 hkey
      obtain rfl : g = f :=
        List.inj_on_of_nodup_map hd hg (List.mem_of_mem_take hf) hname
      refine ⟨_, child?_node_field hd hf htypename, ?_⟩
      have hstands := hp g.type.name (List.mem_append_left _ (List.mem_map_of_mem hf))
      exact hstands.takes_whole_iff.2 (Schema.isComposite_eq_false_of_isLeaf hleaf)

/-- A fallback is taken exactly if no default key stands behind the limit. -/
theorem PolicyFor.takes_fallback_iff (hl : types.schema.Lawful) {memo : Memo}
    {result : Option TypeRef} {p : SelectionPolicy} (h : types.PolicyFor memo result p) :
    p.takes p.fallback = true ↔ types.KnowsDefaults result := by
  cases h with
  | untyped => exact ⟨fun _ _ h => (nomatch h), fun _ => rfl⟩
  | leaf hc =>
    refine ⟨fun _ type h key hk => ?_, fun _ => rfl⟩
    cases h
    rw [defaultKeys_eq_nil hc] at hk
    cases hk
  | @strict _ type body part hb hc hp =>
    have hknows : types.KnowsDefaults (some type) ↔ ∀ key ∈ types.schema.defaultKeys type.name,
        ∃ c, (types.node type.name body part).child? key = some c ∧
          c.takes (.bool true) = true := by
      refine ⟨fun h key hk => (takes_default_iff hl hb hp hk).2 (h type rfl key hk), ?_⟩
      rintro h _ ⟨⟩ key hk
      exact (takes_default_iff hl hb hp hk).1 (h key hk)
    rw [hknows, SelectionPolicy.fallback]
    cases hkeys : types.schema.defaultKeys type.name with
    | nil => exact ⟨fun _ => by simp, fun _ => rfl⟩
    | cons key rest =>
      rw [SelectionPolicy.takes_obj (by simp), node, Validator.takes_strictSelection_iff]
      simp

/-- An operation without a result has no default keys. -/
theorem PolicyFor.fallbackKeys_eq_nil {memo : Memo} {result : Option TypeRef} {p : SelectionPolicy}
    (h : types.PolicyFor memo result p) (hv : p.validator = .anySelection) :
    p.fallbackKeys = [] := by
  cases h with
  | untyped => rfl
  | leaf => cases hv
  | strict => cases hv

end OutputTypes

namespace Tool.Compiled

variable {inputs : InputTypes} {outputs : OutputTypes} {tool : Tool}

/-- The fallback is accepted as it is if it is taken. -/
theorem acceptSelection_fallback_eq_ok_iff (hc : tool.Compiled inputs outputs) {selected : Json} :
    tool.acceptSelection tool.selection.fallback = .ok selected ↔
      tool.selection.takes tool.selection.fallback = true ∧ selected = tool.selection.fallback := by
  cases hkeys : tool.selection.fallbackKeys with
  | nil =>
    have hjudge : tool.selection.judge (.obj []) = .ok tool.selection.fallback := rfl
    have hfallback : tool.selection.fallback = .obj [] := by
      rw [SelectionPolicy.fallback, hkeys, List.map_nil]
    rw [hfallback] at hjudge ⊢
    rw [acceptSelection, mapError_eq_ok_iff, SelectionPolicy.takes, hjudge]
    simp [Except.isOk, Except.toBool, eq_comm]
  | cons key rest =>
    obtain ⟨memo, hp⟩ := hc.policyFor
    have hany : tool.selection.validator ≠ .anySelection := by
      intro hv
      simp [hp.fallbackKeys_eq_nil hv] at hkeys
    have hne : tool.selection.fallbackKeys.map (fun key => (key, Json.bool true)) ≠ [] := by
      simp [hkeys]
    rw [SelectionPolicy.fallback, hc.acceptSelection_obj_eq_ok_iff hany hne,
      SelectionPolicy.takes_obj hne]

variable {values accepted : Json}

/-- An empty selection is rendered as the fallback. -/
theorem render_empty (hc : tool.Compiled inputs outputs)
    (hd : (tool.operation.arguments.map (·.name)).Nodup)
    (hv : (tool.acceptVariables values).1 = .ok accepted) :
    (tool.render values (.obj [])).1 = .ok
      { query := tool.operation.document (some (.ofJson tool.selection.fallback))
        values := accepted } :=
  render_eq_ok_iff.2 ⟨hv, tool.selection.fallback, rfl, hc.documentFor_eq_ok hd hv _⟩

/-- The fallback is rendered in the same way if it is taken, and else not at all. -/
theorem render_fallback_eq_ok_iff (hc : tool.Compiled inputs outputs)
    (hd : (tool.operation.arguments.map (·.name)).Nodup)
    (hv : (tool.acceptVariables values).1 = .ok accepted) {r : Rendered} :
    (tool.render values tool.selection.fallback).1 = .ok r ↔
      tool.selection.takes tool.selection.fallback = true ∧
        (tool.render values (.obj [])).1 = .ok r := by
  have hwrite : (tool.write values tool.selection.fallback).1 =
      .ok (tool.operation.document (some (.ofJson tool.selection.fallback))) :=
    hc.documentFor_eq_ok hd hv _
  rw [render_eq_ok_iff, hc.render_empty hd hv, hv]
  constructor
  · rintro ⟨hval, selected, hsel, hq⟩
    obtain ⟨ht, rfl⟩ := hc.acceptSelection_fallback_eq_ok_iff.1 hsel
    rw [hwrite] at hq
    cases hval
    cases r
    cases hq
    exact ⟨ht, rfl⟩
  · rintro ⟨ht, hr⟩
    cases hr
    exact ⟨rfl, _, hc.acceptSelection_fallback_eq_ok_iff.2 ⟨ht, rfl⟩, hwrite⟩

end Tool.Compiled

namespace Schema

/-- An empty selection is rendered for all accepted variables. The fallback itself is rendered, and
gives the same document, exactly if no default key stands behind the limit on fields. -/
theorem query_fallback_iff {schema : Schema} (hl : schema.Lawful) {settings : Settings}
    {scalars : ScalarTable} {memo : Memo} (hm : schema.Fills settings scalars memo) {set : ToolSet}
    (h : (schema.tools settings memo scalars).1 = .ok set) {tool : Tool} (ht : tool ∈ set.tools)
    {values accepted : Json} (hv : (tool.acceptVariables values).1 = .ok accepted) :
    ∃ rendered, (tool.render values (.obj [])).1 = .ok rendered ∧
      ((∃ r, (tool.render values tool.selection.fallback).1 = .ok r ∧ r.query = rendered.query) ↔
        ({ schema, settings } : OutputTypes).KnowsDefaults tool.operation.result) := by
  obtain ⟨ops, log, hops, h⟩ := exists_operations_of_tools h
  obtain ⟨hop, hc⟩ := compiled_of_toolsFor hm h ht
  have hd := hl.nodup_arguments hops hop
  obtain ⟨memo, hp⟩ := hc.policyFor
  have hempty := hc.render_empty hd hv
  refine ⟨_, hempty, ?_⟩
  rw [← hp.takes_fallback_iff hl]
  constructor
  · rintro ⟨r, hr, -⟩
    exact ((hc.render_fallback_eq_ok_iff hd hv).1 hr).1
  · intro htakes
    exact ⟨_, (hc.render_fallback_eq_ok_iff hd hv).2 ⟨htakes, hempty⟩, rfl⟩

/-- A type with two fields. -/
def users : Schema where
  types :=
    [⟨"User", .object [] [⟨"id", .named "ID", [], none⟩, ⟨"name", .named "String", [], none⟩]⟩,
      ⟨"Query", .object [] [⟨"user", .named "User", [], none⟩]⟩,
      ⟨"ID", .scalar⟩, ⟨"String", .scalar⟩]
  roots := [(.query, "Query")]

/-- With a limit of one field the fallback is refused. -/
theorem query_fallback_users :
    ¬ ∀ set tool, (users.tools { maxSelectionFields := 1 }).1 = .ok set → tool ∈ set.tools →
      ∃ r, (tool.render (.obj []) tool.selection.fallback).1 = .ok r := by
  intro h
  obtain ⟨r, hr⟩ := h _ _ rfl List.mem_cons_self
  have hok := (congrArg Except.isOk hr).trans (show _ = true from rfl)
  revert hok
  decide +kernel

/-- An empty selection is rendered with a limit of one field, but not the fallback itself. -/
theorem query_empty_users : users.Lawful ∧
    ∃ set, (users.tools { maxSelectionFields := 1 }).1 = .ok set ∧ ∃ tool ∈ set.tools,
      ∃ rendered, (tool.render (.obj []) (.obj [])).1 = .ok rendered ∧
        ¬ ∃ r, (tool.render (.obj []) tool.selection.fallback).1 = .ok r ∧
          r.query = rendered.query := by
  have hl : users.Lawful := by decide +kernel
  have hm : users.Fills { maxSelectionFields := 1 } .standard {} := .empty
  refine ⟨hl, _, rfl, _, List.mem_cons_self, ?_⟩
  obtain ⟨rendered, hr, hiff⟩ := query_fallback_iff hl hm
    (show (users.tools { maxSelectionFields := 1 }).1 = .ok _ from rfl) List.mem_cons_self
    (show (Tool.acceptVariables _ (.obj [])).1 = .ok (.obj []) from rfl)
  refine ⟨rendered, hr, fun hsame => ?_⟩
  have hname := hiff.1 hsame (.named "User") rfl "name" (by decide +kernel)
  revert hname
  decide +kernel

end Schema

end OperationTools
