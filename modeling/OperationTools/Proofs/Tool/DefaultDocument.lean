import OperationTools.Proofs.Tool.Fallback

/-!
# Documents without a selection

Where the caller selects nothing, the fallback is rendered. It has the entries that can be asked for
right away: `__typename` of a union, and of an object or interface the leaves whose arguments may
all be null. Fields with parts are left to the caller, so a type may have no entries. Then there are
no braces, and the document ends with the call of the root field.

## Main definitions

* `Operation.calling`, `Operation.selecting`: documents without and with entries

## Main results

* `Operation.document_entries`: entries are written between braces
* `Schema.query_without_selection`: what is rendered without a selection
-/

namespace OperationTools

open Token (isName)

namespace Operation

/-- The document that ends with the call of the root field. -/
def calling (op : Operation) : String :=
  op.kind.keyword ++ " " ++ op.name ++ op.declarations ++ " \x7b " ++ op.fieldName ++ op.bindings ++
    " \x7d"

/-- The document that selects entries between braces behind the call of the root field. -/
def selecting (op : Operation) (entries : List String) : String :=
  op.kind.keyword ++ " " ++ op.name ++ op.declarations ++ " \x7b " ++ op.fieldName ++ op.bindings ++
    " \x7b " ++ " ".intercalate entries ++ " \x7d \x7d"

/-- Braces can be told from their absence. -/
theorem calling_ne_selecting (op : Operation) (entries : List String) :
    op.calling ≠ op.selecting entries := by
  intro h
  have hlength := congrArg String.length h
  simp only [calling, selecting, String.length_append] at hlength
  have hclose : " \x7d".length = 2 := by decide
  have hcloses : " \x7d \x7d".length = 4 := by decide
  omega

/-- Nothing is written of no parts. -/
theorem document_nil (op : Operation) : op.document (some (.parts [])) = op.calling := by
  simp [document, call, calling, Selection.text, Selection.fieldTexts, String.append_assoc]

/-- Entries are written one after the other. -/
theorem text_entries (entries : List String) :
    (Selection.parts (entries.map fun k => (k, .whole))).text = " ".intercalate entries := by
  simp [Selection.text, Selection.fieldTexts_eq_filterMap, List.filterMap_map,
    Function.comp_def, Selection.fieldText?]

/-- Names are written between braces if there are any. -/
theorem document_entries (op : Operation) {entries : List String} (hne : entries ≠ [])
    (hnames : ∀ k ∈ entries, isName k = true) :
    op.document (some (.parts (entries.map fun k => (k, .whole)))) = op.selecting entries := by
  have htext : " ".intercalate entries ≠ "" := by
    obtain ⟨k, rest, rfl⟩ := List.exists_cons_of_ne_nil hne
    obtain ⟨before, after, haround⟩ := Selection.exists_intercalate_around " " [] rest
    have hk : k ≠ "" := by
      rintro rfl
      exact absurd (hnames "" List.mem_cons_self) (by decide)
    rw [show k :: rest = [] ++ k :: rest from rfl, haround k]
    exact Selection.append_ne_empty hk
  rw [document, call, Option.map_some, text_entries]
  simp [String.isEmpty_eq_false_iff.2 htext, selecting, String.append_assoc]

end Operation

/-- No selection at all is rendered as the empty one. -/
theorem Tool.render_null (tool : Tool) (values : Json) :
    tool.render values .null = tool.render values (.obj []) := rfl

/-- The keys of the fallback for a composite result are its entries. -/
theorem OutputTypes.PolicyFor.fallbackKeys_eq {types : OutputTypes} {memo : Memo} {type : TypeRef}
    {p : SelectionPolicy} (h : types.PolicyFor memo (some type) p)
    (hc : types.schema.isComposite type.name = true) :
    p.fallbackKeys = types.schema.defaultKeys type.name := by
  cases h with
  | leaf hleaf => cases hleaf.symm.trans hc
  | strict => rfl

namespace Schema

/-- Without a selection a document is rendered for all accepted variables. If the result type is a
union or has a field that can be asked for right away, the entries stand between braces, and else
the document ends with the call of the root field. -/
theorem query_without_selection {schema : Schema} (hl : schema.Lawful) (hn : schema.Named)
    {settings : Settings} {scalars : ScalarTable} {memo : Memo}
    (hm : schema.Fills settings scalars memo) {set : ToolSet}
    (h : (schema.tools settings memo scalars).1 = .ok set) {tool : Tool} (ht : tool ∈ set.tools)
    {type : TypeRef} (hr : tool.operation.result = some type) {body : TypeBody}
    (hb : schema.body? type.name = some body) (hcomposite : body.isComposite = true)
    {values accepted : Json} (hv : (tool.acceptVariables values).1 = .ok accepted) :
    ∃ rendered entries, (tool.render values .null).1 = .ok rendered ∧
      (tool.render values (.obj [])).1 = .ok rendered ∧
      (entries ≠ [] → rendered.query = tool.operation.selecting entries) ∧
      (entries = [] → rendered.query = tool.operation.calling) ∧
      (entries ≠ [] ↔ (∃ members, body = .union members) ∨ ∃ f ∈ body.fields, schema.IsEntry f) ∧
      ∀ key, key ∈ entries ↔ (∃ members, body = .union members) ∧ key = typenameKey ∨
        ∃ f ∈ body.fields, f.name = key ∧ schema.IsEntry f := by
  obtain ⟨ops, log, hops, h⟩ := exists_operations_of_tools h
  obtain ⟨hop, hc⟩ := compiled_of_toolsFor hm h ht
  obtain ⟨memo, hp⟩ := hc.policyFor
  rw [hr] at hp
  have hkeys : tool.selection.fallbackKeys = schema.defaultKeys type.name :=
    hp.fallbackKeys_eq (OutputTypes.isComposite_of_body? hb hcomposite)
  have hfallback : Selection.ofJson tool.selection.fallback =
      .parts ((schema.defaultKeys type.name).map fun k => (k, .whole)) := by
    simp [SelectionPolicy.fallback, Selection.ofJson, hkeys]
  have hempty := hc.render_empty (hl.nodup_arguments hops hop) hv
  rw [hfallback] at hempty
  have hnull := hempty
  rw [← Tool.render_null] at hnull
  refine ⟨_, schema.defaultKeys type.name, hnull, hempty, fun hne => ?_, fun hnil => ?_,
    defaultKeys_ne_nil_iff hb, fun key => mem_defaultKeys_iff hb⟩
  · exact Operation.document_entries _ hne fun k hk => hn.isName_of_mem_defaultKeys hb hk
  · dsimp only
    rw [hnil, List.map_nil, Operation.document_nil]

/-- A pet is asked for its name, but not for its owner, who would have to be asked for more. -/
example :
    let pets : Schema :=
      { types :=
          [⟨"Pet", .object [] [⟨"name", .named "String", [], none⟩,
              ⟨"owner", .named "Pet", [], none⟩]⟩,
            ⟨"Query", .object [] [⟨"pet", .named "Pet", [], none⟩]⟩, ⟨"String", .scalar⟩]
        roots := [(.query, "Query")] }
    (pets.tools {}).1.toOption.map (fun set => set.tools.map fun tool =>
      (tool.render (.obj []) .null).1.toOption.map (·.query)) =
        some [some "query pet \x7b pet \x7b name \x7d \x7d"] := by
  decide +kernel

/-- A type whose only field leads to the type itself. -/
def chains : Schema where
  types :=
    [⟨"Chain", .object [] [⟨"rest", .named "Chain", [], none⟩]⟩,
      ⟨"Query", .object [] [⟨"chain", .named "Chain", [], none⟩]⟩]
  roots := [(.query, "Query")]

/-- Without a selection nothing is selected of a chain. -/
theorem query_without_braces :
    ¬ ∀ set tool rendered, (chains.tools {}).1 = .ok set → tool ∈ set.tools →
      (tool.render (.obj []) .null).1 = .ok rendered →
        ∃ entries, entries ≠ [] ∧ rendered.query = tool.operation.selecting entries := by
  intro h
  obtain ⟨entries, -, hquery⟩ := h _ _ _ rfl List.mem_cons_self rfl
  refine Operation.calling_ne_selecting _ entries (Eq.trans ?_ hquery)
  decide +kernel

/-- Without a selection both fields of a user are selected. -/
theorem query_users :
    users.Lawful ∧ users.Named ∧ ∃ set, (users.tools {}).1 = .ok set ∧ ∃ tool ∈ set.tools,
      ∃ rendered entries, (tool.render (.obj []) .null).1 = .ok rendered ∧
        rendered.query = tool.operation.selecting entries ∧ "id" ∈ entries ∧ "name" ∈ entries := by
  have hl : users.Lawful := by decide +kernel
  have hn : users.Named := by decide +kernel
  have hm : users.Fills {} .standard {} := .empty
  refine ⟨hl, hn, _, rfl, _, List.mem_cons_self, ?_⟩
  obtain ⟨rendered, entries, hr, -, hquery, -, -, hmem⟩ := query_without_selection hl hn hm
    (show (users.tools {}).1 = .ok _ from rfl) List.mem_cons_self
    (show _ = some (.named "User") from rfl) (show users.body? "User" = some _ from rfl) rfl
    (show (Tool.acceptVariables _ (.obj [])).1 = .ok (.obj []) from rfl)
  have hid : "id" ∈ entries :=
    (hmem "id").2 (.inr ⟨_, List.mem_cons_self, rfl, by decide +kernel, by simp⟩)
  have hname : "name" ∈ entries :=
    (hmem "name").2 (.inr ⟨_, List.mem_cons_of_mem _ List.mem_cons_self, rfl, by decide +kernel,
      by simp⟩)
  exact ⟨rendered, entries, hr, hquery (List.ne_nil_of_mem hid), hid, hname⟩

end Schema

end OperationTools
