import OperationTools.Proofs.Compilation.OutputWellTyped
import OperationTools.Proofs.Document.RoundTrip
import OperationTools.Proofs.Tool.Fallback

/-!
# Stray keys

Keys are written into a document as they are. Strict validators know all keys, and what a validator
of a named schema knows is a name. An open selection lets the keys pass that it does not know, with
all that stands under them. Only these stray keys can be anything else than names; as long as they
are names, the document says what it should.

## Main definitions

* `Validator.isOpen`: validators that let unknown keys pass
* `Validator.strayKeys`, `Tool.strayKeys`: the keys that pass unknown, and those under them
* `Selection.writtenParts`: what is written of a value

## Main results

* `OutputTypes.Arises.isName_or_mem_strayKeys`: an accepted key is a name or stray
* `Schema.read?_query_of_ofText`: which documents are read back for the schema of a text
* `Schema.read?_query`: what a rendered document says
-/

namespace OperationTools

open Token (isName)

namespace Validator

/-- Whether keys that are not known pass. -/
def isOpen : Validator → Bool
  | .openSelection .. | .lazySelection .. => true
  | _ => false

mutual

/-- The stray keys inside what is selected of a value. -/
def strayKeysIn (v : Validator) : Selection → List String
  | .parts children => strayKeys v children
  | _ => []

/-- The keys of parts that pass unknown, and all keys under these. -/
def strayKeys (v : Validator) : List (String × Selection) → List String
  | [] => []
  | (key, s) :: rest =>
    let stray := match v.child? key with
      | some c => strayKeysIn c s
      | none => if v.isOpen then key :: Selection.innerKeys s else []
    stray ++ strayKeys v rest

end

theorem mem_strayKeys_of_mem {v : Validator} {children : List (String × Selection)}
    {e : String × Selection} (he : e ∈ children) {k : String} (hk : k ∈ v.strayKeys [e]) :
    k ∈ v.strayKeys children := by
  induction children with
  | nil => cases he
  | cons first rest ih =>
    have hcons : v.strayKeys (first :: rest) = v.strayKeys [first] ++ v.strayKeys rest := by
      simp [strayKeys]
    rw [hcons, List.mem_append]
    rcases List.mem_cons.1 he with rfl | he
    · exact .inl hk
    · exact .inr (ih he)

theorem mem_strayKeys_of_child? {v c : Validator} {children : List (String × Selection)}
    {e : String × Selection} (he : e ∈ children) (hc : v.child? e.1 = some c) {k : String}
    (hk : k ∈ strayKeysIn c e.2) : k ∈ v.strayKeys children :=
  mem_strayKeys_of_mem he (by simpa [strayKeys, hc] using hk)

theorem mem_strayKeys_of_isOpen {v : Validator} {children : List (String × Selection)}
    {e : String × Selection} (he : e ∈ children) (hnone : v.child? e.1 = none)
    (ho : v.isOpen = true) {k : String} (hk : k = e.1 ∨ k ∈ Selection.innerKeys e.2) :
    k ∈ v.strayKeys children :=
  mem_strayKeys_of_mem he (by simpa [strayKeys, hnone, ho] using hk)

mutual

theorem strayKeysIn_eq_nil (v : Validator)
    (h : ∀ path c, v.at? path = some c → c.isOpen = false) :
    (s : Selection) → v.strayKeysIn s = []
  | .whole => rfl
  | .omitted => rfl
  | .parts children => strayKeys_eq_nil v h children

/-- Where no open selection stands there are no stray keys. -/
theorem strayKeys_eq_nil (v : Validator)
    (h : ∀ path c, v.at? path = some c → c.isOpen = false) :
    (children : List (String × Selection)) → v.strayKeys children = []
  | [] => rfl
  | (key, s) :: rest => by
    rw [strayKeys, strayKeys_eq_nil v h rest]
    cases hc : v.child? key with
    | none => simp [h [] v rfl]
    | some c =>
      have hinner : ∀ path d, c.at? path = some d → d.isOpen = false :=
        fun path d hd => h (key :: path) d (Option.bind_eq_some_iff.2 ⟨c, hc, hd⟩)
      simp [strayKeysIn_eq_nil c hinner s]

end

mutual

theorem strayKeysIn_subset (v : Validator) :
    (s : Selection) → v.strayKeysIn s ⊆ Selection.innerKeys s
  | .whole => List.nil_subset _
  | .omitted => List.nil_subset _
  | .parts children => strayKeys_subset v children

/-- Stray keys are keys. -/
theorem strayKeys_subset (v : Validator) :
    (children : List (String × Selection)) → v.strayKeys children ⊆ Selection.keys children
  | [] => List.nil_subset _
  | (key, s) :: rest => by
    intro k hk
    rw [strayKeys, List.mem_append] at hk
    rw [Selection.keys, List.mem_append]
    refine hk.imp (fun hk => ?_) fun hk => strayKeys_subset v rest hk
    cases hc : v.child? key with
    | none =>
      rw [hc] at hk
      dsimp only at hk
      split at hk
      · exact hk
      · cases hk
    | some c =>
      rw [hc] at hk
      exact List.mem_cons_of_mem _ (strayKeysIn_subset c s hk)

end

end Validator

namespace Selection

/-- What is written of a value that stands for parts. -/
def writtenParts (x : Json) : List (String × Selection) := Json.selectedEntries x.entries

end Selection

/-! ## Validators of named schemas -/

namespace OutputTypes

variable {types : OutputTypes}

/-- A type is narrowed under names. -/
theorem isName_of_mem_narrowings (hn : types.schema.Named) {n m : String}
    (hm : m ∈ types.knownNarrowings n) : isName m = true := by
  rw [knownNarrowings, Schema.narrowings] at hm
  split at hm
  · rename_i members hb
    exact (hn.body hb).members m hm
  · split at hm
    · obtain ⟨t, ht, hm⟩ := List.mem_flatMap.1 hm
      split at hm
      · obtain ⟨-, -, rfl⟩ := List.mem_map.1 hm
        exact (hn t ht).1
      · cases hm
    · cases hm
  · cases hm

/-- What is found under a key has the key for its name. -/
theorem isName_of_find? {α : Type} (name : α → String) {as : List α} {a : α} {key : String}
    (h : ∀ a ∈ as, isName (name a) = true) (ha : as.find? (name · == key) = some a) :
    isName key = true := by
  have hkey : name a = key := by simpa using List.find?_some ha
  rw [← hkey]
  exact h a (List.mem_of_find?_eq_some ha)

theorem isName_of_fieldType? (hn : types.schema.Named) {n key m : String}
    (h : types.schema.fieldType? n key = some m) : isName key = true := by
  unfold Schema.fieldType? at h
  split at h
  · rename_i hb
    obtain ⟨f, hf, -⟩ := Option.map_eq_some_iff.1 h
    exact isName_of_find? Field.name (fun f hf => ((hn.body hb).fields f hf).name) hf
  · rename_i hb
    obtain ⟨f, hf, -⟩ := Option.map_eq_some_iff.1 h
    exact isName_of_find? Field.name (fun f hf => ((hn.body hb).fields f hf).name) hf
  · rename_i hb
    obtain ⟨f, hf, -⟩ := Option.map_eq_some_iff.1 h
    exact isName_of_find? InputField.name (hn.body hb).inputFields hf
  · cases h

/-- The keys that a validator of a named schema knows are names. -/
theorem Arises.isName_of_child? (hn : types.schema.Named) {memo : Memo} {v c : Validator}
    (h : types.Arises memo v) {key : String} (hc : v.child? key = some c) : isName key = true := by
  by_cases hk : key = typenameKey
  · rw [hk]
    exact Token.isName_typenameKey
  cases h with
  | leaf => cases hc
  | lazily n =>
    rw [child?_lazily, resolve?, if_neg hk] at hc
    obtain ⟨part, hpart, -⟩ := Option.map_eq_some_iff.1 hc
    unfold Schema.part? at hpart
    split at hpart
    · exact isName_of_fieldType? hn ‹_›
    · split at hpart
      · exact isName_of_mem_narrowings hn (List.contains_iff_mem.1 ‹_›)
      · cases hpart
  | @strictly _ n body part hb _ _ =>
    rw [child?_node, if_neg hk] at hc
    rcases Option.or_eq_some_iff.1 hc with hc | ⟨-, hc⟩
    · obtain ⟨f, hf, he⟩ := List.mem_map.1 (Entries.mem_of_lookup hc)
      rw [← (Prod.mk.inj he).1]
      exact ((hn.body hb).fields f (List.mem_of_mem_take hf)).name
    · split at hc
      · exact isName_of_mem_narrowings hn ‹_›
      · cases hc

/-- What lets a key pass that it does not know is open. -/
theorem Arises.isOpen_of_child?_eq_none {memo : Memo} {v : Validator} (h : types.Arises memo v)
    {entries : List (String × Json)} (hx : (v.report (.obj entries)).issues = [])
    {e : String × Json} (he : e ∈ entries) (hnone : v.child? e.1 = none) : v.isOpen = true := by
  cases h with
  | leaf => simp [Validator.report, Validator.objectReport, Validator.shallowReport] at hx
  | lazily => rfl
  | strictly =>
    obtain ⟨c, hc, -⟩ := Validator.issues_strictSelection_eq_nil_iff.1 hx e he
    cases hnone.symm.trans hc

/-- A key that is written of what is accepted is a name or stray. -/
theorem Arises.isName_or_mem_strayKeys (hn : types.schema.Named) {memo : Memo} {v : Validator}
    (h : types.Arises memo v) {x : Json} (hx : (v.report x).issues = []) {left : Selection}
    (hl : x.selected? = some left) {k : String}
    (hk : k ∈ Selection.innerKeys left) : isName k = true ∨ k ∈ v.strayKeysIn left := by
  -- induction on the value; a known key leads on, under an unknown one everything is stray
  induction x using Json.induction generalizing v left with
  | scalar x harr hobj =>
    cases x with
    | arr | obj => simp [Json.kind] at harr hobj
    | bool b =>
      cases b with
      | true =>
        cases hl
        cases hk
      | false => cases hl
    | null | int | float | str => cases hl
  | arr items => cases hl
  | obj entries ih =>
    obtain ⟨-, rfl⟩ := Json.selected?_obj_eq_some_iff.1 hl
    obtain ⟨e, he, hk⟩ := Selection.mem_keys_iff.1 hk
    obtain ⟨y, hy, hselected⟩ := Json.exists_selected?_of_mem he
    cases hc : v.child? e.1 with
    | none =>
      have ho := h.isOpen_of_child?_eq_none hx hy hc
      exact .inr (Validator.mem_strayKeys_of_isOpen he hc ho hk)
    | some c =>
      rcases hk with rfl | hk
      · exact .inl (h.isName_of_child? hn hc)
      · have hissues := h.issues_child hx hy hc
        exact (ih _ hy (h.child hc) hissues hselected hk).imp_right fun hk =>
          Validator.mem_strayKeys_of_child? he hc hk

/-! ## Policies -/

/-- All of a fallback is written. -/
theorem keys_writtenParts_fallback (p : SelectionPolicy) :
    Selection.keys (Selection.writtenParts p.fallback) = p.fallbackKeys := by
  rw [Selection.writtenParts, SelectionPolicy.fallback, Json.entries]
  induction p.fallbackKeys with
  | nil => rfl
  | cons key rest ih => simpa [Json.selectedEntries, Json.selected?, Selection.keys,
      Selection.innerKeys] using ih

/-- The keys of a fallback are names. -/
theorem PolicyFor.isName_of_mem_fallbackKeys (hn : types.schema.Named) {memo : Memo}
    {result : Option TypeRef} {p : SelectionPolicy} (h : types.PolicyFor memo result p) {k : String}
    (hk : k ∈ p.fallbackKeys) : isName k = true := by
  cases h with
  | untyped => cases hk
  | leaf => cases hk
  | strict hb => exact hn.isName_of_mem_defaultKeys hb hk

/-- The validators inside the policy of an operation with a result arise from strict ones. -/
theorem PolicyFor.arises_of_result {memo : Memo} {type : TypeRef} {p : SelectionPolicy}
    (h : types.PolicyFor memo (some type) p) : types.Arises memo p.validator := by
  cases h with
  | leaf => exact .leaf
  | strict hb hc hp => exact .strictly hb hc hp

/-- What an operation with a result accepts is its fallback, or is left as it was checked. -/
theorem PolicyFor.eq_fallback_or_issues {memo : Memo} {type : TypeRef} {p : SelectionPolicy}
    (h : types.PolicyFor memo (some type) p) {x selected : Json} (hj : p.judge x = .ok selected) :
    selected = p.fallback ∨
      ∃ entries, selected = .obj entries ∧ (p.validator.report (.obj entries)).issues = [] := by
  cases x with
  | null => exact .inl (Except.ok.inj hj).symm
  | bool | int | float | str | arr => cases hj
  | obj entries =>
    by_cases hne : entries = []
    · rw [hne] at hj
      exact .inl (Except.ok.inj hj).symm
    · obtain ⟨htakes, hvalue⟩ := (SelectionPolicy.judge_obj_eq_ok_iff hne).1 hj
      have hissues := (Validator.takes_iff.1 htakes).2
      exact .inr ⟨entries, hvalue.symm.trans (h.arises_of_result.value_eq hissues), hissues⟩

/-- A key that is written of an accepted selection is a name or stray. -/
theorem PolicyFor.isName_or_mem_strayKeys (hn : types.schema.Named) {memo : Memo} {type : TypeRef}
    {p : SelectionPolicy} (h : types.PolicyFor memo (some type) p) {x selected : Json}
    (hj : p.judge x = .ok selected) {k : String}
    (hk : k ∈ Selection.keys (Selection.writtenParts selected)) :
    isName k = true ∨ k ∈ p.validator.strayKeys (Selection.writtenParts selected) := by
  rcases h.eq_fallback_or_issues hj with rfl | ⟨entries, rfl, hissues⟩
  · rw [keys_writtenParts_fallback] at hk
    exact .inl (h.isName_of_mem_fallbackKeys hn hk)
  · have hne : Json.selectedEntries entries ≠ [] := by
      intro hnil
      rw [Selection.writtenParts, Json.entries, hnil] at hk
      cases hk
    have hselected : (Json.obj entries).selected? =
        some (.parts (Selection.writtenParts (.obj entries))) :=
      Json.selected?_obj_eq_some_iff.2 ⟨hne, rfl⟩
    exact h.arises_of_result.isName_or_mem_strayKeys hn hissues hselected hk

end OutputTypes

namespace Tool

/-- The stray keys of what is written of an accepted selection. -/
def strayKeys (tool : Tool) (selected : Json) : List String :=
  tool.selection.validator.strayKeys (Selection.writtenParts selected)

/-- What is rendered is the document of the written parts. -/
theorem query_eq_of_render {tool : Tool} {values selection selected : Json} {r : Rendered}
    (hr : (tool.render values selection).1 = .ok r)
    (hsel : tool.acceptSelection selection = .ok selected) (hobj : selected.kind = .object) :
    r.query = tool.operation.document (some (.parts (Selection.writtenParts selected))) := by
  obtain ⟨-, selected', hsel', hwrite⟩ := render_eq_ok_iff.1 hr
  cases hsel.symm.trans hsel'
  cases selected with
  | obj entries =>
    rw [query_eq_of_write_obj hwrite, Selection.ofJson, Selection.writtenParts, Json.entries,
      ← Selection.prune_ofEntries, Operation.document_prune]
  | null | bool | int | float | str | arr => simp [Json.kind] at hobj

section Results

variable {types : OutputTypes} {memo : Memo} {type : TypeRef} {tool : Tool}
  {selection selected : Json}

/-- A key that is written of what a tool accepts is a name or stray. -/
theorem isName_or_mem_strayKeys (hn : types.schema.Named)
    (hp : types.PolicyFor memo (some type) tool.selection)
    (hsel : tool.acceptSelection selection = .ok selected) :
    ∀ k ∈ Selection.keys (Selection.writtenParts selected),
      isName k = true ∨ k ∈ tool.strayKeys selected :=
  fun _ hk => hp.isName_or_mem_strayKeys hn (mapError_eq_ok_iff.1 hsel) hk

/-- What is rendered by a tool with a result is the document of the written parts. -/
theorem query_eq_of_policyFor (hp : types.PolicyFor memo (some type) tool.selection)
    (hsel : tool.acceptSelection selection = .ok selected) {values : Json} {r : Rendered}
    (hr : (tool.render values selection).1 = .ok r) :
    r.query = tool.operation.document (some (.parts (Selection.writtenParts selected))) := by
  refine query_eq_of_render hr hsel ?_
  rcases hp.eq_fallback_or_issues (mapError_eq_ok_iff.1 hsel) with rfl | ⟨entries, rfl, -⟩ <;> rfl

/-- A rendered document is read back exactly if the stray keys are names. -/
theorem read?_query_iff (hn : types.schema.Named) (hwell : tool.operation.WellNamed)
    (hp : types.PolicyFor memo (some type) tool.selection)
    (hsel : tool.acceptSelection selection = .ok selected) {values : Json} {r : Rendered}
    (hr : (tool.render values selection).1 = .ok r) :
    Document.read? r.query =
        some (.ofOperation tool.operation (Selection.writtenParts selected)) ↔
      ∀ k ∈ tool.strayKeys selected, isName k = true := by
  rw [query_eq_of_policyFor hp hsel hr, Selection.writtenParts, ← Selection.prune_ofEntries,
    Operation.document_prune, Operation.read?_document_prune_iff hwell, Selection.prune_ofEntries,
    ← Selection.writtenParts]
  constructor
  · intro hnames k hk
    exact hnames k (Validator.strayKeys_subset _ _ hk)
  · intro hnames k hk
    exact (isName_or_mem_strayKeys hn hp hsel k hk).elim id (hnames k)

end Results

end Tool

namespace Schema

section Tools

variable {schema : Schema} {settings : Settings} {scalars : ScalarTable} {memo : Memo}
  {set : ToolSet} {tool : Tool} {selection selected : Json}

/-- A tool of a named schema has an operation that can be written and the policy of a result. -/
theorem Named.exists_policyFor (hn : schema.Named) (hs : settings.PrefixesNamed)
    (hm : schema.Fills settings scalars memo)
    (h : (schema.tools settings memo scalars).1 = .ok set) (ht : tool ∈ set.tools) :
    tool.operation.WellNamed ∧ ∃ memo type,
      ({ schema, settings } : OutputTypes).PolicyFor memo (some type) tool.selection := by
  obtain ⟨ops, log, hops, h⟩ := exists_operations_of_tools h
  obtain ⟨hop, hc⟩ := compiled_of_toolsFor hm h ht
  obtain ⟨memo, hp⟩ := hc.policyFor
  obtain ⟨kind, name, body, f, -, -, he⟩ := exists_field_of_mem_operations hops hop
  have hresult : tool.operation.result = some f.type := by rw [he]; rfl
  rw [hresult] at hp
  exact ⟨hn.wellNamed hs hops hop, memo, f.type, hp⟩

/-- The documents that a tool for the schema of a text renders are read back exactly if the stray
keys are names. So they all are if no validator inside is open. -/
theorem read?_query_of_ofText {text : String} (htext : ofText text = .ok schema)
    (hs : settings.PrefixesNamed) (hm : schema.Fills settings scalars memo)
    (h : (schema.tools settings memo scalars).1 = .ok set) (ht : tool ∈ set.tools)
    (hsel : tool.acceptSelection selection = .ok selected) {values : Json} {r : Rendered}
    (hr : (tool.render values selection).1 = .ok r) :
    (Document.read? r.query =
        some (.ofOperation tool.operation (Selection.writtenParts selected)) ↔
      ∀ k ∈ tool.strayKeys selected, isName k = true) ∧
    ((∀ path v, tool.selection.validator.at? path = some v → v.isOpen = false) →
      Document.read? r.query =
        some (.ofOperation tool.operation (Selection.writtenParts selected))) := by
  have hn := named_of_ofText htext
  obtain ⟨hwell, memo, type, hp⟩ := hn.exists_policyFor hs hm h ht
  have hread := Tool.read?_query_iff hn hwell hp hsel hr
  refine ⟨hread, fun hopen => hread.2 fun k hk => ?_⟩
  rw [Tool.strayKeys, Validator.strayKeys_eq_nil _ hopen] at hk
  cases hk

end Tools

/-- The keys that are written of an accepted selection are names or stray, and only a selection
that is open lets keys stray. A rendered document has the written parts and is read back exactly if
the stray keys are names: it is a single operation of the kind, with one root field. -/
theorem read?_query {schema : Schema} (hn : schema.Named) {settings : Settings}
    (hs : settings.PrefixesNamed) {scalars : ScalarTable} {memo : Memo}
    (hm : schema.Fills settings scalars memo) {set : ToolSet}
    (h : (schema.tools settings memo scalars).1 = .ok set) {tool : Tool} (ht : tool ∈ set.tools)
    {selection selected : Json} (hsel : tool.acceptSelection selection = .ok selected) :
    (∀ k ∈ Selection.keys (Selection.writtenParts selected),
      isName k = true ∨ k ∈ tool.strayKeys selected) ∧
    ((∀ path v, tool.selection.validator.at? path = some v → v.isOpen = false) →
      tool.strayKeys selected = []) ∧
    ∀ values rendered, (tool.render values selection).1 = .ok rendered →
      rendered.query = tool.operation.document (some (.parts (Selection.writtenParts selected))) ∧
      (Document.read? rendered.query =
          some (.ofOperation tool.operation (Selection.writtenParts selected)) ↔
        ∀ k ∈ tool.strayKeys selected, isName k = true) := by
  obtain ⟨hwell, memo, type, hp⟩ := hn.exists_policyFor hs hm h ht
  refine ⟨Tool.isName_or_mem_strayKeys hn hp hsel,
    fun hopen => Validator.strayKeys_eq_nil _ hopen _, fun values rendered hr => ⟨?_, ?_⟩⟩
  · exact Tool.query_eq_of_policyFor hp hsel hr
  · exact Tool.read?_query_iff hn hwell hp hsel hr

/-- A type with a field of the same type. -/
def friends : Schema where
  types :=
    [⟨"User", .object []
        [⟨"friend", .named "User", [], none⟩, ⟨"name", .named "String", [], none⟩]⟩,
      ⟨"Query", .object [] [⟨"user", .named "User", [], none⟩]⟩,
      ⟨"String", .scalar⟩]
  roots := [(.query, "Query")]

/-- A selection inside the cycle. The braces in a key close the root field and open another one. -/
def strayBraces : Json :=
  .obj [("friend", .obj [("a \x7d \x7d evil \x7b b \x7b c", .obj [("d", .bool true)])])]

/-- Braces in a key pass inside a cycle. The key is no name, and the rendered document is none with
one root field. -/
theorem query_strayBraces :
    ¬ ∀ set tool selected rendered, (friends.tools {}).1 = .ok set → tool ∈ set.tools →
      tool.acceptSelection strayBraces = .ok selected →
      (tool.render (.obj []) strayBraces).1 = .ok rendered →
        (∀ k ∈ Selection.keys (Selection.writtenParts selected), isName k = true) ∨
          (Document.read? rendered.query).isSome = true := by
  intro h
  rcases h _ _ _ _ rfl List.mem_cons_self rfl rfl with hnames | hread
  · revert hnames
    decide +kernel
  · revert hread
    decide +kernel

/-- A selection inside the cycle, with a key that no type knows. -/
def strayName : Json :=
  .obj [("friend", .obj [("friend", .obj [("name", .bool true)]), ("age", .bool true)])]

/-- A key that strays but is a name is read back. -/
theorem query_strayName :
    friends.Named ∧ ({} : Settings).PrefixesNamed ∧ ∃ set, (friends.tools {}).1 = .ok set ∧
      ∃ tool ∈ set.tools, tool.acceptSelection strayName = .ok strayName ∧
        tool.strayKeys strayName = ["age"] ∧
        ∃ rendered, (tool.render (.obj []) strayName).1 = .ok rendered ∧
          Document.read? rendered.query =
            some (.ofOperation tool.operation (Selection.writtenParts strayName)) := by
  have hn : friends.Named := by decide +kernel
  have hs : ({} : Settings).PrefixesNamed := ⟨.inl rfl, .inl rfl, .inl rfl⟩
  refine ⟨hn, hs, _, rfl, _, List.mem_cons_self, rfl, by decide +kernel, _, rfl, ?_⟩
  obtain ⟨-, -, hread⟩ := read?_query hn hs .empty
    (show (friends.tools {}).1 = .ok _ from rfl) List.mem_cons_self
    (show Tool.acceptSelection _ strayName = .ok strayName from rfl)
  refine (hread (.obj []) _ rfl).2.2 ?_
  decide +kernel

end Schema

end OperationTools
