import Mathlib.Logic.Relation
import OperationTools.Proofs.Compilation.Calls
import OperationTools.Proofs.Compilation.InputTruncation
import OperationTools.Proofs.Tool.Registry

/-!
# Notes on truncated types

A type with too many fields is noted when the walk of its body begins, and its validator is kept
when the walk ends. So a run that gives tools leaves one note for each entry of a truncated type, at
each of its depths, and no other note: what stands in a tool and knows only the first fields of its
type is noted. A run that fails leaves the notes of the bodies whose walks it broke off as well.

## Main definitions

* `Compilers.walkedFor`: the bodies that are walked to compile tools
* `OutputTypes.StandsInside`: what stands inside a selection validator
* `Tool.StandsIn`: the validators of a tool stand in a memo
* `Memo.Reports`, `Tool.Reported`: a type with too many fields is noted, and so are all that are
  truncated in a tool

## Main results

* `Compilers.takes_toolOf`, `Schema.course_toolsFor`: the course of one tool and of a run
* `OutputTypes.StandsInside.of_reflTransGen`: what is inside something that stands stands as well
* `Schema.standsIn_of_yields_mapM`: the validators of all tools stand in the memo they leave
* `Schema.notes_toolsFor`: the notes of a run, and what is noted of its tools
-/

namespace OperationTools

/-- A type with more fields than the limit is noted. -/
def Memo.Reports (memo : Memo) (side : Side) (typeName : String) (count limit : Nat) : Prop :=
  limit < count → ⟨side, typeName, count, limit⟩ ∈ memo.notes

/-- What is found is an entry. -/
theorem Memo.mem_keys_of_find? {memo : Memo} {key : Memo.Key} {v : Validator}
    (h : memo.find? key = some v) : key ∈ memo.keys := by
  rw [← contains_iff_mem_keys, contains, h, Option.isSome_some]

/-! ## The walks of tools -/

/-- There are tools if the traversal of the operations succeeds, and the memo is what it leaves. -/
theorem Schema.run_toolsFor (schema : Schema) (settings : Settings) (memo : Memo)
    (scalars : ScalarTable) (ops : List Operation) :
    let r := (ops.mapM (toolOf { schema, settings, scalars } { schema, settings })).run.run { memo }
    (schema.toolsFor settings memo scalars ops).1.isOk = r.1.isOk ∧
      (schema.toolsFor settings memo scalars ops).2.1 = r.2.memo := by
  unfold toolsFor Compile.runOn
  dsimp only
  rcases (ops.mapM (toolOf { schema, settings, scalars } { schema, settings })).run.run { memo }
    with ⟨_ | tools, t⟩ <;> exact ⟨rfl, rfl⟩

namespace Compilers

variable (c : Compilers)

/-- The bodies that are walked to compile a tool: those for its arguments, and if they have a
validator those for its selection. -/
def toolWalks (op : Operation) (s : Compilation) : List Memo.Key :=
  c.inputs.walksOf op s ++ match (c.inputs.ofOperation op).run.run s with
    | (.ok _, t) => c.outputs.walksOf op t
    | (.error _, _) => []

/-- The bodies that are walked to compile the tools of operations, from the empty memo on. -/
def walkedFor (ops : List Operation) : List Memo.Key :=
  TryCompile.along (Schema.toolOf c.inputs c.outputs) c.toolWalks ops {}

/-- Compiling a tool takes the course along its walks. -/
theorem takes_toolOf (op : Operation) (s : Compilation) :
    (Schema.toolOf c.inputs c.outputs op).Takes (c.schema.note? c.settings) s
      (c.toolWalks op s) := by
  have harguments := c.inputs.takes_ofOperation op s
  have htool := harguments.bind fun arguments t =>
    (c.outputs.takes_ofOperation op t).map fun selection => Tool.mk op arguments selection
  rw [Schema.toolOf, toolWalks]
  generalize (c.inputs.ofOperation op).run.run s = r at htool ⊢
  rcases r with ⟨_ | v, t⟩ <;> exact htool

end Compilers

/-- Compiling the tools of operations takes the course along their walks, which is completed if
there are tools in the end. -/
theorem Schema.course_toolsFor (schema : Schema) (settings : Settings) (scalars : ScalarTable)
    (ops : List Operation) :
    Memo.Course (schema.note? settings) {} (Compilers.walkedFor { schema, settings, scalars } ops)
      (schema.toolsFor settings {} scalars ops).1.isOk
      (schema.toolsFor settings {} scalars ops).2.1 := by
  let c : Compilers := { schema, settings, scalars }
  have hcourse := TryCompile.takes_mapM c.takes_toolOf (fun _ tool => tool) ops {}
  simp only [bind_pure] at hcourse
  obtain ⟨hok, hmemo⟩ := run_toolsFor schema settings {} scalars ops
  rw [hok, hmemo]
  exact hcourse

/-! ## What stands inside the validators of tools -/

namespace OutputTypes

variable (types : OutputTypes)

/-- What stands inside a selection validator of a type: a leaf, a lazy validator, or one that stands
in the memo. -/
def StandsInside (memo : Memo) (v : Validator) : Prop :=
  v = .leaf ∨ (∃ m, v = types.lazily m) ∨ ∃ left n, types.Stands memo left n v

variable {types} {memo : Memo} {v w : Validator}

theorem StandsInside.mono {larger : Memo} (h : types.StandsInside memo v) (hle : memo ≤ larger) :
    types.StandsInside larger v :=
  h.imp_right fun h => h.imp_right fun ⟨left, n, h⟩ => ⟨left, n, h.mono hle⟩

/-- What stands directly inside stands there as well. -/
theorem StandsInside.of_contains (h : types.StandsInside memo v) (hc : v.Contains w) :
    types.StandsInside memo w := by
  rcases h with rfl | ⟨m, rfl⟩ | ⟨left, n, h⟩
  · exact absurd hc (not_leaf_contains w)
  · exact (cases_of_lazily_contains hc).imp_right .inl
  · cases h with
    | leaf => exact absurd hc (not_leaf_contains w)
    | lazily => exact (cases_of_lazily_contains hc).imp_right .inl
    | strictly _ _ _ hp =>
      rcases cases_of_node_contains hc with rfl | ⟨m, hm, rfl⟩
      · exact .inl rfl
      · exact .inr (.inr ⟨_, m, hp m hm⟩)

/-- So does what stands further inside. -/
theorem StandsInside.of_reflTransGen (h : types.StandsInside memo v)
    (hc : Relation.ReflTransGen Validator.Contains v w) : types.StandsInside memo w := by
  induction hc with
  | refl => exact h
  | tail _ hlast ih => exact ih.of_contains hlast

/-- A strict validator that stands inside knows the first fields of its type, and it is kept. -/
theorem StandsInside.knows {n : String} {fields fragments : List (String × Validator)}
    (h : types.StandsInside memo (.strictSelection n fields fragments)) :
    ∃ body left, types.schema.body? n = some body ∧
      fields.map (·.1) = (types.knownFields body).map (·.name) ∧
      types.key n left ∈ memo.keys := by
  rcases h with he | ⟨m, he⟩ | ⟨left, m, h⟩
  · cases he
  · cases he
  · generalize hv : Validator.strictSelection n fields fragments = v at h
    cases h with
    | leaf | lazily => cases hv
    | @strictly left _ body part hb _ hk _ =>
      obtain ⟨rfl, rfl, -⟩ := Validator.strictSelection.inj hv
      refine ⟨body, left, hb, ?_, Memo.mem_keys_of_find? hk⟩
      rw [List.map_map]
      rfl

end OutputTypes

namespace InputTypes

variable {types : InputTypes}

/-- What knows the first fields of an input object is kept. -/
theorem Stands.mem_keys {memo : Memo} {n : String} {fields : List InputField} {w : Validator}
    (hb : types.schema.body? n = some (.input fields)) (h : types.Stands memo (.named n) w)
    (hw : types.KnowsFirst n fields w) : .input n ∈ memo.keys := by
  obtain ⟨members, rfl, -⟩ := hw
  generalize hv : Validator.object (some n) false members = v at h
  cases h with
  | cut | inside => cases hv
  | scalar hb' | enum hb' => simp [hb] at hb'
  | whole _ hk => exact Memo.mem_keys_of_find? hk

end InputTypes

/-- The validators of a tool stand in a memo. -/
structure Tool.StandsIn (inputs : InputTypes) (outputs : OutputTypes) (memo : Memo) (tool : Tool) :
    Prop where
  arguments : ∃ part, tool.arguments = InputTypes.argumentsOf tool.operation part ∧
    ∀ a ∈ tool.operation.arguments, inputs.StandsFor memo a.type (part a.type)
  selection : tool.selection.validator = .anySelection ∨
    outputs.StandsInside memo tool.selection.validator

theorem Tool.StandsIn.mono {inputs : InputTypes} {outputs : OutputTypes} {memo larger : Memo}
    {tool : Tool} (h : tool.StandsIn inputs outputs memo) (hle : memo ≤ larger) :
    tool.StandsIn inputs outputs larger where
  arguments := by
    obtain ⟨part, he, hp⟩ := h.arguments
    exact ⟨part, he, fun a ha => (hp a ha).mono hle⟩
  selection := h.selection.imp_right fun h => h.mono hle

namespace Schema

variable {inputs : InputTypes} {outputs : OutputTypes} {s t : Compilation}

theorem memo_le_of_yields_toolOf {op : Operation} {tool : Tool}
    (h : (toolOf inputs outputs op).Yields s tool t) : s.memo ≤ t.memo := by
  obtain ⟨-, u, hv, hp⟩ := yields_toolOf_iff.1 h
  exact le_trans (InputTypes.memo_le_of_yields_operation hv)
    (OutputTypes.memo_le_of_yields_operation hp)

/-- The validators of a tool stand in the memo that it leaves. -/
theorem standsIn_of_yields_toolOf {op : Operation} {tool : Tool}
    (h : (toolOf inputs outputs op).Yields s tool t) (hi : inputs.Sound s.memo)
    (ho : outputs.Sound s.memo) : tool.StandsIn inputs outputs t.memo := by
  obtain ⟨rfl, u, hv, hp⟩ := yields_toolOf_iff.1 h
  constructor
  · obtain ⟨part, he, hthread⟩ := InputTypes.yields_ofOperation_iff.1 hv
    refine ⟨part, he, fun a ha => ?_⟩
    have hstands := InputTypes.standsFor_of_thread hthread hi (List.mem_map_of_mem ha)
    exact hstands.mono (OutputTypes.memo_le_of_yields_operation hp)
  · rcases OutputTypes.yields_ofOperation_iff.1 hp with ⟨-, he, -⟩ | ⟨type, v, -, hv', he⟩
    · exact .inl (by rw [he])
    · have hstands := OutputTypes.sound_of_yields hv' (sound_outputs_of_yields_arguments hv ho)
      exact .inr (.inr (.inr ⟨_, _, by rw [he]; exact hstands.2⟩))

/-- The validators of tools that are compiled one after another stand in the memo that the last one
leaves. -/
theorem standsIn_of_yields_mapM {ops : List Operation} {tools : List Tool}
    (h : (ops.mapM (toolOf inputs outputs)).Yields s tools t) (hi : inputs.Sound s.memo)
    (ho : outputs.Sound s.memo) : ∀ tool ∈ tools, tool.StandsIn inputs outputs t.memo := by
  replace h := TryCompile.yields_mapM.1 h
  induction h with
  | nil => simp
  | cons head tail ih =>
    obtain ⟨-, hi', ho'⟩ := sound_of_yields_toolOf head hi ho
    intro tool ht
    rcases List.mem_cons.1 ht with rfl | ht
    · exact (standsIn_of_yields_toolOf head hi ho).mono
        (tail.memo_le fun _ _ _ _ => memo_le_of_yields_toolOf)
    · exact ih hi' ho' tool ht

end Schema

/-! ## What is noted -/

namespace Memo.Course

variable {note : Memo.Key → Option Truncation} {memo : Memo} {walked : List Memo.Key}
  {completed : Bool}

/-- From the empty memo on, what there is to note of an entry is noted. -/
theorem mem_notes (h : Memo.Course note {} walked completed memo) {key : Memo.Key}
    (hk : key ∈ memo.keys) {x : Truncation} (hx : note key = some x) : x ∈ memo.notes := by
  rw [h.notes_eq]
  refine List.mem_append_right _ (List.mem_filterMap.2 ⟨key, ?_, hx⟩)
  exact (h.mem_keys hk).resolve_left List.not_mem_nil

/-- From the empty memo on, the notes are those of the entries, one for each, if there is nothing to
note of the bodies whose walks were broken off. -/
theorem exists_broken (h : Memo.Course note {} walked completed memo) :
    ∃ broken, walked.Perm (memo.keys ++ broken) ∧ (completed = true ↔ broken = []) ∧
      (memo.notes.Perm (memo.keys.filterMap note) ↔ ∀ key ∈ broken, note key = none) := by
  obtain ⟨kept, broken, hkeys, hwalked, hcompleted⟩ := h.exists_kept
  obtain rfl : memo.keys = kept := hkeys
  refine ⟨broken, hwalked, hcompleted, ?_⟩
  have hnotes : memo.notes.Perm (memo.keys.filterMap note ++ broken.filterMap note) := by
    rw [h.notes_eq, ← List.filterMap_append]
    exact hwalked.filterMap note
  rw [← List.filterMap_eq_nil_iff]
  constructor
  · intro hperm
    -- the entries have as many notes as there are, so nothing is left for the others
    have hlength := (hnotes.symm.trans hperm).length_eq
    rw [List.length_append] at hlength
    exact List.eq_nil_of_length_eq_zero (by omega)
  · intro hnil
    rwa [hnil, List.append_nil] at hnotes

variable {schema : Schema} {settings : Settings}

theorem reports_output (h : Memo.Course (schema.note? settings) {} walked completed memo)
    {n : String} {body : TypeBody} (hb : schema.body? n = some body) {depth : Int}
    (hk : .output n depth ∈ memo.keys) :
    memo.Reports .output n body.fields.length settings.maxSelectionFields := by
  intro hlt
  refine h.mem_notes hk ?_
  rw [Schema.note?, hb]
  exact if_pos hlt

theorem reports_input (h : Memo.Course (schema.note? settings) {} walked completed memo)
    {n : String} {fields : List InputField} (hb : schema.body? n = some (.input fields))
    (hk : .input n ∈ memo.keys) :
    memo.Reports .input n fields.length settings.maxArgumentFields := by
  intro hlt
  refine h.mem_notes hk ?_
  rw [Schema.note?, hb]
  exact if_pos hlt

end Memo.Course

/-- Strict validators in a tool know the first fields of their types, and where there are more
fields than those the type is noted. -/
structure Tool.Reported (inputs : InputTypes) (outputs : OutputTypes) (memo : Memo) (tool : Tool) :
    Prop where
  arguments : ∃ part, tool.arguments = InputTypes.argumentsOf tool.operation part ∧
    ∀ a ∈ tool.operation.arguments, ∀ r, a.type = some r → ∀ n fields w,
      inputs.schema.body? n = some (.input fields) → inputs.Inside r (part (some r)) n w →
        inputs.KnowsInside n fields w ∧ (inputs.KnowsFirst n fields w →
          memo.Reports .input n fields.length inputs.settings.maxArgumentFields)
  selection : ∀ n fields fragments,
    Relation.ReflTransGen Validator.Contains tool.selection.validator
      (.strictSelection n fields fragments) →
    ∃ body, outputs.schema.body? n = some body ∧ fields.map (·.1) =
        (body.fields.take outputs.settings.maxSelectionFields).map (·.name) ∧
      memo.Reports .output n body.fields.length outputs.settings.maxSelectionFields

/-- What stands in a memo that was filled from the empty one on is noted there. -/
theorem Tool.StandsIn.reported {c : Compilers} (hl : c.schema.Lawful) {walked : List Memo.Key}
    {completed : Bool} {memo : Memo}
    (hcourse : Memo.Course (c.schema.note? c.settings) {} walked completed memo) {tool : Tool}
    (h : tool.StandsIn c.inputs c.outputs memo) : tool.Reported c.inputs c.outputs memo where
  arguments := by
    obtain ⟨part, he, hp⟩ := h.arguments
    refine ⟨part, he, fun a ha r hr n fields w hb hinside => ?_⟩
    have hpart := hp a ha
    rw [hr] at hpart
    have hstands := InputTypes.Stands.of_inside hl hinside hpart
    exact ⟨hstands.knowsInside hb, fun hw => hcourse.reports_input hb (hstands.mem_keys hb hw)⟩
  selection := by
    intro n fields fragments hc
    rcases h.selection with he | hstands
    · rw [he] at hc
      rcases hc.cases_head with he | ⟨v, hv, -⟩
      · cases he
      · cases hv with
        | found hv => cases hv
    · obtain ⟨body, left, hb, hnames, hk⟩ := (hstands.of_reflTransGen hc).knows
      exact ⟨body, hb, hnames, hcourse.reports_output hb hk⟩

namespace Schema

variable {schema : Schema}

/-- No key is kept twice in a run from the empty memo on, and what is noted are the bodies that are
walked. Those are the ones that are kept in the end and the ones whose walks were broken off, which
there are exactly if there are no tools. So there is one note for each entry of a type with too many
fields and no other note exactly if no type with too many fields was broken off. In particular this
is so if there are tools, which there are where the values of all enums can be told; and then all
that is truncated in a tool is noted. -/
theorem notes_toolsFor (hl : schema.Lawful) (settings : Settings) (scalars : ScalarTable)
    (ops : List Operation) :
    let c : Compilers := { schema, settings, scalars }
    let run := schema.toolsFor settings {} scalars ops
    let memo := run.2.1
    memo.keys.Nodup ∧
    memo.notes = (c.walkedFor ops).filterMap (schema.note? settings) ∧
    (∃ broken, (c.walkedFor ops).Perm (memo.keys ++ broken) ∧ (run.1.isOk = true ↔ broken = []) ∧
      (memo.notes.Perm (memo.keys.filterMap (schema.note? settings)) ↔
        ∀ key ∈ broken, schema.note? settings key = none)) ∧
    (schema.Readable → ∃ set, run.1 = .ok set) ∧
    ∀ set, run.1 = .ok set → set.memo = memo ∧
      memo.notes.Perm (memo.keys.filterMap (schema.note? settings)) ∧
      ∀ tool ∈ set.tools, tool.Reported c.inputs c.outputs memo := by
  intro c run memo
  have hcourse : Memo.Course (schema.note? settings) {} (c.walkedFor ops) run.1.isOk memo :=
    course_toolsFor schema settings scalars ops
  obtain ⟨broken, hwalked, hok, hnotes⟩ := hcourse.exists_broken
  refine ⟨hcourse.nodup_keys .nil, hcourse.notes_eq, ⟨broken, hwalked, hok, hnotes⟩,
    fun hr => exists_toolsFor hr settings {} scalars ops, fun set hset => ?_⟩
  obtain ⟨tools, log, hof, hy⟩ := yields_of_toolsFor (Prod.ext hset rfl)
  subst hof
  refine ⟨rfl, hnotes.2 ?_, fun tool ht => ?_⟩
  · rw [hok.1 (by rw [hset]; rfl)]
    exact fun _ hm => absurd hm List.not_mem_nil
  · have hstands : tool.StandsIn c.inputs c.outputs memo :=
      standsIn_of_yields_mapM hy InputTypes.sound_empty OutputTypes.sound_empty tool
        (ToolSet.mem_of_mem_ofTools ht)
    exact hstands.reported hl hcourse

/-- Authors and their posts, which are found by two fields. -/
def blog : Schema where
  types :=
    [⟨"Author", .object [] [⟨"name", .named "String", [], none⟩, ⟨"post", .named "Post", [], none⟩,
        ⟨"age", .named "Int", [], none⟩]⟩,
      ⟨"Post", .object [] [⟨"author", .named "Author", [], none⟩,
        ⟨"title", .named "String", [], none⟩]⟩,
      ⟨"Filter", .input [⟨"first", .named "Int", none⟩, ⟨"word", .named "String", none⟩]⟩,
      ⟨"Query", .object [] [⟨"author", .named "Author", [⟨"filter", .named "Filter", none⟩], none⟩,
        ⟨"post", .named "Post", [], none⟩]⟩,
      ⟨"Int", .scalar⟩, ⟨"String", .scalar⟩]
  roots := [(.query, "Query")]

/-- Authors have one field too many, so have filters. -/
def blogSettings : Settings := { maxSelectionFields := 2, maxArgumentFields := 1 }

/-- The operations of both fields. -/
def blogOperations : List Operation :=
  [.ofField blogSettings .query
      { name := "author", type := .named "Author"
        arguments := [⟨"filter", .named "Filter", none⟩] },
    .ofField blogSettings .query { name := "post", type := .named "Post" }]

/-- Authors are compiled at two depths and noted twice, filters once, and posts not at all. -/
theorem notes_toolsFor_blog :
    blog.Lawful ∧ blog.Readable ∧
      ∃ set, (blog.toolsFor blogSettings {} .standard blogOperations).1 = .ok set ∧
        set.memo.keys = [.input "Filter", .output "Post" 1, .output "Author" 0, .output "Author" 1,
          .output "Post" 0] ∧
        set.memo.notes = [⟨.input, "Filter", 2, 1⟩, ⟨.output, "Author", 3, 2⟩,
          ⟨.output, "Author", 3, 2⟩] ∧
        set.memo.notes.Perm (set.memo.keys.filterMap (blog.note? blogSettings)) ∧
        ∀ tool ∈ set.tools, tool.Reported ⟨blog, blogSettings, .standard⟩ ⟨blog, blogSettings, true⟩
          set.memo := by
  have hl : blog.Lawful := by decide +kernel
  have hr : blog.Readable := by decide
  obtain ⟨-, -, -, hexists, hall⟩ := notes_toolsFor hl blogSettings .standard blogOperations
  obtain ⟨set, hset⟩ := hexists hr
  obtain ⟨hmemo, hnotes, hreported⟩ := hall set hset
  refine ⟨hl, hr, set, hset, ?_⟩
  rw [hmemo]
  exact ⟨by decide +kernel, by decide +kernel, hnotes, hreported⟩

/-- Where a walk is broken off by an enum whose values cannot be told, a note may be left without an
entry. -/
theorem not_notes_unreadable :
    ¬ ∀ (schema : Schema) (settings : Settings), schema.Lawful →
      (schema.tools settings).2.1.notes.Perm
        ((schema.tools settings).2.1.keys.filterMap (schema.note? settings)) := by
  intro h
  have hperm := h Compilers.unreadable.schema Compilers.unreadable.settings (by decide +kernel)
  revert hperm
  decide +kernel

end Schema

end OperationTools
