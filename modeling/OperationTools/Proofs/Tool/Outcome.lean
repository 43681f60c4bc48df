import OperationTools.Proofs.Compilation.InputConformance
import OperationTools.Proofs.Schema.Selectable
import OperationTools.Proofs.Tool.Render
import OperationTools.Proofs.Validator.Place

/-!
# Outcomes of rendering

A tool refuses variables and selections by name, or it renders a document and the variables that it
declares: the check for missing variables before a document is written never finds one. Only where
parts of a scalar or enum are asked for inside a lazy selection is there no answer at all, and that
takes a union with a scalar or enum among its members.

## Main definitions

* `Rendered.Fits`: a document and variables that fit together
* `OutputTypes.Branching`: validators in which nothing lazy stands for a leaf

## Main results

* `OutputTypes.Branching.overreaches_eq_false`: they never ask for parts of a leaf
* `Tool.render_eq_partsOfLeaf_iff`: when there is no answer
* `Schema.outcome_of_render`: what a tool makes of variables and a selection
-/

namespace OperationTools

/-! ## Parts of leaves -/

namespace Validator

theorem overreachesItems_eq_any (item : Validator) (items : List Json) :
    overreachesItems item items = items.any item.overreaches := by
  induction items with
  | nil => rfl
  | cons x rest ih => simp [overreachesItems, ih]

@[simp] theorem overreaches_any (x : Json) : any.overreaches x = false := by
  induction x using Json.induction with
  | scalar x harr hobj =>
    cases x with
    | arr | obj => simp [Json.kind] at harr hobj
    | null | bool | int | float | str => rfl
  | arr items ih =>
    rw [overreaches, overreachesItems_eq_any, List.any_eq_false]
    exact fun x hx => by simp [item, ih x hx]
  | obj entries =>
    have hparts : any.lacksParts = false := rfl
    rw [overreaches, hparts, Bool.false_and, Bool.false_or, overreachesEntries_eq_false_iff]
    intro e _ c hc
    cases hc

end Validator

namespace OutputTypes

variable (types : OutputTypes)

/-- A validator in which nothing lazy stands for a leaf. -/
inductive Branching (memo : Memo) : Validator → Prop where
  | leaf : Branching memo .leaf
  | anySelection : Branching memo .anySelection
  | lazily {n : String} (hn : types.schema.isLeaf n = false) : Branching memo (types.lazily n)
  | standing {left : Nat} {n : String} {v : Validator} (h : types.Stands memo left n v) :
      Branching memo v

variable {types} {memo : Memo} {v c : Validator}

theorem Branching.lacksParts_eq_false (h : types.Branching memo v) : v.lacksParts = false := by
  cases h with
  | leaf | anySelection => rfl
  | lazily hn => exact hn
  | standing h =>
    cases h with
    | leaf | strictly => rfl
    | lazily hc => exact Schema.isLeaf_eq_false_of_isComposite hc

theorem Branching.item_eq_any (h : types.Branching memo v) : v.item = .any := by
  cases h with
  | leaf | anySelection | lazily => rfl
  | standing h => cases h <;> rfl

section Members

variable (hl : types.schema.Lawful) (hmembers : types.schema.NoLeafMembers)

include hl hmembers

theorem branching_child?_lazily {n key : String} (hc : (types.lazily n).child? key = some c) :
    types.Branching memo c := by
  rcases child?_lazily_cases hc with rfl | ⟨m, hpart, rfl⟩
  · exact .leaf
  · exact .lazily (hl.isLeaf_eq_false_of_part? hmembers hpart)

theorem Branching.child (h : types.Branching memo v) {key : String}
    (hc : v.child? key = some c) : types.Branching memo c := by
  cases h with
  | leaf | anySelection => cases hc
  | lazily => exact branching_child?_lazily hl hmembers hc
  | standing h =>
    cases h with
    | leaf => cases hc
    | lazily => exact branching_child?_lazily hl hmembers hc
    | strictly _ _ _ hp =>
      rcases child?_node_cases hc with rfl | ⟨m, hm, rfl⟩
      · exact .leaf
      · exact .standing (hp m hm)

/-- Without scalars and enums among the members of unions no parts of a leaf are ever asked for. -/
theorem Branching.overreaches_eq_false (h : types.Branching memo v) (x : Json) :
    v.overreaches x = false := by
  induction x using Json.induction generalizing v with
  | scalar x harr hobj =>
    cases x with
    | arr | obj => simp [Json.kind] at harr hobj
    | null | bool | int | float | str => rfl
  | arr items =>
    rw [Validator.overreaches, Validator.overreachesItems_eq_any, h.item_eq_any]
    simp
  | obj entries ih =>
    rw [Validator.overreaches, h.lacksParts_eq_false, Bool.false_and, Bool.false_or,
      Validator.overreachesEntries_eq_false_iff]
    exact fun e he c hc => ih e he (h.child hl hmembers hc)

end Members

/-- The validator of an operation is lazy nowhere on a leaf. -/
theorem branching_of_yields_operation {op : Operation} {s t : Compilation} {p : SelectionPolicy}
    (h : (types.ofOperation op).Yields s p t) (hs : types.Sound s.memo) :
    types.Branching t.memo p.validator := by
  rcases yields_ofOperation_iff.1 h with ⟨-, rfl, -⟩ | ⟨type, v, -, hv, rfl⟩
  · exact .anySelection
  · exact .standing (sound_of_yields hv hs).2

end OutputTypes

namespace SelectionPolicy

/-- There is no answer exactly if parts of a leaf are asked for. -/
theorem judge_eq_partsOfLeaf_iff {policy : SelectionPolicy} {x : Json} :
    policy.judge x = .error .partsOfLeaf ↔
      ∃ entries, x = .obj entries ∧ policy.validator.overreaches (.obj entries) = true := by
  unfold judge
  split
  · simp
  · simp [Validator.overreaches, Validator.overreachesEntries]
  · rename_i entries _
    split
    · rename_i hv
      simp [hv, Validator.overreaches, Validator.lacksParts,
        Validator.overreachesEntries_eq_any, Validator.child?]
    · rename_i hv
      cases ho : policy.validator.overreaches (.obj entries) with
      | true => simp [ho]
      | false =>
        cases policy.validator.judge (.obj entries) <;> simp [ho, Except.mapError]
  · rename_i hobj
    simp only [reduceCtorEq, Except.error.injEq, false_iff, not_exists, not_and]
    rintro entries rfl
    exact absurd rfl (hobj entries)

end SelectionPolicy

/-! ## Rendering -/

/-- A document and variables fit together: the document declares every variable that is given, with
the literal of its type, and whatever it declares as non-null has a value. -/
structure Rendered.Fits (r : Rendered) (op : Operation) : Prop where
  document : ∃ call, r.query = op.kind.keyword ++ " " ++ op.name ++ op.declarations ++
    " \x7b " ++ call ++ " \x7d"
  object : ∃ entries, r.values = .obj entries
  declared : ∀ key ∈ r.values.entries.map (·.1), key ∈ op.arguments.map (·.name)
  required : ∀ a ∈ op.arguments, ∃ type, a.type = some type ∧ a.typeName = type.literal ∧
    (type.isNonNull = true → ∃ x, r.values.entries.lookup a.name = some x ∧ x ≠ .null)

/-- The arguments of the operation of a field are declared with the literals of their types. -/
theorem Operation.exists_type_of_mem_ofField {settings : Settings} {kind : OperationKind}
    {f : Field} {a : Variable} (ha : a ∈ (ofField settings kind f).arguments) :
    ∃ type, a.type = some type ∧ a.typeName = type.literal := by
  obtain ⟨b, -, rfl⟩ := List.mem_map.1 ha
  exact ⟨b.type, rfl, rfl⟩

namespace Tool

variable {tool : Tool}

/-- A tool refuses with its own name, or it has no answer about parts of a leaf. -/
theorem acceptSelection_error_cases {selection : Json} {e : RenderError}
    (h : tool.acceptSelection selection = .error e) :
    (∃ issue, e = .rejected ⟨issue, some tool.name⟩) ∨
      e = .partsOfLeaf ∧ tool.selection.judge selection = .error .partsOfLeaf := by
  rw [acceptSelection] at h
  cases hj : tool.selection.judge selection with
  | ok => rw [hj] at h; cases h
  | error e' =>
    rw [hj] at h
    cases e' with
    | issue issue =>
      cases h
      exact .inl ⟨issue, rfl⟩
    | partsOfLeaf =>
      cases h
      exact .inr ⟨rfl, rfl⟩

/-- Refused variables are refused with the name of the tool. -/
theorem exists_issue_of_acceptVariables {values : Json} {r : Rejection}
    (h : (tool.acceptVariables values).1 = .error r) : ∃ issue, r = ⟨issue, some tool.name⟩ := by
  rw [acceptVariables] at h
  cases hv : (tool.arguments.report (variablesOf values)).verdict with
  | ok => simp [hv, Except.mapError] at h
  | error issue =>
    simp only [hv, Except.mapError, Except.error.injEq] at h
    exact ⟨issue, h.symm⟩

/-- Variables are judged first. -/
theorem render_of_acceptVariables_error {values selection : Json} {r : Rejection}
    (h : (tool.acceptVariables values).1 = .error r) :
    (tool.render values selection).1 = .error (.rejected r) := by
  unfold render
  rcases hv : tool.acceptVariables values with ⟨result, log⟩
  rw [hv] at h
  cases h
  rfl

/-- The selection is judged once the variables are accepted. -/
theorem render_of_acceptSelection_error {values selection accepted : Json} {e : RenderError}
    (hv : (tool.acceptVariables values).1 = .ok accepted)
    (h : tool.acceptSelection selection = .error e) :
    (tool.render values selection).1 = .error e := by
  unfold render
  rcases hr : tool.acceptVariables values with ⟨result, log⟩
  rw [hr] at hv
  cases hv
  rw [h]

namespace Compiled

variable {inputs : InputTypes} {outputs : OutputTypes}

/-- Accepted variables and an accepted selection are enough: nothing else can fail. -/
theorem exists_render_eq_ok (hc : tool.Compiled inputs outputs)
    (hd : (tool.operation.arguments.map (·.name)).Nodup) {values selection accepted selected : Json}
    (hv : (tool.acceptVariables values).1 = .ok accepted)
    (hs : tool.acceptSelection selection = .ok selected) :
    ∃ r, (tool.render values selection).1 = .ok r := by
  obtain ⟨query, hw⟩ : ∃ query, (tool.write values selected).1 = .ok query :=
    ⟨_, hc.documentFor_eq_ok hd hv _⟩
  have h : (tool.render values selection).1 = .ok (⟨query, accepted⟩ : Rendered) :=
    render_eq_ok_iff.2 ⟨hv, selected, hs, hw⟩
  exact ⟨_, h⟩

/-- A compiled tool refuses with its own name, renders, or has no answer about parts of a leaf. -/
theorem render_cases (hc : tool.Compiled inputs outputs)
    (hd : (tool.operation.arguments.map (·.name)).Nodup) (values selection : Json) :
    (∃ issue, (tool.render values selection).1 = .error (.rejected ⟨issue, some tool.name⟩)) ∨
    (∃ r, (tool.render values selection).1 = .ok r) ∨
    (tool.render values selection).1 = .error .partsOfLeaf := by
  cases hv : (tool.acceptVariables values).1 with
  | error r =>
    obtain ⟨issue, rfl⟩ := exists_issue_of_acceptVariables hv
    exact .inl ⟨issue, render_of_acceptVariables_error hv⟩
  | ok accepted =>
    cases hs : tool.acceptSelection selection with
    | error e =>
      have hr := render_of_acceptSelection_error hv hs
      rcases acceptSelection_error_cases hs with ⟨issue, rfl⟩ | ⟨rfl, -⟩
      · exact .inl ⟨issue, hr⟩
      · exact .inr (.inr hr)
    | ok selected => exact .inr (.inl (hc.exists_render_eq_ok hd hv hs))

/-- There is no answer exactly if the variables are accepted and parts of a leaf are asked for. -/
theorem render_eq_partsOfLeaf_iff (hc : tool.Compiled inputs outputs)
    (hd : (tool.operation.arguments.map (·.name)).Nodup) (values selection : Json) :
    (tool.render values selection).1 = .error .partsOfLeaf ↔
      (∃ accepted, (tool.acceptVariables values).1 = .ok accepted) ∧
        ∃ entries, selection = .obj entries ∧
          tool.selection.validator.overreaches (.obj entries) = true := by
  rw [← SelectionPolicy.judge_eq_partsOfLeaf_iff]
  constructor
  · intro h
    cases hv : (tool.acceptVariables values).1 with
    | error r =>
      rw [render_of_acceptVariables_error hv] at h
      cases h
    | ok accepted =>
      refine ⟨⟨accepted, rfl⟩, ?_⟩
      cases hs : tool.acceptSelection selection with
      | error e =>
        rw [render_of_acceptSelection_error hv hs] at h
        cases h
        rcases acceptSelection_error_cases hs with ⟨issue, he⟩ | ⟨-, hj⟩
        · cases he
        · exact hj
      | ok selected =>
        obtain ⟨r, hr⟩ := hc.exists_render_eq_ok hd hv hs
        rw [hr] at h
        cases h
  · rintro ⟨⟨accepted, hv⟩, hj⟩
    refine render_of_acceptSelection_error hv ?_
    rw [acceptSelection, hj]
    rfl

/-- What is rendered fits together. -/
theorem fits_of_render (hc : tool.Compiled inputs outputs)
    (hd : (tool.operation.arguments.map (·.name)).Nodup)
    (htyped : ∀ a ∈ tool.operation.arguments,
      ∃ type, a.type = some type ∧ a.typeName = type.literal)
    {values selection : Json} {r : Rendered} (h : (tool.render values selection).1 = .ok r) :
    r.Fits tool.operation := by
  obtain ⟨hv, selected, -, hw⟩ := render_eq_ok_iff.1 h
  obtain ⟨hissues, hvalue⟩ := acceptVariables_eq_ok_iff.1 hv
  obtain ⟨entries, hentries, -⟩ := hc.required_of_acceptVariables hd hv
  obtain ⟨s, t, u, -, -, harguments, -⟩ := hc
  obtain ⟨part, hpart, -⟩ := InputTypes.yields_ofOperation_iff.1 harguments
  have hn : ((tool.operation.arguments.map fun a => InputTypes.argument a (part a.type)).map
      (·.name)).Nodup := by
    rwa [List.map_map]
  rw [InputTypes.argumentsOf_eq hd] at hpart
  rw [hentries, hpart] at hissues hvalue
  refine ⟨?_, ?_, ?_, ?_⟩
  · exact ⟨tool.operation.call _, (Operation.documentFor_eq_ok_iff.1 hw).2⟩
  · exact ⟨_, hvalue.symm⟩
  · intro key hkey
    rw [← hvalue] at hkey
    have hmem := (Validator.keys_value_object_sublist _ entries).subset hkey
    rwa [List.map_map] at hmem
  · intro a ha
    obtain ⟨type, htype, hname⟩ := htyped a ha
    refine ⟨type, htype, hname, fun hnonNull => ?_⟩
    rw [← hvalue]
    refine Validator.exists_lookup_value_object (m := InputTypes.argument a (part a.type)) hn
      (Validator.accepts_iff_issues.2 hissues) (List.mem_map_of_mem ha) ?_
    rw [InputTypes.argument, InputTypes.mayBeOmitted_of_type htype, hnonNull]
    rfl

end Compiled

end Tool

namespace Schema

/-- A tool of a schema refuses variables and selections with its own name, or what it renders fits
together, unless the variables are accepted and parts of a leaf are asked for in a lazy selection.
The latter takes a scalar or enum among the members of a union. -/
theorem outcome_of_render {schema : Schema} (hl : schema.Lawful) {settings : Settings}
    {scalars : ScalarTable} {memo : Memo} (hm : schema.Fills settings scalars memo) {set : ToolSet}
    (h : (schema.tools settings memo scalars).1 = .ok set) {tool : Tool} (ht : tool ∈ set.tools)
    (values selection : Json) :
    ((∃ issue, (tool.render values selection).1 = .error (.rejected ⟨issue, some tool.name⟩)) ∨
      (∃ r, (tool.render values selection).1 = .ok r ∧ r.Fits tool.operation) ∨
      (tool.render values selection).1 = .error .partsOfLeaf) ∧
    ((tool.render values selection).1 = .error .partsOfLeaf ↔
      (∃ accepted, (tool.acceptVariables values).1 = .ok accepted) ∧
        ∃ entries, selection = .obj entries ∧
          tool.selection.validator.overreaches (.obj entries) = true) ∧
    (schema.NoLeafMembers → (tool.render values selection).1 ≠ .error .partsOfLeaf) := by
  obtain ⟨ops, log, hops, h⟩ := exists_operations_of_tools h
  obtain ⟨hop, hc⟩ := compiled_of_toolsFor hm h ht
  have hd := hl.nodup_arguments hops hop
  have htyped : ∀ a ∈ tool.operation.arguments,
      ∃ type, a.type = some type ∧ a.typeName = type.literal := by
    intro a ha
    obtain ⟨kind, name, body, f, -, -, he⟩ := exists_field_of_mem_operations hops hop
    rw [he] at ha
    exact Operation.exists_type_of_mem_ofField ha
  have hnone := hc.render_eq_partsOfLeaf_iff hd values selection
  refine ⟨?_, hnone, fun hmembers hr => ?_⟩
  · rcases hc.render_cases hd values selection with hr | ⟨r, hr⟩ | hr
    · exact .inl hr
    · exact .inr (.inl ⟨r, hr, hc.fits_of_render hd htyped hr⟩)
    · exact .inr (.inr hr)
  · obtain ⟨-, entries, -, hover⟩ := hnone.1 hr
    obtain ⟨s, t, u, -, ho, -, hp⟩ := hc
    have hbranching := OutputTypes.branching_of_yields_operation hp ho
    rw [hbranching.overreaches_eq_false hl hmembers] at hover
    cases hover

/-- A type that contains itself through a union with a scalar among its members. -/
def branches : Schema where
  types :=
    [⟨"A", .object [] [⟨"u", .named "U", [], none⟩]⟩,
      ⟨"U", .union ["A", "S"]⟩, ⟨"S", .scalar⟩,
      ⟨"Query", .object [] [⟨"a", .named "A", [], none⟩]⟩]
  roots := [(.query, "Query")]

/-- Inside `A` the union is met again, and a part of its scalar member is asked for. -/
def memberPart : Json :=
  .obj [("u", .obj [("A", .obj [("u", .obj [("S", .obj [("x", .bool true)])])])])]

/-- There is no answer about parts of the scalar member. -/
theorem render_memberPart :
    ¬ ∀ set tool, (branches.tools {}).1 = .ok set → tool ∈ set.tools →
      (∃ issue, (tool.render .null memberPart).1 = .error (.rejected ⟨issue, some tool.name⟩)) ∨
        ∃ r, (tool.render .null memberPart).1 = .ok r ∧ r.Fits tool.operation := by
  intro h
  have hnone : ∀ set, (branches.tools {}).1 = .ok set →
      ∃ tool ∈ set.tools, (tool.render .null memberPart).1 = .error .partsOfLeaf := by
    rintro _ ⟨⟩
    exact ⟨_, List.mem_cons_self, by decide +kernel⟩
  obtain ⟨tool, ht, hr⟩ := hnone _ rfl
  rcases h _ tool rfl ht with ⟨issue, hrejected⟩ | ⟨r, hrendered, -⟩
  · rw [hr] at hrejected
    cases hrejected
  · rw [hr] at hrendered
    cases hrendered

/-- Nothing is wrong with the variables, so parts of the scalar member are what has no answer, and
the schema has a union with a scalar among its members. -/
theorem outcome_memberPart : branches.Lawful ∧
    ∃ set, (branches.tools {}).1 = .ok set ∧ ∃ tool ∈ set.tools,
      (tool.render .null memberPart).1 = .error .partsOfLeaf ∧ ¬ branches.NoLeafMembers := by
  have hl : branches.Lawful := by decide +kernel
  have hm : branches.Fills {} .standard {} := .empty
  refine ⟨hl, _, rfl, _, List.mem_cons_self, ?_⟩
  obtain ⟨-, hiff, hmembers⟩ := outcome_of_render hl hm
    (show (branches.tools {}).1 = .ok _ from rfl) List.mem_cons_self .null memberPart
  have hnone := hiff.2 ⟨⟨.obj [], by decide +kernel⟩, _, rfl, by decide +kernel⟩
  exact ⟨hnone, fun h => hmembers h hnone⟩

end Schema

end OperationTools
