import OperationTools.Proofs.Document.Slot
import OperationTools.Proofs.Tool.Compiled

/-!
# Rendering

A tool renders what is accepted. Variables that are accepted give all required arguments, so that
nothing else can fail, and parts that are accepted are written as they were asked for.

## Main results

* `Tool.render_eq_ok_iff`: what is rendered
* `Tool.Compiled.documentFor_eq_ok`: accepted variables are enough for a document
* `Tool.Compiled.acceptSelection_obj_eq_ok_iff`: accepted parts are left as they are
-/

namespace OperationTools

namespace Operation

/-- Names are compared with the arguments without a failure. -/
theorem unusedVariables_names (op : Operation) (names : List String) :
    (op.unusedVariables (names.map .str)).1 = .ok () := by
  induction names with
  | nil => rfl
  | cons name rest ih => simpa [unusedVariables, Json.isComparable] using ih

/-- A document is written if all required arguments have a variable. -/
theorem compareVariables_obj_eq_ok {op : Operation} {entries : List (String × Json)}
    (h : ∀ v ∈ op.required, v.name ∈ entries.map (·.1)) :
    (op.compareVariables (.obj entries)).1 = .ok () := by
  have hfound : (op.required.find? fun v => !(Json.obj entries).holds v.name) = none := by
    rw [List.find?_eq_none]
    intro v hv
    simpa using (Json.holds_obj v.name entries).2 (h v hv)
  have hnames : (entries.map fun e => Json.str e.1) = (entries.map (·.1)).map .str := by
    rw [List.map_map]
    rfl
  simp only [compareVariables, Json.items?_obj, hfound, hnames]
  exact unusedVariables_names op _

/-- Without variables a document is written if no argument is required. -/
theorem compareVariables_null_eq_ok {op : Operation} (h : op.required = []) :
    op.compareVariables .null = (.ok (), []) := by
  simp [compareVariables, Json.items?, h, unusedVariables]

/-- The document for given variables is that of the operation, if there is one. -/
theorem documentFor_eq_ok_iff {op : Operation} {values : Json} {selection : Option Selection}
    {text : String} : (op.documentFor values selection).1 = .ok text ↔
      (op.compareVariables values).1 = .ok () ∧ text = op.document selection := by
  have hmap : (op.documentFor values selection).1 =
      (op.compareVariables values).1.map fun _ => op.document selection := rfl
  rw [hmap]
  cases (op.compareVariables values).1 with
  | error e => simp [Except.map]
  | ok => simp [Except.map, eq_comm]

end Operation

namespace Tool

variable {tool : Tool}

/-- Variables are accepted if there are no issues with them. -/
theorem acceptVariables_eq_ok_iff {values accepted : Json} :
    (tool.acceptVariables values).1 = .ok accepted ↔
      (tool.arguments.report (variablesOf values)).issues = [] ∧
        (tool.arguments.report (variablesOf values)).value = accepted := by
  rw [← Report.verdict_eq_ok_iff]
  exact mapError_eq_ok_iff

/-- Something is rendered if the variables and the selection are accepted and a document is
written. -/
theorem render_eq_ok_iff {values selection : Json} {r : Rendered} :
    (tool.render values selection).1 = .ok r ↔
      (tool.acceptVariables values).1 = .ok r.values ∧
      ∃ selected, tool.acceptSelection selection = .ok selected ∧
        (tool.write values selected).1 = .ok r.query := by
  unfold render
  rcases tool.acceptVariables values with ⟨_ | accepted, log⟩
  · simp
  · cases tool.acceptSelection selection with
    | error e => simp
    | ok selected =>
      cases hw : (tool.write values selected).1 with
      | error e => simp [hw]
      | ok query =>
        cases r
        simp [hw, and_comm]

/-- Parts are written into the document of the operation. -/
theorem query_eq_of_write_obj {values : Json} {entries : List (String × Json)} {query : String}
    (h : (tool.write values (.obj entries)).1 = .ok query) :
    query = tool.operation.document (some (Selection.ofJson (.obj entries))) :=
  (Operation.documentFor_eq_ok_iff.1 h).2

namespace Compiled

variable {inputs : InputTypes} {outputs : OutputTypes}

/-- Accepted variables are those of an object that gives all required arguments. -/
theorem required_of_acceptVariables (hc : tool.Compiled inputs outputs)
    (hd : (tool.operation.arguments.map (·.name)).Nodup) {values accepted : Json}
    (h : (tool.acceptVariables values).1 = .ok accepted) :
    ∃ entries, variablesOf values = .obj entries ∧
      ∀ v ∈ tool.operation.required, v.name ∈ entries.map (·.1) := by
  obtain ⟨s, t, u, -, -, hv, -⟩ := hc
  obtain ⟨part, hpart, -⟩ := InputTypes.yields_ofOperation_iff.1 hv
  rw [InputTypes.argumentsOf_eq hd] at hpart
  obtain ⟨hissues, -⟩ := acceptVariables_eq_ok_iff.1 h
  rw [hpart] at hissues
  obtain ⟨entries, he⟩ := Validator.exists_entries_of_object hissues
  refine ⟨entries, he, fun v hv => ?_⟩
  obtain ⟨hm, ho⟩ := List.mem_filter.1 hv
  rw [he] at hissues
  exact Validator.mem_keys_of_required hissues (List.mem_map_of_mem hm)
    (by simpa [InputTypes.argument] using ho)

/-- Accepted variables are enough for a document. -/
theorem documentFor_eq_ok (hc : tool.Compiled inputs outputs)
    (hd : (tool.operation.arguments.map (·.name)).Nodup) {values accepted : Json}
    (h : (tool.acceptVariables values).1 = .ok accepted) (selection : Option Selection) :
    (tool.operation.documentFor values selection).1 = .ok (tool.operation.document selection) := by
  refine Operation.documentFor_eq_ok_iff.2 ⟨?_, rfl⟩
  obtain ⟨entries, he, hrequired⟩ := hc.required_of_acceptVariables hd h
  cases values with
  | obj =>
    cases he
    exact Operation.compareVariables_obj_eq_ok hrequired
  | null =>
    cases he
    rw [Operation.compareVariables_null_eq_ok (List.eq_nil_iff_forall_not_mem.2 fun v hv => by
      simpa using hrequired v hv)]
  | bool | int | float | str | arr => cases he

/-- Accepted parts are left as they are. -/
theorem acceptSelection_obj_eq_ok_iff (hc : tool.Compiled inputs outputs)
    (hv : tool.selection.validator ≠ .anySelection) {entries : List (String × Json)}
    (h : entries ≠ []) {selected : Json} :
    tool.acceptSelection (.obj entries) = .ok selected ↔
      tool.selection.validator.takes (.obj entries) = true ∧ selected = .obj entries := by
  obtain ⟨memo, ha⟩ := hc.arises hv
  rw [acceptSelection, mapError_eq_ok_iff, SelectionPolicy.judge_obj_eq_ok_iff h]
  apply and_congr_right
  intro ht
  rw [ha.value_eq (Validator.takes_iff.1 ht).2, eq_comm]

end Compiled

end Tool

end OperationTools
