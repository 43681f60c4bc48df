import OperationTools.Compilation.InputTypes
import OperationTools.Compilation.OutputTypes
import OperationTools.Document.Writer
import OperationTools.Operation.Extraction

/-!
# Tools

A tool is an operation with its compiled validators. It judges variables and selections and renders
the document of the operation. The tools of a schema are looked up by the name of their operation.

## Main definitions

* `Tool`, `Tool.render`: tools, and the document and variables they render
* `ToolSet`, `ToolSet.find`: the tools of a schema by name
* `ToolError`: why a schema has no tools
* `Schema.toolsFor`, `Schema.tools`: the tools of given operations, and of all that a schema offers

## Main results

* `ToolSet.nodup_names_ofTools`: the names of the tools of a set are distinct
* `ToolSet.mem_of_find`, `ToolSet.find_eq_error_iff`: what is found under a name, and when nothing
  is
-/

namespace OperationTools

/-- An operation with its compiled validators. -/
structure Tool where
  operation : Operation
  arguments : Validator
  selection : SelectionPolicy

/-- A rendered document and the accepted variables. -/
structure Rendered where
  query : String
  values : Json
deriving DecidableEq

/-- Why nothing is rendered. -/
inductive RenderError where
  | rejected (r : Rejection)
  | unwritten (e : DocumentError)
  /-- Parts of a scalar or enum are asked for. -/
  | partsOfLeaf
deriving DecidableEq

/-- The message about an error. -/
def RenderError.message : RenderError → String
  | .rejected r => r.message
  | .unwritten e => e.message
  | .partsOfLeaf => "Parts of a scalar or enum are selected"

/-- The error of a selection of an operation. -/
def SelectionError.inOperation (name : String) : SelectionError → RenderError
  | .issue i => .rejected ⟨i, some name⟩
  | .partsOfLeaf => .partsOfLeaf

namespace Tool

/-- The name of a tool is that of its operation. -/
def name (tool : Tool) : String := tool.operation.name

/-- The variables that are meant by a value: no value at all means no variables. -/
def variablesOf : Json → Json
  | .null => .obj []
  | x => x

/-- The accepted variables or the rejection, with notices. -/
def acceptVariables (tool : Tool) (values : Json) : Except Rejection Json × List Notice :=
  let report := tool.arguments.report (variablesOf values)
  (report.verdict.mapError fun issue => ⟨issue, some tool.name⟩, report.dropped.map .dropped)

/-- The selection that is meant, or why there is none. -/
def acceptSelection (tool : Tool) (selection : Json) : Except RenderError Json :=
  (tool.selection.judge selection).mapError (·.inOperation tool.name)

/-- The document for the caller's variables and a selection that needs no check, with notices. -/
def write (tool : Tool) (values selection : Json) :
    Except DocumentError String × List Notice :=
  let selected := match selection with
    | .null => none
    | x => some (Selection.ofJson x)
  tool.operation.documentFor values selected

/-- The document and the accepted variables, with notices. Variables are judged first, then the
selection; the names of the caller's variables are compared with the arguments. -/
def render (tool : Tool) (values selection : Json) :
    Except RenderError Rendered × List Notice :=
  let (accepted, log) := tool.acceptVariables values
  match accepted, tool.acceptSelection selection with
  | .error r, _ => (.error (.rejected r), log)
  | .ok _, .error e => (.error e, log)
  | .ok accepted, .ok selected =>
    let (written, unused) := tool.write values selected
    match written with
    | .error e => (.error (.unwritten e), log ++ unused)
    | .ok query => (.ok { query, values := accepted }, log ++ unused)

/-- The published schema of the arguments. -/
def publishedArguments (tool : Tool) : Json := tool.arguments.published.toJson

/-- The published schema of the selection. -/
def publishedSelection (tool : Tool) : Json := tool.selection.published

end Tool

/-! ## Tool sets -/

/-- The tools of a schema and the memo they were compiled with. -/
structure ToolSet where
  tools : List Tool
  memo : Memo

/-- No tool has this name. -/
structure UnknownTool where
  name : String
deriving DecidableEq, Repr

/-- The message about an unknown name. -/
def UnknownTool.message (e : UnknownTool) : String := s!"Unknown operation: {e.name}"

namespace ToolSet

/-- Tools with another one after them, unless its name is taken. -/
def add (tools : List Tool) (t : Tool) : List Tool :=
  if (tools.map Tool.name).contains t.name then tools else tools ++ [t]

/-- The tools, of several with one name the first. -/
def ofTools (tools : List Tool) (memo : Memo) : ToolSet :=
  { tools := tools.foldl add [], memo }

/-- The names of the tools. -/
def names (set : ToolSet) : List String := set.tools.map Tool.name

/-- Whether a tool has the name. -/
def contains (set : ToolSet) (name : String) : Bool := set.names.contains name

/-- The tool of a name. -/
def find (set : ToolSet) (name : String) : Except UnknownTool Tool :=
  match set.tools.find? (·.name == name) with
  | some tool => .ok tool
  | none => .error ⟨name⟩

/-- The texts of the notes that were taken while the tools were compiled. -/
def notes (set : ToolSet) : List String := set.memo.notes.map Truncation.text

/-! ### Look-up -/

theorem nodup_names_foldl_add (given tools : List Tool) (h : (tools.map Tool.name).Nodup) :
    ((given.foldl add tools).map Tool.name).Nodup := by
  induction given generalizing tools with
  | nil => exact h
  | cons t rest ih =>
    apply ih
    unfold add
    split
    · exact h
    · rename_i hc
      rw [List.map_append, List.nodup_append]
      refine ⟨h, by simp, fun a ha b hb => ?_⟩
      rintro rfl
      exact hc (by simpa [List.mem_singleton.1 (by simpa using hb)] using ha)

/-- The names of the tools of a set are distinct. -/
theorem nodup_names_ofTools (tools : List Tool) (memo : Memo) : (ofTools tools memo).names.Nodup :=
  nodup_names_foldl_add tools [] (by simp)

theorem contains_iff {set : ToolSet} {name : String} :
    set.contains name = true ↔ name ∈ set.names := by
  simp [contains]

/-- What is found is a tool of the set and has the name. -/
theorem mem_of_find {set : ToolSet} {name : String} {tool : Tool}
    (h : set.find name = .ok tool) : tool ∈ set.tools ∧ tool.name = name := by
  unfold find at h
  split at h
  · rename_i found hf
    cases h
    exact ⟨List.mem_of_find?_eq_some hf, by simpa using List.find?_some hf⟩
  · cases h

/-- Nothing is found exactly under the names that no tool has. -/
theorem find_eq_error_iff {set : ToolSet} {name : String} {e : UnknownTool} :
    set.find name = .error e ↔ name ∉ set.names ∧ e = ⟨name⟩ := by
  unfold find
  split
  · rename_i tool hf
    have hm : name ∈ set.names :=
      List.mem_map.2 ⟨tool, List.mem_of_find?_eq_some hf, by simpa using List.find?_some hf⟩
    simp [hm]
  · rename_i hf
    have hn : name ∉ set.names := by
      intro hm
      obtain ⟨tool, ht, hname⟩ := List.mem_map.1 hm
      exact List.find?_eq_none.1 hf tool ht (by simp [hname])
    simp [hn, eq_comm]

end ToolSet

/-- Why a schema has no tools. -/
inductive ToolError where
  | uncallableRoot (e : UncallableRoot)
  | unreadableEnum (e : UnreadableEnum)
deriving DecidableEq, Repr

/-- The message about an error. -/
def ToolError.message : ToolError → String
  | .uncallableRoot e => e.message
  | .unreadableEnum e => e.message

namespace Schema

/-- The tool of an operation. -/
def toolOf (inputs : InputTypes) (outputs : OutputTypes) (op : Operation) : TryCompile Tool := do
  let arguments ← inputs.ofOperation op
  let selection ← outputs.ofOperation op
  pure { operation := op, arguments, selection }

/-- The tools of operations, compiled from a memo on, with the memo afterwards and notices. -/
def toolsFor (schema : Schema) (settings : Settings) (memo : Memo) (scalars : ScalarTable)
    (operations : List Operation) : Except ToolError ToolSet × Memo × List Notice :=
  let inputs : InputTypes := { schema, settings, scalars }
  let outputs : OutputTypes := { schema, settings }
  match Compile.runOn (operations.mapM (toolOf inputs outputs)).run memo with
  | (.error e, filled, log) => (.error (.unreadableEnum e), filled, log)
  | (.ok tools, filled, log) =>
    (.ok (.ofTools tools filled), filled, log ++ [.compiled tools.length filled.size])

/-- The tools of the operations that a schema offers, with the memo afterwards and notices. -/
def tools (schema : Schema) (settings : Settings) (memo : Memo := {})
    (scalars : ScalarTable := .standard) : Except ToolError ToolSet × Memo × List Notice :=
  match schema.operations settings with
  | (.error e, log) => (.error (.uncallableRoot e), memo, log)
  | (.ok operations, log) =>
    let (result, filled, more) := schema.toolsFor settings memo scalars operations
    (result, filled, log ++ more)

end Schema

end OperationTools
