import OperationTools.Proofs.Compilation.InputConformance
import OperationTools.Proofs.Operation.Listing
import OperationTools.Proofs.Tool.Compiled

/-!
# The tools of a schema

A schema has one tool for each of its operations, in their order, and each is found by its name. The
operations are the fields of the root types with new names, up to a limit.

## Main results

* `ToolSet.find_eq_ok_iff`: a tool is found by its name
* `Schema.operations_of_toolsFor`: there is one tool for each operation
* `Schema.operations_registered`: which operations a schema has, and the tools that are made of them
-/

namespace OperationTools

namespace ToolSet

/-- Tools with distinct names are all added, in their order. -/
theorem foldl_add_of_nodup {added tools : List Tool}
    (h : ((added ++ tools).map Tool.name).Nodup) : tools.foldl add added = added ++ tools := by
  induction tools generalizing added with
  | nil => rw [List.foldl_nil, List.append_nil]
  | cons t rest ih =>
    have hnew : t.name ∉ added.map Tool.name := by
      rw [List.map_append, List.map_cons] at h
      exact fun ht => List.disjoint_of_nodup_append h ht List.mem_cons_self
    rw [List.append_cons] at h ⊢
    rw [List.foldl_cons, add, if_neg (by simpa using hnew), ih h]

theorem tools_ofTools {tools : List Tool} (h : (tools.map Tool.name).Nodup) (memo : Memo) :
    (ofTools tools memo).tools = tools := by
  have hadded : tools.foldl add [] = [] ++ tools := foldl_add_of_nodup h
  exact hadded

/-- Under a name that only one tool has the tool is found. -/
theorem find_eq_ok_iff {set : ToolSet} (h : set.names.Nodup) {name : String} {tool : Tool} :
    set.find name = .ok tool ↔ tool ∈ set.tools ∧ tool.name = name := by
  refine ⟨mem_of_find, ?_⟩
  rintro ⟨ht, rfl⟩
  cases hf : set.find tool.name with
  | ok found =>
    obtain ⟨hfound, hname⟩ := mem_of_find hf
    rw [List.inj_on_of_nodup_map h hfound ht hname]
  | error e => exact absurd (List.mem_map_of_mem ht) (find_eq_error_iff.1 hf).1

end ToolSet

namespace Schema

variable {schema : Schema} {settings : Settings} {scalars : ScalarTable} {memo : Memo}
  {ops : List Operation} {set : ToolSet}

/-- Each tool that is compiled is that of an operation, in their order. -/
theorem operations_of_yields_mapM {inputs : InputTypes} {outputs : OutputTypes}
    {s t : Compilation} {tools : List Tool}
    (h : (ops.mapM (toolOf inputs outputs)).Yields s tools t) : tools.map (·.operation) = ops := by
  replace h := TryCompile.yields_mapM.1 h
  induction h with
  | nil => rfl
  | cons head tail ih => rw [List.map_cons, (yields_toolOf_iff.1 head).1, ih]

/-- There is one tool for each of several operations with distinct names, in their order. -/
theorem operations_of_toolsFor (hn : (ops.map (·.name)).Nodup)
    (h : (schema.toolsFor settings memo scalars ops).1 = .ok set) :
    set.tools.map (·.operation) = ops := by
  obtain ⟨tools, log, rfl, hy⟩ := yields_of_toolsFor (Prod.ext h rfl)
  have hops := operations_of_yields_mapM hy
  have hnames : (tools.map Tool.name).Nodup := by
    rwa [← hops, List.map_map] at hn
  rwa [ToolSet.tools_ofTools hnames]

/-- Where the values of all enums can be told, there are tools for all operations. -/
theorem exists_toolsFor (hr : schema.Readable) (settings : Settings) (memo : Memo)
    (scalars : ScalarTable) (ops : List Operation) :
    ∃ set, (schema.toolsFor settings memo scalars ops).1 = .ok set := by
  have htotal : (ops.mapM (toolOf { schema, settings, scalars } { schema, settings })).Total :=
    TryCompile.total_mapM fun op _ => (InputTypes.total_ofOperation hr op).bind fun _ =>
      (TryCompile.total_lift _).bind fun _ => TryCompile.total_pure _
  obtain ⟨tools, htools⟩ := htotal.exists_ok memo
  unfold toolsFor
  simp only
  split
  · rename_i he
    rw [he] at htools
    cases htools
  · exact ⟨_, rfl⟩

theorem tools_of_operations (h : (schema.operations settings).1 = .ok ops) :
    (schema.tools settings memo scalars).1 = (schema.toolsFor settings memo scalars ops).1 := by
  unfold tools
  split
  · rename_i he
    rw [he] at h
    cases h
  · rename_i he
    rw [he] at h
    rw [Except.ok.inj h]

/-- The operations of a schema are the first of its root fields with new names, among those of the
included kinds that are not marked to be ignored, each with its first arguments. There is one tool
for each of them, which is found by its name, and none for any other name. -/
theorem operations_registered (schema : Schema) (settings : Settings) :
    (schema.HasCallableRoots settings → ∃ ops, (schema.operations settings).1 = .ok ops) ∧
    ∀ ops, (schema.operations settings).1 = .ok ops →
      List.Forall₂ (Operation.Presents settings)
        ((schema.keptFields settings).take settings.maxOperations) ops ∧
      (ops.map (·.name)).Nodup ∧
      (∀ before c after, schema.listedFields settings = before ++ c :: after →
        (∀ b ∈ before, settings.finalName b ≠ settings.finalName c) →
          c ∈ schema.keptFields settings) ∧
      (∀ limit : Cap, limit.value ≤ settings.maxOperations →
        (schema.operations { settings with maxOperations := limit }).1 = .ok (ops.take limit)) ∧
      ∀ memo scalars,
        (schema.Readable → ∃ set, (schema.tools settings memo scalars).1 = .ok set) ∧
        ∀ set, (schema.tools settings memo scalars).1 = .ok set →
          set.tools.map (·.operation) = ops ∧
          (∀ op ∈ ops, ∃ tool ∈ set.tools, set.find op.name = .ok tool ∧ tool.operation = op) ∧
          ∀ name, name ∉ ops.map (·.name) → set.find name = .error ⟨name⟩ := by
  refine ⟨exists_operations, fun ops h => ?_⟩
  have hn := nodup_names_operations h
  refine ⟨?_, hn, fun _ _ _ => mem_keptFields_of_first, ?_, fun memo scalars => ⟨?_, ?_⟩⟩
  · rw [eq_of_operations h, List.forall₂_map_right_iff, List.forall₂_same]
    exact fun c _ => Operation.presents_ofField settings c
  · intro limit hlimit
    rw [operations_lower hlimit, h]
    rfl
  · rw [tools_of_operations h]
    exact fun hr => exists_toolsFor hr settings memo scalars ops
  · intro set hset
    rw [tools_of_operations h] at hset
    have hops := operations_of_toolsFor hn hset
    have hnames : set.names = ops.map (·.name) := by
      rw [← hops, List.map_map]
      rfl
    refine ⟨hops, fun op hop => ?_, fun name hname => ?_⟩
    · rw [← hops] at hop
      obtain ⟨tool, ht, rfl⟩ := List.mem_map.1 hop
      exact ⟨tool, ht, (ToolSet.find_eq_ok_iff (hnames ▸ hn)).2 ⟨ht, rfl⟩, rfl⟩
    · cases hf : set.find name with
      | ok tool =>
        obtain ⟨ht, rfl⟩ := ToolSet.mem_of_find hf
        exact absurd (hnames ▸ List.mem_map_of_mem ht) hname
      | error e => rw [(ToolSet.find_eq_error_iff.1 hf).2]

/-- Notes with drafts, of which queries are not to be offered, and three mutations. -/
def notebook : Schema where
  types :=
    [⟨"Query", .object []
        [⟨"note", .named "String", [], none⟩, ⟨"drafts", .named "Int", [], some "NO_MCP_TOOL yet"⟩,
          ⟨"tags", .named "String", [⟨"first", .named "Int", none⟩, ⟨"after", .named "Int", none⟩],
            some "All tags"⟩]⟩,
      ⟨"Mutation", .object []
        [⟨"note", .named "Int", [], none⟩, ⟨"drafts", .named "Int", [], none⟩,
          ⟨"close", .named "Int", [], none⟩]⟩,
      ⟨"Int", .scalar⟩, ⟨"String", .scalar⟩]
  roots := [(.query, "Query"), (.mutation, "Mutation")]

/-- The query for drafts is ignored and so does not hide the mutation, while the query for a note
does. The third operation is the last one that fits. -/
theorem operations_registered_notebook :
    let settings : Settings :=
      { includeMutations := true, maxOperations := 3, maxOperationArguments := 1 }
    notebook.HasCallableRoots settings ∧ notebook.Readable ∧
      ∃ ops, (notebook.operations settings).1 = .ok ops ∧
        ops.map (fun op => (op.kind, op.name)) =
          [(.query, "note"), (.query, "tags"), (.mutation, "drafts")] ∧
        (notebook.operations { settings with maxOperations := 2 }).1 = .ok (ops.take 2) ∧
        ∃ set, (notebook.tools settings).1 = .ok set ∧
          (∀ op ∈ ops, ∃ tool ∈ set.tools, set.find op.name = .ok tool ∧ tool.operation = op) ∧
          set.find "close" = .error ⟨"close"⟩ := by
  intro settings
  have hroots : notebook.HasCallableRoots settings := by decide
  have hreadable : notebook.Readable := by decide
  obtain ⟨hexists, hall⟩ := operations_registered notebook settings
  obtain ⟨ops, hops⟩ := hexists hroots
  obtain ⟨-, -, -, hlower, htools⟩ := hall ops hops
  obtain ⟨set, hset⟩ := (htools {} .standard).1 hreadable
  obtain ⟨-, hfound, hother⟩ := (htools {} .standard).2 set hset
  have hnames : ops.map (fun op => (op.kind, op.name)) =
      [(.query, "note"), (.query, "tags"), (.mutation, "drafts")] := by
    rw [eq_of_operations hops]
    decide
  refine ⟨hroots, hreadable, ops, hops, hnames, hlower 2 (by decide), set, hset, hfound,
    hother "close" ?_⟩
  have hclose : ops.map (·.name) = ["note", "tags", "drafts"] := by
    rw [eq_of_operations hops]
    decide
  rw [hclose]
  decide

/-- A schema whose queries are asked of a union, which has no fields. -/
def unionRooted : Schema where
  types :=
    [⟨"U", .union ["T"]⟩, ⟨"T", .object [] [⟨"a", .named "Int", [], none⟩]⟩,
      ⟨"M", .object [] [⟨"m", .named "Int", [], none⟩]⟩, ⟨"Int", .scalar⟩]
  roots := [(.query, "U"), (.mutation, "M")]

/-- There are no operations where a union is among the roots, although a field of another root was
kept. -/
theorem operations_unionRooted :
    ¬ ∀ settings, ∃ ops, (unionRooted.operations settings).1 = .ok ops ∧
      List.Forall₂ (Operation.Presents settings)
        ((unionRooted.keptFields settings).take settings.maxOperations) ops := by
  intro h
  obtain ⟨ops, hops, -⟩ := h { includeMutations := true }
  cases hops

end Schema

end OperationTools
