import OperationTools.Proofs.Compilation.InputSharing
import OperationTools.Proofs.Compilation.OutputSharing
import OperationTools.Tool

/-!
# Compiled tools

The validators of a tool are compiled one after the other with one memo, those of arguments and
those of selections under keys of their own. So every tool of a set was compiled from a memo that is
sound for both.

## Main definitions

* `Tool.Compiled`: the validators of a tool are those of its operation
* `Schema.Fills`: the memos that earlier tools filled

## Main results

* `Schema.compiled_of_toolsFor`: the tools of a set are compiled
* `Schema.exists_operations_of_tools`: the tools of a schema are those of its operations
-/

namespace OperationTools

namespace InputTypes

variable {types : InputTypes}

/-- Arguments are kept under keys of their own. -/
theorem find?_output_of_yields {left : Nat} {visited : List String} {r : TypeRef}
    {s t : Compilation} {v : Validator} (h : (types.ofType left visited r).Yields s v t)
    (n : String) (d : Int) : t.memo.find? (.output n d) = s.memo.find? (.output n d) := by
  induction left generalizing visited r s v t with
  | zero =>
    obtain ⟨-, rfl⟩ := types.yields_ofType_zero_iff.1 h
    rfl
  | succ left ih =>
    obtain ⟨w, hw, -⟩ := types.yields_ofType_succ_iff.1 h
    cases hw with
    | scalar | foreign | keptEnum | insideEnum | kept | inside => rfl
    | madeEnum => simp [Memo.find?_keep]
    | made _ _ _ hp =>
      have hu := hp.preserves
        (P := fun u => u.memo.find? (.output n d) = s.memo.find? (.output n d))
        (fun _ _ _ _ h hu => (ih h).trans hu) (types.find?_noted ..)
      rw [Memo.find?_keep, if_neg (by simp), Option.or_none, hu]

theorem find?_output_of_yields_operation {op : Operation} {s t : Compilation} {v : Validator}
    (h : (types.ofOperation op).Yields s v t) (n : String) (d : Int) :
    t.memo.find? (.output n d) = s.memo.find? (.output n d) := by
  obtain ⟨_, -, hp⟩ := yields_ofOperation_iff.1 h
  refine hp.preserves (P := fun u => u.memo.find? (.output n d) = s.memo.find? (.output n d))
    (fun type? _ _ _ h hu => ?_) rfl
  cases type? with
  | none =>
    obtain ⟨-, rfl⟩ := yields_none_iff.1 h
    exact hu
  | some r => exact (find?_output_of_yields h n d).trans hu

end InputTypes

namespace OutputTypes

variable {types : OutputTypes}

/-- Selections are kept under keys of their own. -/
theorem find?_of_yields_operation {op : Operation} {s t : Compilation} {p : SelectionPolicy}
    (h : (types.ofOperation op).Yields s p t) {k : Memo.Key} (hk : ∀ n d, k ≠ .output n d) :
    t.memo.find? k = s.memo.find? k := by
  rcases yields_ofOperation_iff.1 h with ⟨-, -, rfl⟩ | ⟨_, _, -, hv, -⟩
  · rfl
  · exact types.find?_of_yields hv fun m l he => absurd he (hk _ _)

variable (types) in
/-- The policies of operations with a result: the validator is strict or a leaf. -/
inductive PolicyFor (memo : Memo) : Option TypeRef → SelectionPolicy → Prop where
  | untyped : PolicyFor memo none { validator := .anySelection }
  | leaf {type : TypeRef} (hc : types.schema.isComposite type.name = false) :
      PolicyFor memo (some type) { validator := .leaf }
  | strict {left : Nat} {type : TypeRef} {body : TypeBody} {part : String → Validator}
      (hb : types.schema.body? type.name = some body) (hc : body.isComposite = true)
      (hp : ∀ m ∈ types.parts type.name body, types.Stands memo left m (part m)) :
      PolicyFor memo (some type)
        { validator := types.node type.name body part
          fallbackKeys := types.schema.defaultKeys type.name }

/-- What has no parts has no default keys. -/
theorem defaultKeys_eq_nil {schema : Schema} {n : String} (hc : schema.isComposite n = false) :
    schema.defaultKeys n = [] := by
  rw [Schema.isComposite, Option.any_eq_false_iff_get] at hc
  unfold Schema.defaultKeys
  split <;> simp_all [TypeBody.isComposite]

/-- The policy of an operation is that of its result. -/
theorem policyFor_of_yields_operation {op : Operation} {s t : Compilation} {p : SelectionPolicy}
    (h : (types.ofOperation op).Yields s p t) (hs : types.Sound s.memo) :
    types.PolicyFor t.memo op.result p := by
  rcases yields_ofOperation_iff.1 h with ⟨hr, rfl, -⟩ | ⟨type, v, hr, hv, rfl⟩
  · rw [hr]
    exact .untyped
  · rw [levelsLeft_zero] at hv
    rw [hr]
    rcases leaf_or_node_of_yields hv hs with ⟨hc, rfl⟩ | ⟨body, part, hb, hc, rfl, hp⟩
    · rw [defaultKeys_eq_nil hc]
      exact .leaf hc
    · exact .strict hb hc hp

/-- The validators inside a policy arise from strict ones, unless there is no result. -/
theorem PolicyFor.arises {memo : Memo} {type? : Option TypeRef} {p : SelectionPolicy}
    (h : types.PolicyFor memo type? p) :
    p.validator = .anySelection ∨ types.Arises memo p.validator := by
  cases h with
  | untyped => exact .inl rfl
  | leaf => exact .inr .leaf
  | strict hb hc hp => exact .inr (.strictly hb hc hp)

end OutputTypes

/-- The validators of a tool are those of its operation, compiled from a sound memo. -/
def Tool.Compiled (inputs : InputTypes) (outputs : OutputTypes) (tool : Tool) : Prop :=
  ∃ s t u, inputs.Sound s.memo ∧ outputs.Sound t.memo ∧
    (inputs.ofOperation tool.operation).Yields s tool.arguments t ∧
    (outputs.ofOperation tool.operation).Yields t tool.selection u

namespace Tool.Compiled

variable {inputs : InputTypes} {outputs : OutputTypes} {tool : Tool}

theorem policyFor (h : tool.Compiled inputs outputs) :
    ∃ memo, outputs.PolicyFor memo tool.operation.result tool.selection := by
  obtain ⟨s, t, u, -, ho, -, hp⟩ := h
  exact ⟨u.memo, OutputTypes.policyFor_of_yields_operation hp ho⟩

theorem arises (h : tool.Compiled inputs outputs) (hv : tool.selection.validator ≠ .anySelection) :
    ∃ memo, outputs.Arises memo tool.selection.validator := by
  obtain ⟨memo, hp⟩ := h.policyFor
  exact ⟨memo, hp.arises.resolve_left hv⟩

end Tool.Compiled

/-- A tool of a set is one of those that the set was made of. -/
theorem ToolSet.mem_of_mem_ofTools {given : List Tool} {memo : Memo} {tool : Tool}
    (h : tool ∈ (ofTools given memo).tools) : tool ∈ given := by
  suffices ∀ tools : List Tool, tool ∈ given.foldl add tools → tool ∈ tools ∨ tool ∈ given by
    exact (this [] h).resolve_left (by simp)
  clear h
  induction given with
  | nil => exact fun tools h => .inl h
  | cons t rest ih =>
    intro tools h
    rcases ih _ h with h | h
    · unfold add at h
      split at h
      · exact .inl h
      · rcases List.mem_append.1 h with h | h
        · exact .inl h
        · exact .inr (List.mem_cons.2 (.inl (List.mem_singleton.1 h)))
    · exact .inr (List.mem_cons_of_mem _ h)

namespace Schema

variable {inputs : InputTypes} {outputs : OutputTypes}

theorem yields_toolOf_iff {op : Operation} {s u : Compilation} {tool : Tool} :
    (toolOf inputs outputs op).Yields s tool u ↔ tool.operation = op ∧
      ∃ t, (inputs.ofOperation op).Yields s tool.arguments t ∧
        (outputs.ofOperation op).Yields t tool.selection u := by
  rw [toolOf, TryCompile.yields_bind]
  constructor
  · rintro ⟨v, t, hv, h⟩
    obtain ⟨p, u', hp, h⟩ := TryCompile.yields_bind.1 h
    obtain ⟨rfl, rfl⟩ := TryCompile.yields_pure.1 h
    exact ⟨rfl, t, hv, TryCompile.yields_lift.1 hp⟩
  · rintro ⟨rfl, t, hv, hp⟩
    refine ⟨_, t, hv, TryCompile.yields_bind.2 ⟨_, u, TryCompile.yields_lift.2 hp, ?_⟩⟩
    exact TryCompile.yields_pure.2 ⟨rfl, rfl⟩

/-- Compiling arguments keeps a memo sound for output types. -/
theorem sound_outputs_of_yields_arguments {op : Operation} {s t : Compilation} {v : Validator}
    (h : (inputs.ofOperation op).Yields s v t) (ho : outputs.Sound s.memo) :
    outputs.Sound t.memo :=
  ho.of_le (InputTypes.memo_le_of_yields_operation h) fun n _ =>
    InputTypes.find?_output_of_yields_operation h n _

/-- Compiling a tool keeps the memo sound on both sides. -/
theorem sound_of_yields_toolOf {op : Operation} {s u : Compilation} {tool : Tool}
    (h : (toolOf inputs outputs op).Yields s tool u) (hi : inputs.Sound s.memo)
    (ho : outputs.Sound s.memo) :
    tool.Compiled inputs outputs ∧ inputs.Sound u.memo ∧ outputs.Sound u.memo := by
  obtain ⟨rfl, t, hv, hp⟩ := yields_toolOf_iff.1 h
  have ho' : outputs.Sound t.memo := sound_outputs_of_yields_arguments hv ho
  have hi' : inputs.Sound u.memo :=
    (InputTypes.sound_of_yields_operation hv hi).of_le (OutputTypes.memo_le_of_yields_operation hp)
      (fun n => OutputTypes.find?_of_yields_operation hp (by simp))
      fun n => OutputTypes.find?_of_yields_operation hp (by simp)
  exact ⟨⟨s, t, u, hi, ho', hv, hp⟩, hi', OutputTypes.sound_of_yields_operation hp ho'⟩

/-- A traversal of operations makes compiled tools and keeps the memo sound. -/
theorem sound_of_yields_mapM {ops : List Operation} {s t : Compilation} {tools : List Tool}
    (h : (ops.mapM (toolOf inputs outputs)).Yields s tools t) (hi : inputs.Sound s.memo)
    (ho : outputs.Sound s.memo) :
    (∀ tool ∈ tools, tool.operation ∈ ops ∧ tool.Compiled inputs outputs) ∧
      inputs.Sound t.memo ∧ outputs.Sound t.memo := by
  replace h := TryCompile.yields_mapM.1 h
  -- induction on the thread: each operation starts from the memo that the last one left
  induction h with
  | nil => exact ⟨by simp, hi, ho⟩
  | cons head tail ih =>
    obtain ⟨hc, hi', ho'⟩ := sound_of_yields_toolOf head hi ho
    obtain ⟨hall, hsound⟩ := ih hi' ho'
    refine ⟨fun tool ht => ?_, hsound⟩
    rcases List.mem_cons.1 ht with rfl | ht
    · obtain ⟨rfl, -⟩ := yields_toolOf_iff.1 head
      exact ⟨List.mem_cons_self, hc⟩
    · exact ⟨List.mem_cons_of_mem _ (hall tool ht).1, (hall tool ht).2⟩

variable {schema : Schema} {settings : Settings} {scalars : ScalarTable}

/-- A set of tools comes out of a traversal of its operations. -/
theorem yields_of_toolsFor {memo filled : Memo} {ops : List Operation} {set : ToolSet}
    {log : List Notice} (h : schema.toolsFor settings memo scalars ops = (.ok set, filled, log)) :
    ∃ tools log', set = .ofTools tools filled ∧
      (ops.mapM (toolOf { schema, settings, scalars } { schema, settings })).Yields { memo } tools
        { memo := filled, log := log' } := by
  unfold toolsFor at h
  simp only at h
  split at h
  · cases h
  · rename_i tools filled' log' he
    cases h
    exact ⟨tools, log', rfl, TryCompile.yields_of_runOn he⟩

variable (schema settings scalars) in
/-- The memos that the tools of a schema are compiled with: the empty one, and those that earlier
tools of the schema filled. -/
inductive Fills : Memo → Prop where
  | empty : Fills {}
  | compiled {memo filled : Memo} {ops : List Operation} {set : ToolSet} {log : List Notice}
      (hm : Fills memo) (h : schema.toolsFor settings memo scalars ops = (.ok set, filled, log)) :
      Fills filled

theorem Fills.sound {memo : Memo} (h : schema.Fills settings scalars memo) :
    ({ schema, settings, scalars } : InputTypes).Sound memo ∧
      ({ schema, settings } : OutputTypes).Sound memo := by
  induction h with
  | empty => exact ⟨InputTypes.sound_empty, OutputTypes.sound_empty⟩
  | compiled _ h ih =>
    obtain ⟨tools, log, -, hy⟩ := yields_of_toolsFor h
    exact (sound_of_yields_mapM hy ih.1 ih.2).2

/-- The tools of operations are compiled. -/
theorem compiled_of_toolsFor {memo : Memo} (hm : schema.Fills settings scalars memo)
    {ops : List Operation} {set : ToolSet}
    (h : (schema.toolsFor settings memo scalars ops).1 = .ok set) {tool : Tool}
    (ht : tool ∈ set.tools) :
    tool.operation ∈ ops ∧ tool.Compiled { schema, settings, scalars } { schema, settings } := by
  obtain ⟨tools, log, rfl, hy⟩ := yields_of_toolsFor (Prod.ext h rfl)
  exact (sound_of_yields_mapM hy hm.sound.1 hm.sound.2).1 tool (ToolSet.mem_of_mem_ofTools ht)

/-- The tools of a schema are those of the operations that it offers. -/
theorem exists_operations_of_tools {memo : Memo} {set : ToolSet}
    (h : (schema.tools settings memo scalars).1 = .ok set) :
    ∃ ops log, schema.operations settings = (.ok ops, log) ∧
      (schema.toolsFor settings memo scalars ops).1 = .ok set := by
  unfold tools at h
  split at h
  · cases h
  · rename_i ops log he
    exact ⟨ops, log, he, h⟩

end Schema

end OperationTools
