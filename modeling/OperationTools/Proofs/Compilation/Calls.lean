import Mathlib.Data.List.Perm.Subperm
import OperationTools.Proofs.Compilation.InputConformance
import OperationTools.Proofs.Compilation.Walks
import OperationTools.Proofs.Tool.Compiled

/-!
# Calls on one memo

The compilers of a schema are called for arguments and for selections, in any order and with one
memo, which is empty at first. Compiling is by recursion on the levels that the depth limit leaves,
so every call ends; a call that fails leaves the memo as far as it was filled. What is recorded of
the calls tells that every body is walked at most once where no call fails, that the memo stays
within a bound that depends on the schema and the depth limit alone, and that no more strict
validators stand inside one another than the depth limit allows.

## Main definitions

* `Compilers`, `Compilers.Call`: the compilers of a schema, and what they are called for
* `Compilers.record`: the state after calls, and the bodies that were walked
* `Schema.MayKeep`: the keys under which something may be kept

## Main results

* `Compilers.takes_step`: the course of a call
* `Compilers.perm_walked_record`: bodies are walked once, and the memo is bounded
-/

namespace OperationTools

/-- The compilers of arguments and selections of a schema. -/
structure Compilers where
  schema : Schema
  settings : Settings
  scalars : ScalarTable := .standard
  implementers : Bool := true

namespace Compilers

/-- What a compiler is called for. -/
inductive Call where
  | arguments (op : Operation)
  | selection (op : Operation)

/-- What calls on one memo leave: the last state, the bodies whose walks were begun, and whether all
calls gave a result. -/
structure Record where
  state : Compilation := {}
  walked : List Memo.Key := []
  answered : Bool := true

variable (c : Compilers)

/-- What arguments are compiled with. -/
def inputs : InputTypes := { schema := c.schema, settings := c.settings, scalars := c.scalars }

/-- What selections are compiled with. -/
def outputs : OutputTypes :=
  { schema := c.schema, settings := c.settings, implementers := c.implementers }

/-- A call, of whose result it only matters that there is one. -/
def step : Call → TryCompile Unit
  | .arguments op => do
    let _ ← c.inputs.ofOperation op
    pure ()
  | .selection op => do
    let _ ← (c.outputs.ofOperation op : Compile SelectionPolicy)
    pure ()

/-- The bodies that are walked by a call. -/
def walks : Call → Compilation → List Memo.Key
  | .arguments op => c.inputs.walksOf op
  | .selection op => c.outputs.walksOf op

/-- The record with one more call. -/
def add (r : Record) (call : Call) : Record :=
  let (result, s) := (c.step call).run.run r.state
  { state := s
    walked := r.walked ++ c.walks call r.state
    answered := r.answered && result.isOk }

/-- The record of calls one after another, from the empty memo on. -/
def record (calls : List Call) : Record := calls.foldl c.add {}

/-- The selection policy of an operation after calls. -/
def policyAfter (calls : List Call) (op : Operation) : SelectionPolicy :=
  ((c.outputs.ofOperation op).run (c.record calls).state).1

end Compilers

/-! ## Keys of a schema -/

/-- Whether validators of a type are kept under its name alone. -/
def TypeBody.isKeptByName : TypeBody → Bool
  | .enum _ | .input _ => true
  | _ => false

namespace Schema

/-- What may be kept: composite types at every depth up to the limit, enums and input objects. -/
def MayKeep (schema : Schema) (limit : Nat) : Memo.Key → Prop
  | .output n depth => schema.isComposite n = true ∧ 0 ≤ depth ∧ depth ≤ limit
  | .input n => ∃ fields, schema.body? n = some (.input fields)
  | .enum n => ∃ values, schema.body? n = some (.enum values)

/-- All keys under which something may be kept. -/
def allKeys (schema : Schema) (limit : Nat) : List Memo.Key :=
  ((schema.types.filter (·.body.isComposite)).flatMap fun t =>
      (List.range (limit + 1)).map fun depth => .output t.name depth) ++
    schema.types.filterMap fun t =>
      match t.body with
      | .enum _ => some (.enum t.name)
      | .input _ => some (.input t.name)
      | _ => none

variable {schema : Schema} {limit : Nat}

theorem MayKeep.mem_allKeys {key : Memo.Key} (h : schema.MayKeep limit key) :
    key ∈ schema.allKeys limit := by
  rw [allKeys, List.mem_append]
  cases key with
  | output n depth =>
    obtain ⟨hc, hnonneg, hle⟩ := h
    obtain ⟨body, hb, hbody⟩ := (Option.any_eq_true ..).1 hc
    obtain ⟨d, rfl⟩ := Int.eq_ofNat_of_zero_le hnonneg
    refine .inl (List.mem_flatMap.2 ⟨⟨n, body⟩, ?_, ?_⟩)
    · exact List.mem_filter.2 ⟨mem_of_body? hb, hbody⟩
    · exact List.mem_map.2 ⟨d, List.mem_range.2 (by omega), rfl⟩
  | input n =>
    obtain ⟨fields, hb⟩ := h
    exact .inr (List.mem_filterMap.2 ⟨_, mem_of_body? hb, rfl⟩)
  | enum n =>
    obtain ⟨values, hb⟩ := h
    exact .inr (List.mem_filterMap.2 ⟨_, mem_of_body? hb, rfl⟩)

variable (schema limit) in
theorem length_allKeys : (schema.allKeys limit).length =
    schema.types.countP (·.body.isComposite) * (limit + 1) +
      schema.types.countP (·.body.isKeptByName) := by
  rw [allKeys, List.length_append, List.length_flatMap, List.length_filterMap_eq_countP]
  congr 1
  · simp [List.countP_eq_length_filter]
  · refine List.countP_congr fun t _ => ?_
    cases t.body <;> simp [TypeBody.isKeptByName]

/-- A memo that keeps each key once, and only such that may be kept, is bounded. -/
theorem size_le_of_mayKeep {memo : Memo} (hd : memo.keys.Nodup)
    (h : ∀ key ∈ memo.keys, schema.MayKeep limit key) :
    memo.size ≤ schema.types.countP (·.body.isComposite) * (limit + 1) +
      schema.types.countP (·.body.isKeptByName) := by
  have hsub : memo.keys.Subperm (schema.allKeys limit) :=
    List.subperm_of_subset hd fun key hk => (h key hk).mem_allKeys
  calc memo.size = memo.keys.length := by rw [Memo.size, Memo.keys, List.length_map]
    _ ≤ (schema.allKeys limit).length := hsub.length_le
    _ = _ := length_allKeys schema limit

end Schema

namespace Compilers

variable {c : Compilers}

/-! ## One call -/

variable (c) in
/-- A call takes the course along its walks. -/
theorem takes_step (call : Call) (s : Compilation) :
    (c.step call).Takes (c.schema.note? c.settings) s (c.walks call s) := by
  cases call with
  | arguments op => exact (c.inputs.takes_ofOperation op s).map fun _ => ()
  | selection op => exact (c.outputs.takes_ofOperation op s).map fun _ => ()

/-- Only keys of the schema are walked. -/
theorem mayKeep_of_mem_walks {call : Call} {s : Compilation} {key : Memo.Key}
    (h : key ∈ c.walks call s) : c.schema.MayKeep c.settings.maxSchemaDepth key := by
  cases call with
  | arguments op =>
    rcases InputTypes.key_of_mem_walksOf h with ⟨m, values, rfl, hb⟩ | ⟨m, fields, rfl, hb⟩
    · exact ⟨values, hb⟩
    · exact ⟨fields, hb⟩
  | selection op =>
    rw [walks, OutputTypes.walksOf] at h
    split at h
    · cases h
    · rw [OutputTypes.levelsLeft_zero] at h
      obtain ⟨m, l, rfl, hl, hc⟩ := c.outputs.key_of_mem_walks h
      have hl : l < c.settings.maxSchemaDepth + 1 := hl
      have hd : c.outputs.settings.maxSchemaDepth.value = c.settings.maxSchemaDepth.value := rfl
      exact ⟨hc, by omega, by omega⟩

/-- Calls keep the memo sound for output types. Those for arguments keep nothing there. -/
theorem sound_step (call : Call) {s : Compilation} (hs : c.outputs.Sound s.memo) :
    c.outputs.Sound ((c.step call).run.run s).2.memo := by
  cases call with
  | arguments op =>
    have hcourse := c.takes_step (.arguments op) s
    refine hs.of_le hcourse.memo_le fun n left => hcourse.find?_of_notMem fun hm => ?_
    rcases InputTypes.key_of_mem_walksOf hm with ⟨m, values, he, -⟩ | ⟨m, fields, he, -⟩ <;>
      cases he
  | selection op => exact OutputTypes.sound_of_yields_operation rfl hs

/-- Where the values of all enums can be told, a call gives a result. -/
theorem total_step (hr : c.schema.Readable) (call : Call) : (c.step call).Total := by
  cases call with
  | arguments op =>
    have harguments : (c.inputs.ofOperation op).Total := InputTypes.total_ofOperation hr op
    exact harguments.bind fun _ => TryCompile.total_pure ()
  | selection op => exact (TryCompile.total_lift _).bind fun _ => TryCompile.total_pure ()

/-! ## Calls one after another -/

variable (c) in
theorem record_concat (calls : List Call) (call : Call) :
    c.record (calls ++ [call]) = c.add (c.record calls) call := by
  rw [record, List.foldl_append]
  rfl

variable (c) in
/-- What holds of a record after any calls. -/
structure Settled (r : Record) : Prop where
  nodup : r.state.memo.keys.Nodup
  mayKeep : ∀ key ∈ r.state.memo.keys, c.schema.MayKeep c.settings.maxSchemaDepth key
  sound : c.outputs.Sound r.state.memo
  notes : r.state.memo.notes = r.walked.filterMap (c.schema.note? c.settings)
  walked : ∃ broken, r.walked.Perm (r.state.memo.keys ++ broken) ∧ (r.answered = true ↔ broken = [])

theorem Settled.add {r : Record} (h : c.Settled r) (call : Call) : c.Settled (c.add r call) := by
  have hcourse := c.takes_step call r.state
  refine ⟨hcourse.nodup_keys h.nodup, fun key hk => ?_, sound_step call h.sound, ?_, ?_⟩
  · exact (hcourse.mem_keys hk).elim (h.mayKeep key) mayKeep_of_mem_walks
  · exact hcourse.notes_eq.trans (by rw [h.notes, ← List.filterMap_append]; rfl)
  · obtain ⟨broken, hwalked, hanswered⟩ := h.walked
    obtain ⟨kept, broken', hkept, hwalks, hok⟩ := hcourse.exists_kept
    refine ⟨broken ++ broken', ?_, ?_⟩
    · rw [show (c.add r call).state.memo.keys = r.state.memo.keys ++ kept from hkept]
      refine (hwalked.append hwalks).trans ?_
      simp only [List.append_assoc]
      exact (List.perm_append_comm_assoc broken kept broken').append_left _
    · rw [List.append_eq_nil_iff, ← hanswered, ← hok]
      exact Bool.and_eq_true_iff

variable (c) in
theorem settled_record (calls : List Call) : c.Settled (c.record calls) := by
  induction calls using List.reverseRecOn with
  | nil =>
    exact ⟨.nil, by simp [record, Memo.keys], OutputTypes.sound_empty, rfl, [], .nil,
      by simp [record]⟩
  | append_singleton calls call ih =>
    rw [record_concat]
    exact ih.add call

theorem answered_record (hr : c.schema.Readable) (calls : List Call) :
    (c.record calls).answered = true := by
  induction calls using List.reverseRecOn with
  | nil => rfl
  | append_singleton calls call ih =>
    obtain ⟨a, t, ht⟩ := total_step hr call (c.record calls).state
    rw [record_concat, add, ht, ih]
    rfl

/-- The policy of an operation after calls is compiled from the memo that they filled. -/
theorem yields_policyAfter (calls : List Call) (op : Operation) :
    ∃ t, (c.outputs.ofOperation op).Yields (c.record calls).state (c.policyAfter calls op) t :=
  ⟨_, rfl⟩

/-- On a path inside a selection policy no more validators are strict than there are depths. -/
theorem countP_isStrict_policyAfter_le (calls : List Call) (op : Operation) {path : List Validator}
    (h : ((c.policyAfter calls op).validator :: path).IsChain Validator.Contains) :
    ((c.policyAfter calls op).validator :: path).countP (·.isStrict) ≤
      c.settings.maxSchemaDepth + 1 := by
  obtain ⟨t, hp⟩ := yields_policyAfter (c := c) calls op
  rcases OutputTypes.yields_ofOperation_iff.1 hp with ⟨-, he, -⟩ | ⟨type, v, -, hv, he⟩
  · rw [he] at h ⊢
    cases path with
    | nil => exact Nat.zero_le _
    | cons v rest =>
      cases (List.isChain_cons_cons.1 h).1 with
      | found hv => cases hv
  · rw [he] at h ⊢
    have hstands := (OutputTypes.sound_of_yields hv (c.settled_record calls).sound).2
    rw [OutputTypes.levelsLeft_zero] at hstands
    exact hstands.countP_isStrict_le h

/-- After any calls no key is kept twice, only types of the schema are kept, at depths up to the
limit, so that the memo is bounded, and no more strict validators stand inside one another than there
are such depths. A call keeps what it walks, unless walks are broken off, and it gives a result
exactly if none is. So all bodies were walked once and are kept exactly if all calls gave a result,
and they all do where the values of all enums can be told. The notes in the memo are those of the
bodies that were walked. -/
theorem perm_walked_record (c : Compilers) (calls : List Call) :
    (c.record calls).state.memo.keys.Nodup ∧
    (∀ key ∈ (c.record calls).state.memo.keys,
      c.schema.MayKeep c.settings.maxSchemaDepth key) ∧
    (c.record calls).state.memo.size ≤
      c.schema.types.countP (·.body.isComposite) * (c.settings.maxSchemaDepth + 1) +
        c.schema.types.countP (·.body.isKeptByName) ∧
    (∀ op path, ((c.policyAfter calls op).validator :: path).IsChain Validator.Contains →
      ((c.policyAfter calls op).validator :: path).countP (·.isStrict) ≤
        c.settings.maxSchemaDepth + 1) ∧
    (∀ call, ∃ kept broken,
      (c.record (calls ++ [call])).state.memo.keys = (c.record calls).state.memo.keys ++ kept ∧
      (c.walks call (c.record calls).state).Perm (kept ++ broken) ∧
      (((c.step call).run.run (c.record calls).state).1.isOk = true ↔ broken = [])) ∧
    ((c.record calls).answered = true ↔
      (c.record calls).walked.Perm (c.record calls).state.memo.keys) ∧
    (c.schema.Readable → (c.record calls).answered = true) ∧
    (c.record calls).state.memo.notes =
      (c.record calls).walked.filterMap (c.schema.note? c.settings) := by
  have hs := c.settled_record calls
  refine ⟨hs.nodup, hs.mayKeep, Schema.size_le_of_mayKeep hs.nodup hs.mayKeep,
    fun op path => countP_isStrict_policyAfter_le calls op, fun call => ?_, ?_,
    fun hr => answered_record hr calls, hs.notes⟩
  · rw [record_concat]
    exact (c.takes_step call (c.record calls).state).exists_kept
  · obtain ⟨broken, hwalked, hanswered⟩ := hs.walked
    rw [hanswered]
    constructor
    · rintro rfl
      rwa [List.append_nil] at hwalked
    · intro hperm
      have hlength := (hwalked.symm.trans hperm).length_eq
      rw [List.length_append] at hlength
      exact List.eq_nil_of_length_eq_zero (by omega)

/-- Of two types that contain each other, one is kept while the other one is walked, and found again
below a third one. -/
example :
    let c : Compilers := { schema := OutputTypes.ring.schema, settings := {} }
    let r := c.record [.selection (OutputTypes.ringOperation "first" "A"),
      .selection (OutputTypes.ringOperation "second" "C")]
    r.walked = [.output "A" 0, .output "B" 1, .output "C" 0] ∧
      r.state.memo.keys = [.output "B" 1, .output "A" 0, .output "C" 0] := by
  decide +kernel

/-- An input object whose first field is an enum with a note that cannot be read. -/
def unreadable : Compilers where
  schema :=
    { types :=
        [⟨"I", .input [⟨"e", .named "E", none⟩, ⟨"c", .named "Int", none⟩]⟩,
          ⟨"E", .enum none⟩,
          ⟨"Query", .object [] [⟨"q", .named "Int", [⟨"i", .named "I", none⟩], none⟩]⟩,
          ⟨"Int", .scalar⟩]
      roots := [(.query, "Query")] }
  settings := { maxArgumentFields := 1 }

/-- The call for the arguments of the only operation. -/
def unreadableCall : Call :=
  .arguments (.ofField unreadable.settings .query
    { name := "q", type := .named "Int", arguments := [⟨"i", .named "I", none⟩] })

/-- The walk of the input object does not end by keeping its key, and a second call walks it
again. -/
theorem not_perm_walked_unreadable :
    (¬ ∀ calls,
      (unreadable.record calls).walked.Perm (unreadable.record calls).state.memo.keys) ∧
    ¬ ∀ calls, (unreadable.record calls).walked.Nodup := by
  constructor
  · intro h
    have hperm := h [unreadableCall]
    revert hperm
    decide +kernel
  · intro h
    have hnodup := h [unreadableCall, unreadableCall]
    revert hnodup
    decide +kernel

end Compilers

end OperationTools
