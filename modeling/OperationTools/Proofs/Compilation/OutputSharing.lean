import Mathlib.Data.Fintype.EquivFin
import OperationTools.Proofs.Compilation.OutputShape
import OperationTools.Proofs.Schema.Lawful

/-!
# Sharing a memo among selection policies

The selection policy of an operation is compiled with a memo that earlier operations filled. It
takes the selections that it would take with an empty memo exactly if the memo agrees with what the
operation keeps alone. Where the memos differ, a lazy validator stands in one of them for a strict
one in the other, and a key that the type does not have tells them apart.

## Main definitions

* `Schema.Unambiguous`: no key of a selection stands for two parts
* `OutputTypes.memoAfter`, `OutputTypes.policyAfter`: the memo after some operations, and the policy
  of another one

## Main results

* `OutputTypes.exists_takes_ne`: different standing validators take different selections
* `OutputTypes.policyAfter_eq_iff_agrees`: when a policy is the same with an empty memo
-/

namespace OperationTools

/-- No key of a selection stands for two parts: the field names of a type are distinct, and neither
they nor `__typename` are names under which the type is narrowed. -/
def Schema.Unambiguous (schema : Schema) (implementers : Bool) : Prop :=
  ∀ t ∈ schema.types, (typenameKey :: t.body.fields.map (·.name)).Nodup ∧
    ∀ m ∈ schema.narrowings implementers t.name, m ∉ typenameKey :: t.body.fields.map (·.name)

instance (schema : Schema) (implementers : Bool) : Decidable (schema.Unambiguous implementers) :=
  inferInstanceAs (Decidable (∀ t ∈ schema.types, _ ∧ _))

namespace OutputTypes

variable {types : OutputTypes}

/-! ## Telling validators apart -/

/-- Every part is asked for under some key. -/
theorem exists_key (hu : types.schema.Unambiguous types.implementers) {n : String}
    {body : TypeBody} (hb : types.schema.body? n = some body) {m : String}
    (hm : m ∈ types.parts n body) :
    ∃ key, ∀ part, (types.node n body part).child? key = some (part m) := by
  obtain ⟨hnames, hnarrowings⟩ := hu _ (Schema.mem_of_body? hb)
  obtain ⟨htypename, hnames⟩ := List.nodup_cons.1 hnames
  rcases List.mem_append.1 hm with hm | hm
  · obtain ⟨f, hf, rfl⟩ := List.mem_map.1 hm
    refine ⟨f.name, fun part => child?_node_field hnames hf ?_⟩
    intro he
    exact htypename (he ▸ List.mem_map_of_mem (List.mem_of_mem_take hf))
  · have hn := hnarrowings m hm
    rw [List.mem_cons, not_or] at hn
    refine ⟨m, fun part => ?_⟩
    rw [child?_node_other (fun h => hn.2 ?_) hn.1, if_pos hm]
    obtain ⟨f, hf, rfl⟩ := List.mem_map.1 h
    exact List.mem_map_of_mem (List.mem_of_mem_take hf)

variable (types) in
/-- There are keys that a type does not have. -/
theorem exists_unknown_key (n : String) (body : TypeBody) :
    ∃ key, ∀ part, (types.node n body part).child? key = none := by
  obtain ⟨key, hkey⟩ := Infinite.exists_notMem_finset
    (typenameKey :: (types.knownFields body).map (·.name) ++ types.knownNarrowings n).toFinset
  simp only [List.mem_toFinset, List.mem_append, List.mem_cons, not_or] at hkey
  obtain ⟨⟨htypename, hfields⟩, hnarrowings⟩ := hkey
  exact ⟨key, fun part => by rw [child?_node_other hfields htypename, if_neg hnarrowings]⟩

theorem takes_lazily {n key : String} (hc : types.schema.isComposite n = true) :
    (types.lazily n).takes (.obj [(key, .null)]) = true := by
  have hl : types.schema.isLeaf n = false := by
    rw [← Bool.not_eq_true]
    intro hl
    simp [Schema.isComposite_eq_false_of_isLeaf hl] at hc
  refine (Validator.takes_lazySelection_iff hl).2 fun e he c hec => ?_
  rw [List.mem_singleton.1 he] at hec ⊢
  exact Validator.takes_null_of_child?_lazySelection hec

theorem takes_node_iff {n : String} {body : TypeBody} {part : String → Validator} {key : String}
    {x : Json} : (types.node n body part).takes (.obj [(key, x)]) = true ↔
      ∃ c, (types.node n body part).child? key = some c ∧ c.takes x = true := by
  rw [node, Validator.takes_strictSelection_iff]
  simp

theorem takes_node_of_child? {n : String} {body : TypeBody} {part : String → Validator}
    {key : String} {x : Json} {c : Validator}
    (h : (types.node n body part).child? key = some c) :
    (types.node n body part).takes (.obj [(key, x)]) = c.takes x := by
  rw [Bool.eq_iff_iff, takes_node_iff, h]
  simp

/-- A strict validator has a value that a lazy one takes and it does not. -/
theorem exists_takes_lazily_ne {n : String} (hc : types.schema.isComposite n = true)
    (body : TypeBody) (part : String → Validator) :
    ∃ key x, (types.lazily n).takes (.obj [(key, x)]) ≠
      (types.node n body part).takes (.obj [(key, x)]) := by
  obtain ⟨key, hkey⟩ := exists_unknown_key types n body
  refine ⟨key, .null, ?_⟩
  rw [takes_lazily hc, ne_comm, Ne, takes_node_iff, hkey]
  simp

/-- Different validators that stand for one type take different selections. What tells them apart
stands under the key of a part that differs. -/
theorem exists_takes_ne (hu : types.schema.Unambiguous types.implementers) {memo memo' : Memo}
    {left : Nat} {n : String} {v w : Validator} (hv : types.Stands memo left n v)
    (hw : types.Stands memo' left n w) (hne : v ≠ w) :
    ∃ key x, v.takes (.obj [(key, x)]) ≠ w.takes (.obj [(key, x)]) := by
  -- induction on why the first one stands; a lazy one differs from a strict one at once
  induction hv generalizing w with
  | leaf hc =>
    cases hw with
    | leaf => exact absurd rfl hne
    | lazily hc' => simp [hc] at hc'
    | strictly hb' hc' => simp [isComposite_of_body? hb' hc'] at hc
  | lazily hc =>
    cases hw with
    | leaf hc' => simp [hc] at hc'
    | lazily => exact absurd rfl hne
    | strictly => exact exists_takes_lazily_ne hc _ _
  | @strictly _ n body part hb hc _ _ ih =>
    cases hw with
    | leaf hc' => simp [isComposite_of_body? hb hc] at hc'
    | lazily hc' =>
      obtain ⟨key, x, h⟩ := exists_takes_lazily_ne hc' _ _
      exact ⟨key, x, h.symm⟩
    | @strictly _ _ _ part' hb' _ _ hp' =>
      cases hb.symm.trans hb'
      obtain ⟨m, hm, hpart⟩ : ∃ m ∈ types.parts n body, part m ≠ part' m := by
        by_contra hall
        push Not at hall
        exact hne (node_congr hall)
      obtain ⟨key, x, hx⟩ := ih m hm (hp' m hm) hpart
      obtain ⟨outer, houter⟩ := exists_key hu hb hm
      refine ⟨outer, .obj [(key, x)], fun he => hx ?_⟩
      rwa [takes_node_of_child? (houter part), takes_node_of_child? (houter part')] at he

/-! ## Operations -/

theorem levelsLeft_zero : types.levelsLeft 0 = types.settings.maxSchemaDepth + 1 := by
  rw [levelsLeft]
  omega

theorem yields_ofOperation_iff {op : Operation} {s t : Compilation} {p : SelectionPolicy} :
    (types.ofOperation op).Yields s p t ↔
      (op.result = none ∧ p = { validator := .anySelection } ∧ t = s) ∨
      ∃ type v, op.result = some type ∧
        (types.ofNamed (types.levelsLeft 0) [] type.name).Yields s v t ∧
        p = { validator := v, fallbackKeys := types.schema.defaultKeys type.name } := by
  cases hr : op.result with
  | none => simp [ofOperation, hr, Compile.yields_pure]
  | some type =>
    simp only [ofOperation, hr, Compile.yields_bind, Compile.yields_pure, reduceCtorEq, false_and,
      Option.some.injEq, false_or]
    constructor
    · rintro ⟨v, u, hv, rfl, rfl⟩
      exact ⟨type, v, rfl, hv, rfl⟩
    · rintro ⟨_, v, rfl, hv, rfl⟩
      exact ⟨v, t, hv, rfl, rfl⟩

variable (types) in
/-- The memo after operations that were compiled one after another. -/
def memoAfter (history : List Operation) : Memo :=
  (Compile.runOn (history.mapM types.ofOperation) {}).2.1

variable (types) in
/-- The selection policy of an operation that is compiled after others. -/
def policyAfter (history : List Operation) (op : Operation) : SelectionPolicy :=
  (Compile.runOn (types.ofOperation op) (types.memoAfter history)).1

theorem memo_le_of_yields_operation {op : Operation} {s t : Compilation} {p : SelectionPolicy}
    (h : (types.ofOperation op).Yields s p t) : s.memo ≤ t.memo := by
  rcases yields_ofOperation_iff.1 h with ⟨-, -, rfl⟩ | ⟨_, _, -, hv, -⟩
  · exact le_rfl
  · exact types.memo_le_of_yields hv

theorem sound_of_yields_operation {op : Operation} {s t : Compilation} {p : SelectionPolicy}
    (h : (types.ofOperation op).Yields s p t) (hs : types.Sound s.memo) : types.Sound t.memo := by
  rcases yields_ofOperation_iff.1 h with ⟨-, -, rfl⟩ | ⟨_, _, -, hv, -⟩
  · exact hs
  · exact (sound_of_yields hv hs).1

variable (types) in
/-- Every memo that operations fill is sound. -/
theorem sound_memoAfter (history : List Operation) : types.Sound (types.memoAfter history) := by
  have h : (history.mapM types.ofOperation).Yields {} _ _ := rfl
  exact (Compile.yields_mapM.1 h).preserves (P := fun s => types.Sound s.memo)
    (fun _ _ _ _ h hs => sound_of_yields_operation h hs) sound_empty

variable (types) in
/-- Compiling an operation yields its policy. -/
theorem yields_policyAfter (history : List Operation) (op : Operation) :
    ∃ t, (types.ofOperation op).Yields { memo := types.memoAfter history }
      (types.policyAfter history op) t :=
  ⟨_, rfl⟩

variable (types) in
/-- With an empty memo an operation leaves what it keeps alone. -/
theorem yields_policyAfter_nil (op : Operation) :
    ∃ t, (types.ofOperation op).Yields {} (types.policyAfter [] op) t ∧
      t.memo = types.memoAfter [op] := by
  have h : ([op].mapM types.ofOperation).Yields {} _ _ := rfl
  cases Compile.yields_mapM.1 h with
  | cons head tail => exact ⟨_, rfl, by cases tail; rfl⟩

variable (types) in
/-- The policies of an operation with a filled memo and with an empty one are the same without any
visit, or each comes from a visit of the result. -/
theorem policyAfter_cases (history : List Operation) (op : Operation) :
    (types.policyAfter history op = types.policyAfter [] op ∧
      ∀ k, (types.memoAfter [op]).find? k = none) ∨
    ∃ n v v' t t' keys, types.policyAfter [] op = ⟨v, keys⟩ ∧
      types.policyAfter history op = ⟨v', keys⟩ ∧ t.memo = types.memoAfter [op] ∧
      (types.ofNamed (types.levelsLeft 0) [] n).Yields {} v t ∧
      (types.ofNamed (types.levelsLeft 0) [] n).Yields { memo := types.memoAfter history }
        v' t' := by
  obtain ⟨t, h, ht⟩ := yields_policyAfter_nil types op
  obtain ⟨t', h'⟩ := yields_policyAfter types history op
  rcases yields_ofOperation_iff.1 h with ⟨hr, hp, rfl⟩ | ⟨type, v, hr, hv, hp⟩
  · rcases yields_ofOperation_iff.1 h' with ⟨-, hp', -⟩ | ⟨_, _, hr', -, -⟩
    · refine .inl ⟨hp'.trans hp.symm, fun k => ?_⟩
      rw [← ht]
      rfl
    · simp [hr] at hr'
  · rcases yields_ofOperation_iff.1 h' with ⟨hr', -, -⟩ | ⟨type', v', hr', hv', hp'⟩
    · simp [hr] at hr'
    · cases hr.symm.trans hr'
      exact .inr ⟨_, v, v', t, t', _, hp, hp', ht, hv, hv'⟩

/-- A policy is the one with an empty memo exactly if nothing was kept before that differs from what
the operation keeps alone. -/
theorem policyAfter_eq_iff_agrees (history : List Operation) (op : Operation) :
    types.policyAfter history op = types.policyAfter [] op ↔
      (types.memoAfter history).Agrees (types.memoAfter [op]) := by
  have hsound := sound_memoAfter types history
  rcases policyAfter_cases types history op with
    ⟨he, hnone⟩ | ⟨n, v, v', t, t', keys, hp, hp', ht, hv, hv'⟩
  · refine ⟨fun _ k v w _ hw => ?_, fun _ => he⟩
    rw [hnone] at hw
    cases hw
  · rw [hp, hp', ← ht]
    constructor
    · intro he
      obtain rfl : v' = v := congrArg SelectionPolicy.validator he
      obtain ⟨-, hstands⟩ := sound_of_yields hv' hsound
      intro k w x hw hx
      rcases kept_of_stands hv hstands hx with hx | hx
      · simp [Memo.find?] at hx
      · have hkept := Memo.find?_of_le (types.memo_le_of_yields hv') hw
        exact Option.some.inj (hkept.symm.trans hx)
    · intro ha
      have hahead : Memo.Ahead t.memo ({} : Compilation).memo
          ({ memo := types.memoAfter history } : Compilation).memo :=
        ⟨fun k w hw => by simp [Memo.find?] at hw, ha⟩
      obtain ⟨_, hv'', -⟩ := yields_of_agrees hv le_rfl hahead hsound
      rw [(hv'.unique hv'').1]

/-- Policies of an operation that differ take different selections. -/
theorem exists_takes_policyAfter_ne (hu : types.schema.Unambiguous types.implementers)
    {history : List Operation} {op : Operation}
    (hne : types.policyAfter history op ≠ types.policyAfter [] op) :
    ∃ x, (types.policyAfter history op).takes x ≠ (types.policyAfter [] op).takes x := by
  rcases policyAfter_cases types history op with
    ⟨he, -⟩ | ⟨n, v, v', t, t', keys, hp, hp', -, hv, hv'⟩
  · exact absurd he hne
  · rw [hp, hp'] at hne ⊢
    have hv'v : v' ≠ v := by
      rintro rfl
      exact hne rfl
    obtain ⟨-, hstands⟩ := sound_of_yields hv sound_empty
    obtain ⟨-, hstands'⟩ := sound_of_yields hv' (sound_memoAfter types history)
    obtain ⟨key, x, hx⟩ := exists_takes_ne hu hstands' hstands hv'v
    refine ⟨.obj [(key, x)], ?_⟩
    rw [SelectionPolicy.takes_obj (by simp), SelectionPolicy.takes_obj (by simp)]
    exact hx

/-- Operations that were compiled before leave a policy as it is exactly if they kept nothing that
differs from what the operation keeps alone. If no key stands for two parts, this is also when the
same selections are taken. -/
theorem takes_policyAfter_iff (history : List Operation) (op : Operation) :
    (types.policyAfter history op = types.policyAfter [] op ↔
      (types.memoAfter history).Agrees (types.memoAfter [op])) ∧
    (types.schema.Unambiguous types.implementers →
      ((∀ x, (types.policyAfter history op).takes x = (types.policyAfter [] op).takes x) ↔
        (types.memoAfter history).Agrees (types.memoAfter [op]))) := by
  refine ⟨policyAfter_eq_iff_agrees history op, fun hu => ?_⟩
  rw [← policyAfter_eq_iff_agrees]
  constructor
  · intro h
    by_contra hne
    obtain ⟨x, hx⟩ := exists_takes_policyAfter_ne hu hne
    exact hx (h x)
  · intro h x
    rw [h]

/-- Two types that contain each other. One of them is reached directly, the other one through a
third type. -/
def ring : OutputTypes where
  schema :=
    { types :=
        [⟨"A", .object [] [⟨"b", .named "B", [], none⟩]⟩,
          ⟨"B", .object [] [⟨"a", .named "A", [], none⟩]⟩,
          ⟨"C", .object [] [⟨"b", .named "B", [], none⟩]⟩,
          ⟨"Query", .object [] [
            ⟨"first", .named "A", [], none⟩, ⟨"second", .named "C", [], none⟩]⟩]
      roots := [(.query, "Query")] }
  settings := {}

/-- The operation of a field without arguments. -/
def ringOperation (name typeName : String) : Operation :=
  .ofField ring.settings .query { name, type := .named typeName }

/-- After `first` was compiled, `second` takes a key that the type `A` does not have. -/
theorem takes_second_after_first :
    ¬ ∀ x, (ring.policyAfter [ringOperation "first" "A"] (ringOperation "second" "C")).takes x =
      (ring.policyAfter [] (ringOperation "second" "C")).takes x := by
  intro h
  have hx := h (.obj [("b", .obj [("a", .obj [("x", .bool true)])])])
  revert hx
  decide +kernel

/-- The memo after `first` keeps a validator of `B` in which `A` is lazy. -/
theorem not_agrees_second_after_first :
    ring.schema.Unambiguous ring.implementers ∧
      ¬ (ring.memoAfter [ringOperation "first" "A"]).Agrees
        (ring.memoAfter [ringOperation "second" "C"]) := by
  have hu : ring.schema.Unambiguous ring.implementers := by decide +kernel
  refine ⟨hu, fun ha => ?_⟩
  have hx := ((takes_policyAfter_iff _ _).2 hu).2 ha
    (.obj [("b", .obj [("a", .obj [("x", .bool true)])])])
  revert hx
  decide +kernel

end OutputTypes

end OperationTools
