import OperationTools.Proofs.Compilation.OutputSharing
import OperationTools.Proofs.Schema.Selectable

/-!
# Well-typed selections

A key of a selection on a type leads to a leaf or to another composite type. A selection is well
typed if all keys lead somewhere, at every depth, and the values are switches of leaves or
selections again. Strict validators know all keys, lazy ones let unknown keys pass, and either may
stand anywhere below the result of an operation. So what an operation takes lies between what is
well typed and what is well typed along the keys that lead somewhere.

## Main definitions

* `OutputTypes.resolve?`: what a key leads to
* `OutputTypes.WellTyped`: values that are well typed at a part
* `OutputTypes.Reaches`: what stands in a value along keys that lead somewhere
* `Part.admits`: the values that have the shape of a part

## Main results

* `OutputTypes.takes_of_wellTyped`: a validator that stands for a part takes what is well typed
* `OutputTypes.admits_of_takes`: what is taken has the shape of its part wherever keys lead
* `OutputTypes.takes_between_wellTyped_admits`: what the policy of an operation takes
-/

namespace OperationTools

/-- Whether a value has the shape of a part: a leaf is switched on or off, and of a composite type
parts are selected or nothing is. -/
def Part.admits : Part → Json → Bool
  | .leaf, .null | .leaf, .bool _ => true
  | .composite _, .null | .composite _, .bool false | .composite _, .obj _ => true
  | _, _ => false

namespace OutputTypes

variable (types : OutputTypes)

/-- What a key leads to in a selection on a type: `__typename`, a field, or a narrowing. -/
def resolve? (n key : String) : Option Part :=
  if key = typenameKey then some .leaf else types.schema.part? types.implementers n key

/-- A value is well typed at a part. -/
inductive WellTyped : Part → Json → Prop where
  | leafNull : WellTyped .leaf .null
  | leafBool (b : Bool) : WellTyped .leaf (.bool b)
  | null (n : String) : WellTyped (.composite n) .null
  | off (n : String) : WellTyped (.composite n) (.bool false)
  | parts {n : String} {entries : List (String × Json)}
      (hkeys : ∀ e ∈ entries, types.resolve? n e.1 ≠ none)
      (hparts : ∀ e ∈ entries, ∀ part, types.resolve? n e.1 = some part → WellTyped part e.2) :
      WellTyped (.composite n) (.obj entries)

/-- A value at a part has another one inside it, under keys that lead to the part of that one. -/
inductive Reaches : Part → Json → Part → Json → Prop where
  | here (part : Part) (x : Json) : Reaches part x part x
  | under {n : String} {entries : List (String × Json)} {e : String × Json} {part inner : Part}
      {y : Json} (he : e ∈ entries) (hr : types.resolve? n e.1 = some part)
      (h : Reaches part e.2 inner y) : Reaches (.composite n) (.obj entries) inner y

/-- No type has more fields than its strict validator may know. -/
def FewFields : Prop :=
  ∀ t ∈ types.schema.types, t.body.fields.length ≤ types.settings.maxSelectionFields

instance : Decidable types.FewFields :=
  inferInstanceAs (Decidable (∀ t ∈ types.schema.types,
    t.body.fields.length ≤ types.settings.maxSelectionFields))

/-- A validator stands in a memo for a part. -/
inductive StandsAt (memo : Memo) : Part → Validator → Prop where
  | leaf : StandsAt memo .leaf .leaf
  | composite {left : Nat} {n : String} {v : Validator}
      (hc : types.schema.isComposite n = true) (h : types.Stands memo left n v) :
      StandsAt memo (.composite n) v

variable {types}

/-! ## What keys lead to -/

theorem knownFields_eq (hfew : types.FewFields) {n : String} {body : TypeBody}
    (hb : types.schema.body? n = some body) : types.knownFields body = body.fields :=
  List.take_of_length_le (hfew _ (Schema.mem_of_body? hb))

/-- The validator of the first field with the name of a key is found under it. -/
theorem lookup_fields (fields : List Field) (part : String → Validator) (key : String) :
    (fields.map fun f => (f.name, part f.type.name)).lookup key =
      ((fields.find? (·.name == key)).map (·.type.name)).map part := by
  induction fields with
  | nil => rfl
  | cons f rest ih =>
    by_cases h : f.name = key
    · simp [h]
    · have hb : (key == f.name) = false := beq_eq_false_iff_ne.2 (Ne.symm h)
      simpa [h, List.lookup_cons, hb] using ih

/-- A part of a type stands where its validator does. -/
theorem Stands.at_part {memo : Memo} {left : Nat} {n : String} {v : Validator}
    (h : types.Stands memo left n v)
    (hn : types.schema.isLeaf n = true ∨ types.schema.isComposite n = true) :
    types.StandsAt memo (if types.schema.isLeaf n then .leaf else .composite n) v := by
  split
  · rename_i hl
    have hc := Schema.isComposite_eq_false_of_isLeaf hl
    cases h with
    | leaf => exact .leaf
    | lazily hc' => simp [hc] at hc'
    | strictly hb hc' => simp [isComposite_of_body? hb hc'] at hc
  · exact .composite (hn.resolve_left ‹_›) h

/-- A lazy validator leads where the keys lead, with lazy validators again. -/
theorem child?_lazily (n key : String) :
    (types.lazily n).child? key = (types.resolve? n key).map fun
      | .leaf => .leaf
      | .composite m => types.lazily m := by
  rw [lazily, Validator.child?, resolve?]
  split <;> rfl

section Children

variable (hl : types.schema.Lawful) (hfields : types.schema.FieldsSelectable)
  (hmembers : types.schema.MembersSelectable)

include hl hfields hmembers

theorem child?_lazily_rel (memo : Memo) {n : String} (hc : types.schema.isComposite n = true)
    (key : String) :
    Option.Rel (types.StandsAt memo) (types.resolve? n key) ((types.lazily n).child? key) := by
  rw [child?_lazily]
  cases hr : types.resolve? n key with
  | none => exact .none
  | some part =>
    cases part with
    | leaf => exact .some .leaf
    | composite m =>
      unfold resolve? at hr
      split at hr
      · cases hr
      · have hm := hl.isComposite_of_part? hfields hmembers hc hr
        have hstands : types.Stands memo 0 m (types.lazily m) := .lazily hm
        exact .some (.composite hm hstands)

theorem child?_node_rel (hfew : types.FewFields) {memo : Memo} {left : Nat} {n : String}
    {body : TypeBody} {part : String → Validator} (hb : types.schema.body? n = some body)
    (hc : body.isComposite = true)
    (hp : ∀ m ∈ types.parts n body, types.Stands memo left m (part m)) (key : String) :
    Option.Rel (types.StandsAt memo) (types.resolve? n key)
      ((types.node n body part).child? key) := by
  rw [child?_node, resolve?]
  by_cases hk : key = typenameKey
  · rw [if_pos hk, if_pos hk]
    exact .some .leaf
  · have hknown := knownFields_eq hfew hb
    rw [if_neg hk, if_neg hk, lookup_fields, hknown, Schema.part?, Schema.fieldType?_eq hb hc]
    cases hf : body.fields.find? (·.name == key) with
    | some f =>
      have hmem := List.mem_of_find?_eq_some hf
      have hstands := hp f.type.name (List.mem_append_left _ (by
        rw [hknown]
        exact List.mem_map_of_mem hmem))
      exact .some (hstands.at_part (hfields _ (Schema.mem_of_body? hb) f hmem))
    | none =>
      simp only [Option.map_none, Option.none_or]
      by_cases hm : key ∈ types.knownNarrowings n
      · have hcontains : (types.schema.narrowings types.implementers n).contains key = true :=
          List.contains_iff_mem.2 hm
        rw [if_pos hm, if_pos hcontains]
        exact .some (.composite (hl.isComposite_of_mem_narrowings hmembers hm)
          (hp key (List.mem_append_right _ hm)))
      · have hcontains : ¬ (types.schema.narrowings types.implementers n).contains key = true :=
          fun h => hm (List.contains_iff_mem.1 h)
        rw [if_neg hm, if_neg hcontains]
        exact .none

variable (hfew : types.FewFields)

include hfew

/-- What stands under a key stands for what the key leads to, and under a key that leads nowhere
stands nothing. -/
theorem StandsAt.child? {memo : Memo} {n : String} {v : Validator}
    (h : types.StandsAt memo (.composite n) v) (key : String) :
    Option.Rel (types.StandsAt memo) (types.resolve? n key) (v.child? key) := by
  cases h with
  | composite hc h =>
    cases h with
    | leaf hc' => simp [hc] at hc'
    | lazily => exact child?_lazily_rel hl hfields hmembers memo hc key
    | strictly hb hbc _ hp => exact child?_node_rel hl hfields hmembers hfew hb hbc hp key

theorem StandsAt.exists_child? {memo : Memo} {n key : String} {v : Validator} {part : Part}
    (h : types.StandsAt memo (.composite n) v) (hr : types.resolve? n key = some part) :
    ∃ c, v.child? key = some c ∧ types.StandsAt memo part c := by
  have hrel := h.child? hl hfields hmembers hfew key
  rw [hr] at hrel
  cases hc : v.child? key with
  | none =>
    rw [hc] at hrel
    cases hrel
  | some c =>
    rw [hc] at hrel
    cases hrel with
    | some hstands => exact ⟨c, rfl, hstands⟩

theorem StandsAt.child?_eq_none {memo : Memo} {n key : String} {v : Validator}
    (h : types.StandsAt memo (.composite n) v) (hr : types.resolve? n key = none) :
    v.child? key = none := by
  have hrel := h.child? hl hfields hmembers hfew key
  rw [hr] at hrel
  cases hc : v.child? key with
  | none => rfl
  | some c =>
    rw [hc] at hrel
    cases hrel

/-! ## What is taken -/

/-- What is well typed at a part is taken by every validator that stands for it. -/
theorem takes_of_wellTyped {memo : Memo} {part : Part} {x : Json} (hx : types.WellTyped part x)
    {v : Validator} (h : types.StandsAt memo part v) : v.takes x = true := by
  -- induction on the value; keys that lead somewhere are checked by what stands under them
  induction hx generalizing v with
  | leafNull | leafBool =>
    cases h
    rfl
  | null | off =>
    cases h with
    | composite hc h =>
      cases h with
      | leaf hc' => simp [hc] at hc'
      | lazily | strictly => rfl
  | @parts n entries hkeys _ ih =>
    have hchild : ∀ e ∈ entries, ∃ c, v.child? e.1 = some c ∧ c.takes e.2 = true := by
      intro e he
      obtain ⟨part, hr⟩ := Option.ne_none_iff_exists'.1 (hkeys e he)
      obtain ⟨c, hc, hstands⟩ := h.exists_child? hl hfields hmembers hfew hr
      exact ⟨c, hc, ih e he part hr hstands⟩
    cases h with
    | composite hc h =>
      cases h with
      | leaf hc' => simp [hc] at hc'
      | lazily =>
        refine (Validator.takes_lazySelection_iff
          (Schema.isLeaf_eq_false_of_isComposite hc)).2 fun e he c hec => ?_
        obtain ⟨c', hc', ht⟩ := hchild e he
        cases hec.symm.trans hc'
        exact ht
      | strictly => exact Validator.takes_strictSelection_iff.2 hchild

omit hl hfields hmembers hfew in
/-- What stands under the keys of a taken selection is taken. -/
theorem StandsAt.takes_child {memo : Memo} {n : String} {v c : Validator}
    (h : types.StandsAt memo (.composite n) v) {entries : List (String × Json)}
    (ht : v.takes (.obj entries) = true) {e : String × Json} (he : e ∈ entries)
    (hc : v.child? e.1 = some c) : c.takes e.2 = true := by
  cases h with
  | composite hn h =>
    cases h with
    | leaf hc' => simp [hn] at hc'
    | lazily =>
      exact (Validator.takes_lazySelection_iff
        (Schema.isLeaf_eq_false_of_isComposite hn)).1 ht e he c hc
    | strictly =>
      obtain ⟨c', hc', ht⟩ := Validator.takes_strictSelection_iff.1 ht e he
      cases hc.symm.trans hc'
      exact ht

omit hl hfields hmembers hfew in
/-- What is taken has the shape of its part. -/
theorem StandsAt.admits {memo : Memo} {part : Part} {v : Validator}
    (h : types.StandsAt memo part v) {x : Json} (ht : v.takes x = true) :
    part.admits x = true := by
  have hissues := (Validator.takes_iff.1 ht).2
  cases h with
  | leaf =>
    cases x <;> simp_all [Part.admits, Validator.report, Validator.arrayReport,
      Validator.objectReport, Validator.shallowReport]
  | composite hc h =>
    cases h with
    | leaf hc' => simp [hc] at hc'
    | lazily | strictly =>
      cases x with
      | bool b =>
        cases b with
        | false => rfl
        | true => simp [lazily, node, Validator.report, Validator.shallowReport] at hissues
      | null | obj => rfl
      | int | float | str | arr =>
        simp [lazily, node, Validator.report, Validator.arrayReport, Validator.shallowReport]
          at hissues

/-- What is taken has the shape of its part, and so has all that keys lead to inside it. -/
theorem admits_of_takes {memo : Memo} {part inner : Part} {x y : Json}
    (hr : types.Reaches part x inner y) {v : Validator} (h : types.StandsAt memo part v)
    (ht : v.takes x = true) : inner.admits y = true := by
  induction hr generalizing v with
  | here => exact h.admits ht
  | under he hr _ ih =>
    obtain ⟨c, hc, hstands⟩ := h.exists_child? hl hfields hmembers hfew hr
    exact ih hstands (h.takes_child ht he hc)

/-- After any operations the policy of another one takes all selections that are well typed, and
only such whose keys lead somewhere and in which all that keys lead to has the shape of its part. -/
theorem takes_between_wellTyped_admits (history : List Operation) {op : Operation} {type : TypeRef}
    (hr : op.result = some type) (hc : types.schema.isComposite type.name = true)
    {entries : List (String × Json)} (hne : entries ≠ []) :
    (types.WellTyped (.composite type.name) (.obj entries) →
      (types.policyAfter history op).takes (.obj entries) = true) ∧
    ((types.policyAfter history op).takes (.obj entries) = true →
      (∀ e ∈ entries, types.resolve? type.name e.1 ≠ none) ∧
      ∀ part y, types.Reaches (.composite type.name) (.obj entries) part y →
        part.admits y = true) := by
  obtain ⟨t, h⟩ := yields_policyAfter types history op
  rcases yields_ofOperation_iff.1 h with ⟨hnone, -⟩ | ⟨type', v, hr', hv, hp⟩
  · simp [hr] at hnone
  cases hr.symm.trans hr'
  have hsound := sound_memoAfter types history
  have hstands : types.StandsAt t.memo (.composite type.name) v :=
    .composite hc (sound_of_yields hv hsound).2
  rw [SelectionPolicy.takes_obj hne, hp]
  refine ⟨fun hx => takes_of_wellTyped hl hfields hmembers hfew hx hstands, fun ht => ⟨?_, ?_⟩⟩
  · rw [levelsLeft_zero] at hv
    rcases leaf_or_node_of_yields hv hsound with ⟨hc', -⟩ | ⟨body, part, -, -, rfl, -⟩
    · simp [hc] at hc'
    intro e he hnone
    obtain ⟨c, hchild, -⟩ := Validator.takes_strictSelection_iff.1 ht e he
    have hunknown := hstands.child?_eq_none hl hfields hmembers hfew hnone
    rw [node, hchild] at hunknown
    cases hunknown
  · exact fun part y hy => admits_of_takes hl hfields hmembers hfew hy hstands ht

end Children

/-- A union with a scalar among its members. -/
def scalarMember : OutputTypes where
  schema :=
    { types :=
        [⟨"U", .union ["S"]⟩, ⟨"S", .scalar⟩,
          ⟨"Query", .object [] [⟨"u", .named "U", [], none⟩]⟩]
      roots := [(.query, "Query")] }
  settings := {}

/-- The operation of the field `u`. -/
def unionOperation : Operation :=
  .ofField scalarMember.settings .query { name := "u", type := .named "U" }

/-- The type name of the scalar member is asked for. -/
def memberSelection : List (String × Json) := [("S", .obj [("__typename", .bool true)])]

/-- A scalar among the members of a union has no parts, not even `__typename`. -/
theorem not_takes_scalarMember :
    scalarMember.schema.Lawful ∧ scalarMember.schema.FieldsSelectable ∧ scalarMember.FewFields ∧
      unionOperation.result = some (.named "U") ∧ scalarMember.schema.isComposite "U" = true ∧
      ¬ (scalarMember.WellTyped (.composite "U") (.obj memberSelection) →
        (scalarMember.policyAfter [] unionOperation).takes (.obj memberSelection) = true) := by
  refine ⟨by decide +kernel, by decide +kernel, by decide +kernel, rfl, by decide +kernel,
    fun h => ?_⟩
  have hmember : scalarMember.resolve? "U" "S" = some (.composite "S") := by decide +kernel
  have hname : scalarMember.resolve? "S" "__typename" = some .leaf := by decide +kernel
  have hwell : scalarMember.WellTyped (.composite "U") (.obj memberSelection) := by
    refine .parts (fun e he => ?_) fun e he part hr => ?_
    · rw [List.mem_singleton.1 he, hmember]
      simp
    · rw [List.mem_singleton.1 he] at hr ⊢
      cases hmember.symm.trans hr
      refine .parts (fun e he => ?_) fun e he part hr => ?_
      · rw [List.mem_singleton.1 he, hname]
        simp
      · rw [List.mem_singleton.1 he] at hr ⊢
        cases hname.symm.trans hr
        exact .leafBool true
  have ht := h hwell
  revert ht
  decide +kernel

/-- A key that `A` does not have, below two keys that lead somewhere. -/
def deepSelection : List (String × Json) := [("b", .obj [("a", .obj [("x", .int 0)])])]

/-- After `first` was compiled, `second` takes a key that `A` does not have, and still everything
that the other keys lead to has the shape of its part. -/
theorem admits_second_after_first :
    ring.schema.Lawful ∧ ring.schema.FieldsSelectable ∧ ring.schema.MembersSelectable ∧
      ring.FewFields ∧
      (ring.policyAfter [ringOperation "first" "A"] (ringOperation "second" "C")).takes
        (.obj deepSelection) = true ∧
      ∀ part y, ring.Reaches (.composite "C") (.obj deepSelection) part y →
        part.admits y = true := by
  have hl : ring.schema.Lawful := by decide +kernel
  have hfields : ring.schema.FieldsSelectable := by decide +kernel
  have hmembers : ring.schema.MembersSelectable := by decide +kernel
  have hfew : ring.FewFields := by decide +kernel
  have hr : (ringOperation "second" "C").result = some (.named "C") := rfl
  have hc : ring.schema.isComposite "C" = true := by decide +kernel
  have ht : (ring.policyAfter [ringOperation "first" "A"] (ringOperation "second" "C")).takes
      (.obj deepSelection) = true := by
    decide +kernel
  have hbetween := takes_between_wellTyped_admits hl hfields hmembers hfew
    [ringOperation "first" "A"] hr hc (show deepSelection ≠ [] by simp [deepSelection])
  exact ⟨hl, hfields, hmembers, hfew, ht, (hbetween.2 ht).2⟩

end OutputTypes

end OperationTools
