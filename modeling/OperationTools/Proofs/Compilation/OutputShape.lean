import Mathlib.Data.List.Chain
import OperationTools.Proofs.Compilation.OutputMemo
import OperationTools.Proofs.Validator.Selection

/-!
# The shape of selection validators

Whatever stands under the keys of a selection validator is a leaf, a lazy validator, or a strict one
that stands in the memo. All of them leave an accepted selection as it is.

## Main definitions

* `Validator.at?`: the validator under several keys
* `OutputTypes.Arises`: the validators inside a standing one
* `OutputTypes.knownNames`: the fields that a strict validator knows
* `Validator.Contains`: a validator stands directly inside another one

## Main results

* `OutputTypes.Arises.at?`: what is found under keys arises again
* `OutputTypes.Stands.countP_isStrict_le`: how many strict validators stand inside one another
* `OutputTypes.Arises.value_eq`: an accepted selection is left as it is
-/

namespace OperationTools

/-- The validator under several keys, the outermost of which comes first. -/
def Validator.at? (v : Validator) : List String → Option Validator
  | [] => some v
  | key :: rest => (v.child? key).bind fun c => c.at? rest

/-- Whether a validator knows every key of its type. -/
def Validator.isStrict : Validator → Bool
  | .strictSelection .. => true
  | _ => false

/-- A validator stands directly inside a selection validator: as that of a field or a narrowing, or
under a key. -/
inductive Validator.Contains : Validator → Validator → Prop where
  | field {typeName : String} {fields fragments : List (String × Validator)}
      {e : String × Validator} (h : e ∈ fields) :
      Contains (.strictSelection typeName fields fragments) e.2
  | fragment {typeName : String} {fields fragments : List (String × Validator)}
      {e : String × Validator} (h : e ∈ fragments) :
      Contains (.strictSelection typeName fields fragments) e.2
  | found {v c : Validator} {key : String} (h : v.child? key = some c) : Contains v c

namespace OutputTypes

variable (types : OutputTypes)

/-- The validators inside one that stands in a memo. -/
inductive Arises (memo : Memo) : Validator → Prop where
  | leaf : Arises memo .leaf
  | lazily (n : String) : Arises memo (types.lazily n)
  | strictly {left : Nat} {n : String} {body : TypeBody} {part : String → Validator}
      (hb : types.schema.body? n = some body) (hc : body.isComposite = true)
      (hp : ∀ m ∈ types.parts n body, types.Stands memo left m (part m)) :
      Arises memo (types.node n body part)

/-- The names of the fields that the strict validator of a type knows. -/
def knownNames (typeName : String) : List String :=
  match types.schema.body? typeName with
  | some body => (types.knownFields body).map (·.name)
  | none => []

variable {types}

theorem knownNames_eq {n : String} {body : TypeBody} (hb : types.schema.body? n = some body) :
    types.knownNames n = (types.knownFields body).map (·.name) := by
  rw [knownNames, hb]

theorem Stands.arises {memo : Memo} {left : Nat} {n : String} {v : Validator}
    (h : types.Stands memo left n v) : types.Arises memo v := by
  cases h with
  | leaf => exact .leaf
  | lazily => exact .lazily n
  | strictly hb hc _ hp => exact .strictly hb hc hp

theorem child?_node (n : String) (body : TypeBody) (part : String → Validator) (key : String) :
    (types.node n body part).child? key = if key = typenameKey then some .leaf else
      (((types.knownFields body).map fun f => (f.name, part f.type.name)).lookup key).or
        (if key ∈ types.knownNarrowings n then some (part key) else none) := by
  rw [node, Validator.child?, Entries.lookup_ofList_map]

theorem lookup_knownFields_eq_none {body : TypeBody} {part : String → Validator} {key : String}
    (h : key ∉ (types.knownFields body).map (·.name)) :
    ((types.knownFields body).map fun f => (f.name, part f.type.name)).lookup key = none := by
  rw [List.lookup_eq_none_iff]
  intro e he
  obtain ⟨f, hf, rfl⟩ := List.mem_map.1 he
  rw [bne_iff_ne]
  rintro rfl
  exact h (List.mem_map_of_mem hf)

/-- Under the name of a known field stands the validator of its type. -/
theorem child?_node_field {n : String} {body : TypeBody} {part : String → Validator}
    (hd : (body.fields.map (·.name)).Nodup) {f : Field} (hf : f ∈ types.knownFields body)
    (hne : f.name ≠ typenameKey) :
    (types.node n body part).child? f.name = some (part f.type.name) := by
  have hlookup : ((types.knownFields body).map fun f => (f.name, part f.type.name)).lookup
      f.name = some (part f.type.name) := by
    refine Entries.lookup_of_mem ?_ (List.mem_map_of_mem hf)
    rw [List.map_map]
    exact hd.sublist ((List.take_sublist _ _).map _)
  rw [child?_node, if_neg hne, hlookup, Option.some_or]

/-- Under any other key stands the validator of a narrowing, if it is one. -/
theorem child?_node_other {n : String} {body : TypeBody} {part : String → Validator} {key : String}
    (hkey : key ∉ (types.knownFields body).map (·.name)) (hne : key ≠ typenameKey) :
    (types.node n body part).child? key =
      if key ∈ types.knownNarrowings n then some (part key) else none := by
  rw [child?_node, if_neg hne, lookup_knownFields_eq_none hkey, Option.none_or]

/-- Under a key of a strict validator stands a leaf or one of the parts. -/
theorem child?_node_cases {n : String} {body : TypeBody} {part : String → Validator}
    {key : String} {c : Validator} (h : (types.node n body part).child? key = some c) :
    c = .leaf ∨ ∃ m ∈ types.parts n body, c = part m := by
  rw [child?_node] at h
  split at h
  · exact .inl (Option.some.inj h).symm
  · rcases Option.or_eq_some_iff.1 h with h | ⟨-, h⟩
    · obtain ⟨f, hf, he⟩ := List.mem_map.1 (Entries.mem_of_lookup h)
      exact .inr ⟨_, List.mem_append_left _ (List.mem_map_of_mem hf), (Prod.mk.inj he).2.symm⟩
    · split at h
      · exact .inr ⟨key, List.mem_append_right _ ‹_›, (Option.some.inj h).symm⟩
      · cases h

theorem child?_lazily_cases {n key : String} {c : Validator}
    (h : (types.lazily n).child? key = some c) :
    c = .leaf ∨ ∃ m, types.schema.part? types.implementers n key = some (.composite m) ∧
      c = types.lazily m := by
  rw [lazily, Validator.child?] at h
  split at h
  · exact .inl (Option.some.inj h).symm
  · obtain ⟨part, hpart, rfl⟩ := Option.map_eq_some_iff.1 h
    cases part with
    | leaf => exact .inl rfl
    | composite m => exact .inr ⟨m, hpart, rfl⟩

theorem Arises.child {memo : Memo} {v c : Validator} (h : types.Arises memo v) {key : String}
    (hc : v.child? key = some c) : types.Arises memo c := by
  cases h with
  | leaf => cases hc
  | lazily n =>
    rcases child?_lazily_cases hc with rfl | ⟨m, -, rfl⟩
    · exact .leaf
    · exact .lazily m
  | strictly _ _ hp =>
    rcases child?_node_cases hc with rfl | ⟨m, hm, rfl⟩
    · exact .leaf
    · exact (hp m hm).arises

/-- Whatever is found under keys arises again. -/
theorem Arises.at? {memo : Memo} {v c : Validator} (h : types.Arises memo v) {keys : List String}
    (hc : v.at? keys = some c) : types.Arises memo c := by
  induction keys generalizing v with
  | nil =>
    cases hc
    exact h
  | cons key rest ih =>
    obtain ⟨w, hw, hc⟩ := Option.bind_eq_some_iff.1 hc
    exact ih (h.child hw) hc

/-- What stands under a known key of an object without issues has none. -/
theorem Arises.issues_child {memo : Memo} {v c : Validator} (h : types.Arises memo v)
    {entries : List (String × Json)} (hx : (v.report (.obj entries)).issues = [])
    {e : String × Json} (he : e ∈ entries) (hc : v.child? e.1 = some c) :
    (c.report e.2).issues = [] := by
  cases h with
  | leaf => cases hc
  | lazily n => exact Validator.issues_lazySelection_eq_nil_iff.1 hx e he c hc
  | strictly =>
    obtain ⟨c', hc', hr⟩ := Validator.issues_strictSelection_eq_nil_iff.1 hx e he
    cases hc.symm.trans hc'
    exact hr

/-- A strict validator that arises is that of a type with its known fields and narrowings. -/
theorem Arises.exists_node {memo : Memo} {typeName : String}
    {fields fragments : List (String × Validator)}
    (h : types.Arises memo (.strictSelection typeName fields fragments)) :
    ∃ body part, types.schema.body? typeName = some body ∧ body.isComposite = true ∧
      .strictSelection typeName fields fragments = types.node typeName body part := by
  generalize hv : Validator.strictSelection typeName fields fragments = v at h
  cases h with
  | leaf => cases hv
  | lazily => cases hv
  | strictly hb hc =>
    obtain rfl : typeName = _ := (Validator.strictSelection.inj hv).1
    exact ⟨_, _, hb, hc, rfl⟩

theorem Arises.value_shallowReport {memo : Memo} {v : Validator} (h : types.Arises memo v)
    (x : Json) : (v.shallowReport x).value = x := by
  cases h <;> cases x with
  | bool b => cases b <;> rfl
  | _ => rfl

/-- An accepted selection is left as it is. -/
theorem Arises.value_eq {memo : Memo} {v : Validator} (h : types.Arises memo v) {x : Json}
    (hx : (v.report x).issues = []) : (v.report x).value = x := by
  induction x using Json.induction generalizing v with
  | scalar x harr hobj =>
    have hshallow := h.value_shallowReport x
    cases x with
    | arr | obj => simp [Json.kind] at harr hobj
    | null | bool | int | float | str => exact hshallow
  | arr items =>
    have hshallow := h.value_shallowReport (.arr items)
    cases h <;> exact hshallow
  | obj entries ih =>
    have hshallow := h.value_shallowReport (.obj entries)
    have hchild := fun (key : String) (c : Validator) => @Arises.child types memo v c h key
    cases h with
    | leaf => exact hshallow
    | lazily n => rfl
    | strictly hb hc hp =>
      rw [node] at hx hchild ⊢
      have hknown := Validator.issues_strictSelection_eq_nil_iff.1 hx
      rw [Validator.report_strictSelection_obj, Report.value_collect]
      congr 1
      refine (List.map_congr_left fun e he => ?_).trans (List.map_id entries)
      obtain ⟨c, hc, hr⟩ := hknown e he
      rw [hc]
      exact Prod.ext rfl (ih e he (hchild e.1 c hc) hr)

/-! ## Strict validators inside one another -/

theorem not_leaf_contains (c : Validator) : ¬ Validator.leaf.Contains c := by
  intro h
  cases h with
  | found h => cases h

theorem cases_of_lazily_contains {n : String} {c : Validator} (h : (types.lazily n).Contains c) :
    c = .leaf ∨ ∃ m, c = types.lazily m := by
  generalize hv : types.lazily n = v at h
  cases h with
  | field | fragment => cases hv
  | found h =>
    rw [← hv] at h
    exact (child?_lazily_cases h).imp id fun ⟨m, _, he⟩ => ⟨m, he⟩

/-- Inside a strict validator stand leaves and the validators of the parts. -/
theorem cases_of_node_contains {n : String} {body : TypeBody} {part : String → Validator}
    {c : Validator} (h : (types.node n body part).Contains c) :
    c = .leaf ∨ ∃ m ∈ types.parts n body, c = part m := by
  generalize hv : types.node n body part = v at h
  cases h with
  | @field _ _ _ e he =>
    obtain ⟨-, rfl, -⟩ := Validator.strictSelection.inj hv
    obtain ⟨f, hf, rfl⟩ := List.mem_map.1 he
    exact .inr ⟨_, List.mem_append_left _ (List.mem_map_of_mem hf), rfl⟩
  | @fragment _ _ _ e he =>
    obtain ⟨-, -, rfl⟩ := Validator.strictSelection.inj hv
    have hlookup := Entries.lookup_of_mem (Entries.nodup_keys_ofList _) he
    rw [Entries.lookup_ofList_map] at hlookup
    split at hlookup
    · exact .inr ⟨_, List.mem_append_right _ ‹_›, (Option.some.inj hlookup).symm⟩
    · cases hlookup
  | found h =>
    rw [← hv] at h
    exact child?_node_cases h

theorem countP_isStrict_leaf {path : List Validator}
    (h : (Validator.leaf :: path).IsChain Validator.Contains) :
    (Validator.leaf :: path).countP (·.isStrict) = 0 := by
  cases path with
  | nil => rfl
  | cons c rest => exact absurd (List.isChain_cons_cons.1 h).1 (not_leaf_contains c)

/-- No strict validator stands inside a lazy one. -/
theorem countP_isStrict_lazily {n : String} {path : List Validator}
    (h : (types.lazily n :: path).IsChain Validator.Contains) :
    (types.lazily n :: path).countP (·.isStrict) = 0 := by
  induction path generalizing n with
  | nil => rfl
  | cons c rest ih =>
    obtain ⟨hc, hrest⟩ := List.isChain_cons_cons.1 h
    have hzero : (c :: rest).countP (·.isStrict) = 0 := by
      rcases cases_of_lazily_contains hc with rfl | ⟨m, rfl⟩
      · exact countP_isStrict_leaf hrest
      · exact ih hrest
    rw [List.countP_cons, hzero]
    rfl

/-- On a path of validators inside one another, no more are strict than there are levels left. -/
theorem Stands.countP_isStrict_le {memo : Memo} {left : Nat} {n : String} {v : Validator}
    (h : types.Stands memo left n v) {path : List Validator}
    (hp : (v :: path).IsChain Validator.Contains) : (v :: path).countP (·.isStrict) ≤ left := by
  -- induction on the path, which goes down one level behind each strict validator
  induction path generalizing left n v with
  | nil =>
    cases h with
    | leaf | lazily => exact Nat.zero_le _
    | strictly => exact Nat.succ_le_succ (Nat.zero_le _)
  | cons c rest ih =>
    cases h with
    | leaf => exact (countP_isStrict_leaf hp).trans_le (Nat.zero_le _)
    | lazily => exact (countP_isStrict_lazily hp).trans_le (Nat.zero_le _)
    | @strictly left _ _ _ _ _ _ hparts =>
      obtain ⟨hc, hrest⟩ := List.isChain_cons_cons.1 hp
      have hle : (c :: rest).countP (·.isStrict) ≤ left := by
        rcases cases_of_node_contains hc with rfl | ⟨m, hm, rfl⟩
        · exact (countP_isStrict_leaf hrest).trans_le (Nat.zero_le _)
        · exact ih (hparts m hm) hrest
      rw [List.countP_cons]
      split <;> omega

end OutputTypes

end OperationTools
