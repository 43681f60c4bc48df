import OperationTools.Proofs.Compilation.OutputWellTyped

/-!
# Raising the depth limit

With a higher limit, validators are strict further down. Two runs over the same operations that
differ in the limit alone go side by side: they keep validators under the same keys as far as the
lower limit reaches, and what the higher limit gives differs from what the lower one gives only in
that lazy validators of some types are replaced by strict ones. A lazy validator takes what strict
ones take, with one exception: a scalar, enum or input object among the members of a union is a leaf
to a strict validator and has parts to a lazy one, so that `true` is taken there by the strict one
alone.

## Main definitions

* `OutputTypes.withDepth`: the same types with another depth limit
* `OutputTypes.Loosens`: a validator with lazy ones in the place of strict ones
* `OutputTypes.Loose`: two memos with such validators under the keys of one of them
* `OutputTypes.PicksPartless`: a member without parts is asked for as a whole

## Main results

* `OutputTypes.loosens_of_yields`: two visits side by side
* `OutputTypes.Loosens.takes`: what a looser validator takes
* `OutputTypes.takes_of_takes_deeper`: what policies take under two limits
-/

namespace OperationTools.OutputTypes

variable (types : OutputTypes)

/-- The same types with another depth limit. -/
def withDepth (depth : Cap) : OutputTypes :=
  { types with settings := { types.settings with maxSchemaDepth := depth } }

/-- The loosest validator of a type. -/
def loosest (n : String) : Validator :=
  if types.schema.isComposite n then types.lazily n else .leaf

/-- A validator of a type is obtained from another one by lazy validators in the place of strict
ones. -/
inductive Loosens : String → Validator → Validator → Prop where
  | leaf {n : String} (hc : types.schema.isComposite n = false) : Loosens n .leaf .leaf
  | lazily {n : String} (hc : types.schema.isComposite n = true) :
      Loosens n (types.lazily n) (types.lazily n)
  | strictly {n : String} {body : TypeBody} {part part' : String → Validator}
      (hb : types.schema.body? n = some body) (hc : body.isComposite = true)
      (hp : ∀ m ∈ types.parts n body, Loosens m (part m) (part' m)) :
      Loosens n (types.node n body part) (types.node n body part')
  | opened {n : String} {body : TypeBody} {part : String → Validator}
      (hb : types.schema.body? n = some body) (hc : body.isComposite = true)
      (hp : ∀ m ∈ types.parts n body, Loosens m (types.loosest m) (part m)) :
      Loosens n (types.lazily n) (types.node n body part)

/-- Under every key of a memo another one has a validator as well, which is loosened by the first
one. -/
def Loose (memo deeper : Memo) : Prop :=
  ∀ n left, Option.Rel (types.Loosens n) (memo.find? (types.key n left))
    (deeper.find? (types.key n left))

/-- In a selection on a type, a member without parts is asked for as a whole. -/
def PicksPartless (n : String) (x : Json) : Prop :=
  ∃ m, types.schema.isComposite m = false ∧
    types.Reaches (.composite n) x (.composite m) (.bool true)

variable {types} {deeper : Cap}

/-! ## Two runs side by side -/

theorem loosest_of_isComposite {n : String} (hc : types.schema.isComposite n = true) :
    types.loosest n = types.lazily n := if_pos hc

theorem loosest_of_not_isComposite {n : String} (hc : types.schema.isComposite n = false) :
    types.loosest n = .leaf := if_neg (by simp [hc])

/-- A validator that stands for a type is loosened by the loosest one. -/
theorem Stands.loosens {memo : Memo} {left : Nat} {n : String} {v : Validator}
    (h : (types.withDepth deeper).Stands memo left n v) : types.Loosens n (types.loosest n) v := by
  induction h with
  | @leaf _ n hc =>
    have hc : types.schema.isComposite n = false := hc
    rw [loosest_of_not_isComposite hc]
    exact .leaf hc
  | @lazily _ n hc =>
    have hc : types.schema.isComposite n = true := hc
    rw [loosest_of_isComposite hc]
    exact .lazily hc
  | @strictly _ n body part hb hbc _ _ ih =>
    have hc : types.schema.isComposite n = true := isComposite_of_body? hb hbc
    rw [loosest_of_isComposite hc]
    exact .opened hb hbc ih

/-- A level further down under a higher limit has the same depth. -/
theorem key_withDepth {k : Nat} (hk : deeper.value = types.settings.maxSchemaDepth.value + k)
    (n : String) (left : Nat) : (types.withDepth deeper).key n (left + k) = types.key n left := by
  simp only [key, withDepth, hk]
  congr 1
  omega

theorem Loose.keep {memo memo' : Memo} (h : types.Loose memo memo') {n : String} {left : Nat}
    {v v' : Validator} (hv : types.Loosens n v v') :
    types.Loose (memo.keep (types.key n left) v) (memo'.keep (types.key n left) v') := by
  intro m l
  rw [Memo.find?_keep, Memo.find?_keep]
  have hrel := h m l
  revert hrel
  generalize memo.find? (types.key m l) = found
  generalize memo'.find? (types.key m l) = found'
  intro hrel
  cases hrel with
  | some hw => exact .some hw
  | none =>
    by_cases hkey : types.key m l = types.key n left
    · obtain ⟨rfl, rfl⟩ := types.key_inj.1 hkey
      simpa using hv
    · simp [hkey]

/-- Where the lower limit is reached, the other visit goes on. It keeps validators at depths that the
lower limit forbids, and they are loosened by the lazy one. -/
theorem loosens_of_deep {k : Nat} (hk : deeper.value = types.settings.maxSchemaDepth.value + k)
    {visited : List String} {n : String} (hc : types.schema.isComposite n = true) {memo : Memo}
    {s' t' : Compilation} {v' : Validator}
    (h' : ((types.withDepth deeper).ofNamed k visited n).Yields s' v' t')
    (hs : types.Loose memo s'.memo) (hsound : (types.withDepth deeper).Sound s'.memo) :
    types.Loosens n (types.lazily n) v' ∧ types.Loose memo t'.memo := by
  have hloosens := (sound_of_yields h' hsound).2.loosens
  rw [loosest_of_isComposite hc] at hloosens
  refine ⟨hloosens, fun m l => ?_⟩
  rw [(types.withDepth deeper).find?_of_yields h' ?_]
  · exact hs m l
  · intro m' l' hkey
    rw [← key_withDepth hk] at hkey
    have hlevel := ((types.withDepth deeper).key_inj.1 hkey).2
    omega

/-- Where both visits make their validator, its parts loosen one another if single visits do. -/
theorem loosens_of_threads {left k : Nat} {visited : List String} {n : String} {body : TypeBody}
    (hb : types.schema.body? n = some body) (hc : body.isComposite = true)
    {s u s' u' : Compilation} {vs vs' : List Validator}
    (h : Thread (fun m => (types.ofNamed left visited m).Yields) (types.parts n body)
      (types.noted n body s) vs u)
    (h' : Thread (fun m => ((types.withDepth deeper).ofNamed (left + k) visited m).Yields)
      ((types.withDepth deeper).parts n body) ((types.withDepth deeper).noted n body s') vs' u')
    (step : ∀ m s v t s' v' t', (types.ofNamed left visited m).Yields s v t →
      ((types.withDepth deeper).ofNamed (left + k) visited m).Yields s' v' t' →
      types.Loose s.memo s'.memo → (types.withDepth deeper).Sound s'.memo →
      types.Loosens m v v' ∧ types.Loose t.memo t'.memo)
    (hs : types.Loose s.memo s'.memo) (hsound : (types.withDepth deeper).Sound s'.memo) :
    types.Loosens n (types.strict n body vs) ((types.withDepth deeper).strict n body vs') ∧
      types.Loose u.memo u'.memo := by
  obtain ⟨part, he, rfl⟩ := types.exists_node h
  obtain ⟨part', he', rfl⟩ := (types.withDepth deeper).exists_node h'
  obtain ⟨hparts, hu, -⟩ := h.lockstep_and h'
    (I := fun s s' => types.Loose s.memo s'.memo ∧ (types.withDepth deeper).Sound s'.memo)
    (Q := types.Loosens)
    (fun m s v t s' v' t' h h' hi => by
      obtain ⟨hloosens, ht⟩ := step m s v t s' v' t' h h' hi.1 hi.2
      exact ⟨hloosens, ht, (sound_of_yields h' hi.2).1⟩)
    ⟨fun m l => by rw [find?_noted, find?_noted]; exact hs m l,
      hsound.congr ((types.withDepth deeper).find?_noted n body s')⟩
  refine ⟨?_, hu⟩
  rw [he, he']
  exact .strictly hb hc hparts

/-- Two visits of a type, with as many levels left as the limits allow at the same depth, have
results of which one loosens the other, and leave such memos. -/
theorem loosens_of_yields {k : Nat}
    (hk : deeper.value = types.settings.maxSchemaDepth.value + k) {left : Nat}
    {visited : List String} {n : String} {s t s' t' : Compilation} {v v' : Validator}
    (h : (types.ofNamed left visited n).Yields s v t)
    (h' : ((types.withDepth deeper).ofNamed (left + k) visited n).Yields s' v' t')
    (hs : types.Loose s.memo s'.memo) (hsound : (types.withDepth deeper).Sound s'.memo) :
    types.Loosens n v v' ∧ types.Loose t.memo t'.memo := by
  induction left generalizing visited n s t s' t' v v' with
  | zero =>
    cases types.yields_ofNamed_iff.1 h with
    | leaf hc =>
      obtain ⟨rfl, rfl⟩ := ((types.withDepth deeper).yields_leaf_iff hc).1 h'
      exact ⟨.leaf hc, hs⟩
    | deep hc =>
      rw [Nat.zero_add] at h'
      exact loosens_of_deep hk hc h' hs hsound
  | succ left ih =>
    cases hc : types.schema.isComposite n with
    | false =>
      obtain ⟨rfl, rfl⟩ := (types.yields_leaf_iff hc).1 h
      obtain ⟨rfl, rfl⟩ := ((types.withDepth deeper).yields_leaf_iff hc).1 h'
      exact ⟨.leaf hc, hs⟩
    | true =>
      obtain ⟨body, hb, hbc⟩ := Schema.exists_body?_of_isComposite hc
      have hrel := hs n left
      rw [Nat.add_right_comm, (types.withDepth deeper).yields_composite_iff hb hbc,
        key_withDepth hk] at h'
      rcases (types.yields_composite_iff hb hbc).1 h with
        ⟨hv, rfl, rfl⟩ | ⟨hv, hfound, rfl⟩ | ⟨hv, hnone, vs, u, hp, rfl, rfl⟩
      · obtain ⟨-, rfl, rfl⟩ := h'.resolve_right (by rintro (⟨h, -⟩ | ⟨h, -⟩) <;> exact h hv)
        exact ⟨.lazily hc, hs⟩
      · rcases h'.resolve_left (fun h => hv h.1) with ⟨-, hfound', rfl⟩ | ⟨-, hnone, -⟩
        · rw [hfound, hfound'] at hrel
          cases hrel with
          | some hloosens => exact ⟨hloosens, hs⟩
        · rw [hfound, hnone] at hrel
          cases hrel
      · rcases h'.resolve_left (fun h => hv h.1) with ⟨-, hfound, -⟩ | ⟨-, -, vs', u', hp', rfl, rfl⟩
        · rw [hfound, hnone] at hrel
          cases hrel
        · obtain ⟨hnode, hu⟩ := loosens_of_threads hb hbc hp hp'
            (fun _ _ _ _ _ _ _ h h' hs hsound => ih h h' hs hsound) hs hsound
          exact ⟨hnode, hu.keep hnode⟩

/-! ## What looser validators take -/

theorem Loosens.eq_leaf {n : String} {v v' : Validator} (h : types.Loosens n v v')
    (hc : types.schema.isComposite n = false) : v = .leaf ∧ v' = .leaf := by
  cases h with
  | leaf => exact ⟨rfl, rfl⟩
  | lazily hc' => simp [hc] at hc'
  | strictly hb hbc | opened hb hbc => simp [isComposite_of_body? hb hbc] at hc

/-- A key other than `__typename` leads nowhere, and no strict validator knows it; or it leads to a
part, under which the strict validators have what they are made of. -/
theorem child?_node_of_resolve? (hfields : types.schema.FieldsSelectable) (hfew : types.FewFields)
    {n key : String} {body : TypeBody} (hb : types.schema.body? n = some body)
    (hc : body.isComposite = true) (hk : key ≠ typenameKey) :
    (types.resolve? n key = none ∧ ∀ part, (types.node n body part).child? key = none) ∨
      ∃ m ∈ types.parts n body, (∀ part, (types.node n body part).child? key = some (part m)) ∧
        (types.resolve? n key = some (.composite m) ∨
          types.schema.isComposite m = false ∧ types.resolve? n key = some .leaf) := by
  have hknown := knownFields_eq hfew hb
  have hchild : ∀ part, (types.node n body part).child? key =
      (((body.fields.find? (·.name == key)).map (·.type.name)).map part).or
        (if key ∈ types.knownNarrowings n then some (part key) else none) := by
    intro part
    rw [child?_node, if_neg hk, lookup_fields, hknown]
  simp only [hchild, resolve?, if_neg hk, Schema.part?, Schema.fieldType?_eq hb hc]
  cases hf : body.fields.find? (·.name == key) with
  | some f =>
    have hmem := List.mem_of_find?_eq_some hf
    refine .inr ⟨f.type.name, ?_, fun part => rfl, ?_⟩
    · rw [parts, hknown]
      exact List.mem_append_left _ (List.mem_map_of_mem hmem)
    · rcases hfields _ (Schema.mem_of_body? hb) f hmem with hleaf | hcomp
      · exact .inr ⟨Schema.isComposite_eq_false_of_isLeaf hleaf, by simp [hleaf]⟩
      · exact .inl (by simp [Schema.isLeaf_eq_false_of_isComposite hcomp])
  | none =>
    by_cases hm : key ∈ types.knownNarrowings n
    · refine .inr ⟨key, List.mem_append_right _ hm, fun part => by simp [hm], .inl ?_⟩
      simpa [knownNarrowings] using hm
    · refine .inl ⟨?_, fun part => by simp [hm]⟩
      simpa [knownNarrowings] using hm

theorem PicksPartless.under {n m : String} {entries : List (String × Json)} {e : String × Json}
    (he : e ∈ entries) (hr : types.resolve? n e.1 = some (.composite m))
    (h : types.PicksPartless m e.2) : types.PicksPartless n (.obj entries) := by
  obtain ⟨p, hp, hreaches⟩ := h
  exact ⟨p, hp, .under he hr hreaches⟩

/-- Without parts, a strict and a lazy validator take the same. -/
theorem takes_lazily_of_takes_node {n : String} {body : TypeBody} {part : String → Validator}
    {x : Json} (hx : ∀ entries, x ≠ .obj entries) (ht : (types.node n body part).takes x = true) :
    (types.lazily n).takes x = true := by
  cases x with
  | obj entries => exact absurd rfl (hx entries)
  | null => rfl
  | bool b =>
    cases b with
    | false => rfl
    | true => simp [node, Validator.takes, Validator.accepts, Validator.report,
        Validator.shallowReport] at ht
  | int | float | str | arr => simp [node, Validator.takes, Validator.accepts, Validator.report,
      Validator.arrayReport, Validator.shallowReport] at ht

theorem takes_node_congr {n : String} {body : TypeBody} {part part' : String → Validator}
    {x : Json} (hx : ∀ entries, x ≠ .obj entries) (ht : (types.node n body part').takes x = true) :
    (types.node n body part).takes x = true := by
  cases x with
  | obj entries => exact absurd rfl (hx entries)
  | null | bool | int | float | str | arr => exact ht

/-- A lazy validator of a type without parts refuses nothing but `true` of what a leaf takes. -/
theorem takes_lazily_of_takes_leaf {m : String} {x : Json} (ht : Validator.leaf.takes x = true)
    (hx : x ≠ .bool true) : (types.lazily m).takes x = true := by
  cases x with
  | null => rfl
  | bool b =>
    cases b with
    | false => rfl
    | true => exact absurd rfl hx
  | int | float | str | arr | obj => simp [Validator.takes, Validator.accepts, Validator.report,
      Validator.arrayReport, Validator.objectReport, Validator.shallowReport] at ht

theorem takes_node_obj_iff {n : String} {body : TypeBody} {part : String → Validator}
    {entries : List (String × Json)} : (types.node n body part).takes (.obj entries) = true ↔
      ∀ e ∈ entries, ∃ c, (types.node n body part).child? e.1 = some c ∧ c.takes e.2 = true :=
  Validator.takes_strictSelection_iff

section Objects

variable {n : String} {body : TypeBody} {part part' : String → Validator}
  {entries : List (String × Json)}

/-- A strict validator takes the entries that another one takes, if its parts are looser. -/
theorem takes_node_of_parts (hfields : types.schema.FieldsSelectable) (hfew : types.FewFields)
    (hb : types.schema.body? n = some body) (hc : body.isComposite = true)
    (hleaf : ∀ m ∈ types.parts n body, types.schema.isComposite m = false → part m = part' m)
    (hparts : ∀ m ∈ types.parts n body, ∀ {x}, (part' m).takes x = true →
      ¬ types.PicksPartless m x → (part m).takes x = true)
    (hx : (types.node n body part').takes (.obj entries) = true)
    (hpicks : ¬ types.PicksPartless n (.obj entries)) :
    (types.node n body part).takes (.obj entries) = true := by
  refine takes_node_obj_iff.2 fun e he => ?_
  obtain ⟨c, hchild, ht⟩ := takes_node_obj_iff.1 hx e he
  by_cases hk : e.1 = typenameKey
  · rw [child?_node, if_pos hk] at hchild ⊢
    exact ⟨c, hchild, ht⟩
  rcases child?_node_of_resolve? hfields hfew hb hc hk with
    ⟨-, hnone⟩ | ⟨m, hm, hpart, hresolve⟩
  · simp [hnone] at hchild
  · rw [hpart] at hchild
    cases hchild
    refine ⟨part m, hpart part, ?_⟩
    rcases hresolve with hcomposite | ⟨hcm, -⟩
    · exact hparts m hm ht fun h => hpicks (h.under he hcomposite)
    · rwa [hleaf m hm hcm]

/-- A lazy validator takes the entries that a strict one takes, if the loosest validators of the
parts are looser. -/
theorem takes_lazily_of_parts (hfields : types.schema.FieldsSelectable) (hfew : types.FewFields)
    (hb : types.schema.body? n = some body) (hc : body.isComposite = true)
    (hleaf : ∀ m ∈ types.parts n body, types.schema.isComposite m = false → part m = .leaf)
    (hparts : ∀ m ∈ types.parts n body, ∀ {x}, (part m).takes x = true →
      ¬ types.PicksPartless m x → (types.loosest m).takes x = true)
    (hx : (types.node n body part).takes (.obj entries) = true)
    (hpicks : ¬ types.PicksPartless n (.obj entries)) :
    (types.lazily n).takes (.obj entries) = true := by
  have hcomp := Schema.isLeaf_eq_false_of_isComposite (isComposite_of_body? hb hc)
  refine (Validator.takes_lazySelection_iff hcomp).2 fun e he c hec => ?_
  obtain ⟨c', hchild, ht⟩ := takes_node_obj_iff.1 hx e he
  rw [← OutputTypes.lazily, child?_lazily] at hec
  by_cases hk : e.1 = typenameKey
  · rw [child?_node, if_pos hk] at hchild
    rw [resolve?, if_pos hk] at hec
    cases hchild
    cases hec
    exact ht
  rcases child?_node_of_resolve? hfields hfew hb hc hk with
    ⟨hnone, -⟩ | ⟨m, hm, hpart, hresolve⟩
  · simp [hnone] at hec
  · rw [hpart] at hchild
    cases hchild
    rcases hresolve with hcomposite | ⟨hcm, hswitch⟩
    · rw [hcomposite] at hec
      cases hec
      cases hcm : types.schema.isComposite m with
      | true =>
        have htakes := hparts m hm ht fun h => hpicks (h.under he hcomposite)
        rwa [loosest_of_isComposite hcm] at htakes
      | false =>
        rw [hleaf m hm hcm] at ht
        refine takes_lazily_of_takes_leaf ht fun hwhole => hpicks ⟨m, hcm, ?_⟩
        exact .under he hcomposite (hwhole ▸ .here _ _)
    · rw [hswitch] at hec
      cases hec
      rwa [hleaf m hm hcm] at ht

end Objects

/-- What a validator takes is taken by a looser one, unless a member without parts is asked for as a
whole. -/
theorem Loosens.takes (hfields : types.schema.FieldsSelectable) (hfew : types.FewFields)
    {n : String} {v v' : Validator} (h : types.Loosens n v v') {x : Json}
    (hx : v'.takes x = true) : v.takes x = true ∨ types.PicksPartless n x := by
  by_cases hpicks : types.PicksPartless n x
  · exact .inr hpicks
  refine .inl ?_
  -- induction on the pair of validators; only objects are looked into
  induction h generalizing x with
  | leaf | lazily => exact hx
  | @strictly n body part part' hb hc hp ih =>
    by_cases hobj : ∃ entries, x = .obj entries
    · obtain ⟨entries, rfl⟩ := hobj
      refine takes_node_of_parts hfields hfew hb hc (fun m hm hcm => ?_) ih hx hpicks
      rw [((hp m hm).eq_leaf hcm).1, ((hp m hm).eq_leaf hcm).2]
    · exact takes_node_congr (fun entries h => hobj ⟨entries, h⟩) hx
  | @opened n body part hb hc hp ih =>
    by_cases hobj : ∃ entries, x = .obj entries
    · obtain ⟨entries, rfl⟩ := hobj
      exact takes_lazily_of_parts hfields hfew hb hc (fun m hm hcm => ((hp m hm).eq_leaf hcm).2)
        ih hx hpicks
    · exact takes_lazily_of_takes_node (fun entries h => hobj ⟨entries, h⟩) hx

/-! ## Operations -/

/-- Compiling an operation under both limits leaves related memos and policies. -/
theorem loosens_of_yields_operation {k : Nat}
    (hk : deeper.value = types.settings.maxSchemaDepth.value + k) {op : Operation}
    {s t s' t' : Compilation} {p p' : SelectionPolicy}
    (h : (types.ofOperation op).Yields s p t)
    (h' : ((types.withDepth deeper).ofOperation op).Yields s' p' t')
    (hs : types.Loose s.memo s'.memo) (hsound : (types.withDepth deeper).Sound s'.memo) :
    types.Loose t.memo t'.memo ∧ (p = p' ∨ ∃ type v v' keys, op.result = some type ∧
      types.Loosens type.name v v' ∧ p = ⟨v, keys⟩ ∧ p' = ⟨v', keys⟩) := by
  rcases yields_ofOperation_iff.1 h with ⟨hr, rfl, rfl⟩ | ⟨type, v, hr, hv, rfl⟩
  · rcases yields_ofOperation_iff.1 h' with ⟨-, rfl, rfl⟩ | ⟨_, _, hr', -, -⟩
    · exact ⟨hs, .inl rfl⟩
    · simp [hr] at hr'
  · rcases yields_ofOperation_iff.1 h' with ⟨hr', -, -⟩ | ⟨type', v', hr', hv', rfl⟩
    · simp [hr] at hr'
    · cases hr.symm.trans hr'
      have hlevels : (types.withDepth deeper).levelsLeft 0 = types.levelsLeft 0 + k := by
        rw [levelsLeft_zero, levelsLeft_zero, withDepth, hk]
        omega
      rw [hlevels] at hv'
      obtain ⟨hloosens, ht⟩ := loosens_of_yields hk hv hv' hs hsound
      exact ⟨ht, .inr ⟨type, v, v', _, hr, hloosens, rfl, rfl⟩⟩

/-- The memos that the same operations fill under both limits are related. -/
theorem loose_memoAfter {k : Nat} (hk : deeper.value = types.settings.maxSchemaDepth.value + k)
    (history : List Operation) :
    types.Loose (types.memoAfter history) ((types.withDepth deeper).memoAfter history) := by
  have h : (history.mapM types.ofOperation).Yields {} _ _ := rfl
  have h' : (history.mapM (types.withDepth deeper).ofOperation).Yields {} _ _ := rfl
  have hempty : types.Loose ({} : Compilation).memo ({} : Compilation).memo := fun _ _ => .none
  exact ((Compile.yields_mapM.1 h).lockstep (Compile.yields_mapM.1 h')
    (I := fun s s' => types.Loose s.memo s'.memo ∧ (types.withDepth deeper).Sound s'.memo)
    (fun _ _ _ _ _ _ _ h h' hi => ⟨(loosens_of_yields_operation hk h h' hi.1 hi.2).1,
      sound_of_yields_operation h' hi.2⟩) ⟨hempty, sound_empty⟩).1

/-- Where every member of a union has parts, no member without parts is asked for. -/
theorem isComposite_of_reaches (hl : types.schema.Lawful) (hfields : types.schema.FieldsSelectable)
    (hmembers : types.schema.MembersSelectable) {n m : String} {x y : Json}
    (h : types.Reaches (.composite n) x (.composite m) y)
    (hc : types.schema.isComposite n = true) : types.schema.isComposite m = true := by
  generalize hp : Part.composite n = part at h
  generalize hi : Part.composite m = inner at h
  induction h generalizing n with
  | here =>
    cases hp.trans hi.symm
    exact hc
  | @under _ _ e part _ _ _ hr h ih =>
    cases hp
    cases part with
    | leaf =>
      subst hi
      cases h
    | composite k =>
      refine ih ?_ rfl hi
      unfold resolve? at hr
      split at hr
      · cases hr
      · exact hl.isComposite_of_part? hfields hmembers hc hr

/-- A policy with a looser validator takes what the other one takes, with the same exception. -/
theorem Loosens.takes_policy (hfields : types.schema.FieldsSelectable) (hfew : types.FewFields)
    {n : String} {v v' : Validator} (h : types.Loosens n v v') {keys : List String} {x : Json}
    (hx : (⟨v', keys⟩ : SelectionPolicy).takes x = true) :
    (⟨v, keys⟩ : SelectionPolicy).takes x = true ∨
      types.schema.isComposite n = true ∧ types.PicksPartless n x := by
  cases x with
  | null => exact .inl rfl
  | obj entries =>
    cases entries with
    | nil => exact .inl rfl
    | cons e rest =>
      rw [SelectionPolicy.takes_obj (by simp)] at hx ⊢
      cases hc : types.schema.isComposite n with
      | false =>
        obtain ⟨rfl, rfl⟩ := h.eq_leaf hc
        exact .inl hx
      | true => exact (h.takes hfields hfew hx).imp_right fun hp => ⟨rfl, hp⟩
  | bool | int | float | str | arr => cases hx

/-- A selection that is taken for an operation under a higher depth limit, after the same operations
and from an empty memo, is taken under a lower one as well, unless it asks for a member without
parts as a whole. In a lawful schema in which all members of unions have parts there are none. -/
theorem takes_of_takes_deeper (hfields : types.schema.FieldsSelectable) (hfew : types.FewFields)
    (hd : types.settings.maxSchemaDepth.value ≤ deeper.value) (history : List Operation)
    (op : Operation) {x : Json}
    (hx : ((types.withDepth deeper).policyAfter history op).takes x = true) :
    ((types.policyAfter history op).takes x = true ∨ ∃ type, op.result = some type ∧
        types.schema.isComposite type.name = true ∧ types.PicksPartless type.name x) ∧
      (types.schema.Lawful → types.schema.MembersSelectable →
        (types.policyAfter history op).takes x = true) := by
  obtain ⟨k, hk⟩ := Nat.exists_eq_add_of_le hd
  obtain ⟨t, h⟩ := types.yields_policyAfter history op
  obtain ⟨t', h'⟩ := (types.withDepth deeper).yields_policyAfter history op
  have hlimits : (types.policyAfter history op).takes x = true ∨ ∃ type, op.result = some type ∧
      types.schema.isComposite type.name = true ∧ types.PicksPartless type.name x := by
    rcases (loosens_of_yields_operation hk h h' (loose_memoAfter hk history)
      (sound_memoAfter _ history)).2 with he | ⟨type, v, v', keys, hr, hloosens, he, he'⟩
    · exact .inl (he ▸ hx)
    · rw [he'] at hx
      rw [he]
      exact (hloosens.takes_policy hfields hfew hx).imp_right fun hp => ⟨type, hr, hp⟩
  refine ⟨hlimits, fun hl hmembers => ?_⟩
  refine hlimits.resolve_right ?_
  rintro ⟨type, -, hc, m, hcm, hreaches⟩
  rw [isComposite_of_reaches hl hfields hmembers hreaches hc] at hcm
  cases hcm

/-- A union with a scalar among its members, at depth two. -/
def deepMember : OutputTypes where
  schema :=
    { types :=
        [⟨"A", .object [] [⟨"b", .named "B", [], none⟩]⟩,
          ⟨"B", .object [] [⟨"u", .named "U", [], none⟩]⟩,
          ⟨"U", .union ["S"]⟩, ⟨"S", .scalar⟩,
          ⟨"Query", .object [] [⟨"a", .named "A", [], none⟩]⟩]
      roots := [(.query, "Query")] }
  settings := { maxSchemaDepth := 1 }

/-- The operation of the field `a`. -/
def deepOperation : Operation :=
  .ofField deepMember.settings .query { name := "a", type := .named "A" }

/-- The scalar member is asked for as a whole. -/
def wholeMember : Json := .obj [("b", .obj [("u", .obj [("S", .bool true)])])]

/-- With a limit of two the union is strict and its member is a leaf. With a limit of one the union
is lazy and the member needs a selection. -/
theorem not_takes_wholeMember :
    deepMember.schema.Lawful ∧ deepMember.schema.FieldsSelectable ∧ deepMember.FewFields ∧
      ¬ (((deepMember.withDepth 2).policyAfter [] deepOperation).takes wholeMember = true →
        (deepMember.policyAfter [] deepOperation).takes wholeMember = true) := by
  refine ⟨by decide +kernel, by decide +kernel, by decide +kernel, fun h => ?_⟩
  have ht := h (by decide +kernel)
  revert ht
  decide +kernel

/-- What is strict at depth two is taken by a lazy validator as well, since all types have parts. -/
theorem takes_ring_shallow :
    (ring.withDepth 1).schema.FieldsSelectable ∧ (ring.withDepth 1).FewFields ∧
      (((ring.withDepth 1).withDepth 2).policyAfter [ringOperation "first" "A"]
        (ringOperation "second" "C")).takes (.obj [("b", .obj [("a", .obj [])])]) = true ∧
      ((ring.withDepth 1).policyAfter [ringOperation "first" "A"]
        (ringOperation "second" "C")).takes (.obj [("b", .obj [("a", .obj [])])]) = true := by
  have hfields : (ring.withDepth 1).schema.FieldsSelectable := by decide +kernel
  have hfew : (ring.withDepth 1).FewFields := by decide +kernel
  have hdeep : (((ring.withDepth 1).withDepth 2).policyAfter [ringOperation "first" "A"]
      (ringOperation "second" "C")).takes (.obj [("b", .obj [("a", .obj [])])]) = true := by
    decide +kernel
  refine ⟨hfields, hfew, hdeep, ?_⟩
  exact (takes_of_takes_deeper hfields hfew (by decide) _ _ hdeep).2 (by decide +kernel)
    (by decide +kernel)

end OperationTools.OutputTypes
