import OperationTools.Proofs.Compilation.OutputVisit

/-!
# Memos of output types

What is kept for a type is made of what is kept for its parts. So a validator that stands in a memo
determines which validators are kept there for the types inside it, and two visits, one with an
empty memo and one with a filled one, have the same result as long as the memos agree.

## Main definitions

* `OutputTypes.Stands`: a validator of a type, everything strict inside it is kept
* `OutputTypes.Sound`: everything that is kept is made of standing parts

## Main results

* `OutputTypes.sound_of_yields`: visits keep a memo sound, and their results stand
* `OutputTypes.kept_of_stands`: a memo in which the result of a visit stands has all that it keeps
* `OutputTypes.yields_of_agrees`: visits from agreeing memos have the same result
-/

namespace OperationTools.OutputTypes

variable (types : OutputTypes)

/-- A validator of a type with a number of levels. Everything strict inside it is kept in the memo
under its own type and number of levels. -/
inductive Stands (memo : Memo) : Nat → String → Validator → Prop where
  | leaf {left : Nat} {n : String} (hc : types.schema.isComposite n = false) :
      Stands memo left n .leaf
  | lazily {left : Nat} {n : String} (hc : types.schema.isComposite n = true) :
      Stands memo left n (types.lazily n)
  | strictly {left : Nat} {n : String} {body : TypeBody} {part : String → Validator}
      (hb : types.schema.body? n = some body) (hc : body.isComposite = true)
      (hk : memo.find? (types.key n left) = some (types.node n body part))
      (hp : ∀ m ∈ types.parts n body, Stands memo left m (part m)) :
      Stands memo (left + 1) n (types.node n body part)

/-- Everything that is kept for output types is made of standing parts. -/
def Sound (memo : Memo) : Prop :=
  ∀ n left v, memo.find? (types.key n left) = some v →
    ∃ body part, types.schema.body? n = some body ∧ body.isComposite = true ∧
      v = types.node n body part ∧ ∀ m ∈ types.parts n body, types.Stands memo left m (part m)

variable {types}

theorem Stands.mono {memo larger : Memo} {left : Nat} {n : String} {v : Validator}
    (h : types.Stands memo left n v) (hle : memo ≤ larger) : types.Stands larger left n v := by
  induction h with
  | leaf hc => exact .leaf hc
  | lazily hc => exact .lazily hc
  | strictly hb hc hk _ ih => exact .strictly hb hc (Memo.find?_of_le hle hk) ih

/-- What is kept in a sound memo stands in it. -/
theorem Sound.stands {memo : Memo} (h : types.Sound memo) {n : String} {left : Nat} {v : Validator}
    (hk : memo.find? (types.key n left) = some v) : types.Stands memo (left + 1) n v := by
  obtain ⟨body, part, hb, hc, rfl, hp⟩ := h n left v hk
  exact .strictly hb hc hk hp

theorem sound_empty : types.Sound {} := by
  intro n left v hk
  simp [Memo.find?] at hk

/-- Keeping what is made of standing parts keeps a memo sound. -/
theorem Sound.keep {memo : Memo} (h : types.Sound memo) {n : String} {left : Nat} {body : TypeBody}
    {part : String → Validator} (hb : types.schema.body? n = some body)
    (hc : body.isComposite = true)
    (hp : ∀ m ∈ types.parts n body, types.Stands memo left m (part m)) :
    types.Sound (memo.keep (types.key n left) (types.node n body part)) := by
  have hle := Memo.le_keep memo (types.key n left) (types.node n body part)
  intro m l v hk
  rcases Memo.find?_keep_cases hk with hk | ⟨he, rfl⟩
  · obtain ⟨body', part', hb', hc', rfl, hp'⟩ := h m l v hk
    exact ⟨body', part', hb', hc', rfl, fun x hx => (hp' x hx).mono hle⟩
  · obtain ⟨rfl, rfl⟩ := types.key_inj.1 he
    exact ⟨body, part, hb, hc, rfl, fun x hx => (hp x hx).mono hle⟩

/-- A larger memo is as sound as long as it keeps the same for output types. -/
theorem Sound.of_le {memo larger : Memo} (h : types.Sound memo) (hle : memo ≤ larger)
    (he : ∀ n left, larger.find? (types.key n left) = memo.find? (types.key n left)) :
    types.Sound larger := by
  intro n left v hk
  obtain ⟨body, part, hb, hc, rfl, hp⟩ := h n left v ((he _ _).symm.trans hk)
  exact ⟨body, part, hb, hc, rfl, fun x hx => (hp x hx).mono hle⟩

/-- A memo is as sound as another one that keeps the same. -/
theorem Sound.congr {memo other : Memo} (h : types.Sound memo)
    (he : ∀ k, other.find? k = memo.find? k) : types.Sound other :=
  h.of_le (fun k _ hv => (he k).trans hv) fun _ _ => he _

/-- Visits keep a memo sound, and their results stand in it. -/
theorem sound_of_yields {left : Nat} {visited : List String} {n : String} {s t : Compilation}
    {v : Validator} (h : (types.ofNamed left visited n).Yields s v t) (hs : types.Sound s.memo) :
    types.Sound t.memo ∧ types.Stands t.memo left n v := by
  induction left generalizing visited n s v t with
  | zero =>
    cases types.yields_ofNamed_iff.1 h with
    | leaf hc => exact ⟨hs, .leaf hc⟩
    | deep hc => exact ⟨hs, .lazily hc⟩
  | succ left ih =>
    cases types.yields_ofNamed_iff.1 h with
    | leaf hc => exact ⟨hs, .leaf hc⟩
    | inside hc => exact ⟨hs, .lazily hc⟩
    | kept _ _ hk => exact ⟨hs, hs.stands hk⟩
    | made hb hc _ hk hvs =>
      obtain ⟨part, he, rfl⟩ := types.exists_node hvs
      obtain ⟨hu, hp⟩ := hvs.preserves_and (P := fun u => types.Sound u.memo)
        (Q := fun memo m v => types.Stands memo left m v)
        (fun _ _ _ _ h => types.memo_le_of_yields h) (fun _ _ _ _ hle h => h.mono hle)
        (fun _ _ _ _ h hs => ih h hs) (hs.congr (types.find?_noted _ _ s))
      rw [he]
      have hsound := hu.keep hb hc hp
      exact ⟨hsound, hsound.stands (types.find?_keep_of_thread hk hvs _)⟩

/-- The parts that a strict validator is made of. -/
theorem part_eq_of_node_eq {n : String} {body : TypeBody} {part part' : String → Validator}
    (h : types.node n body part = types.node n body part') {m : String}
    (hm : m ∈ types.parts n body) : part m = part' m := by
  simp only [node, Validator.strictSelection.injEq, true_and] at h
  obtain ⟨hfields, hnarrowings⟩ := h
  rcases List.mem_append.1 hm with hm | hm
  · obtain ⟨f, hf, rfl⟩ := List.mem_map.1 hm
    exact (Prod.mk.inj (List.map_inj_left.1 hfields f hf)).2
  · have hl := congrArg (List.lookup m) hnarrowings
    rw [Entries.lookup_ofList_map, Entries.lookup_ofList_map, if_pos hm, if_pos hm] at hl
    exact Option.some.inj hl

theorem node_congr {n : String} {body : TypeBody} {part part' : String → Validator}
    (h : ∀ m ∈ types.parts n body, part m = part' m) :
    types.node n body part = types.node n body part' := by
  have hfields : (types.knownFields body).map (fun f => (f.name, part f.type.name)) =
      (types.knownFields body).map fun f => (f.name, part' f.type.name) :=
    List.map_congr_left fun f hf => by
      rw [h _ (List.mem_append_left _ (List.mem_map_of_mem hf))]
  have hnarrowings : (types.knownNarrowings n).map (fun m => (m, part m)) =
      (types.knownNarrowings n).map fun m => (m, part' m) :=
    List.map_congr_left fun m hm => by rw [h m (List.mem_append_right _ hm)]
  rw [node, node, hfields, hnarrowings]

/-- A standing strict validator is kept, and so are its parts. -/
theorem stands_node_iff {memo : Memo} {left : Nat} {n : String} {body : TypeBody}
    {part : String → Validator} (hb : types.schema.body? n = some body)
    (hc : body.isComposite = true) :
    types.Stands memo (left + 1) n (types.node n body part) ↔
      memo.find? (types.key n left) = some (types.node n body part) ∧
        ∀ m ∈ types.parts n body, types.Stands memo left m (part m) := by
  constructor
  · intro h
    generalize hx : types.node n body part = x at h
    cases h with
    | leaf => simp [node] at hx
    | lazily => simp [node, OutputTypes.lazily] at hx
    | strictly hb' _ hk hp =>
      cases hb.symm.trans hb'
      refine ⟨hk, fun m hm => ?_⟩
      rw [part_eq_of_node_eq hx hm]
      exact hp m hm
  · rintro ⟨hk, hp⟩
    exact .strictly hb hc hk hp

/-- A type that is visited with levels left, and outside all others, has a leaf or a strict
validator. -/
theorem leaf_or_node_of_yields {left : Nat} {n : String} {s t : Compilation} {v : Validator}
    (h : (types.ofNamed (left + 1) [] n).Yields s v t) (hs : types.Sound s.memo) :
    (types.schema.isComposite n = false ∧ v = .leaf) ∨
      ∃ body part, types.schema.body? n = some body ∧ body.isComposite = true ∧
        v = types.node n body part ∧
          ∀ m ∈ types.parts n body, types.Stands t.memo left m (part m) := by
  obtain ⟨-, hstands⟩ := sound_of_yields h hs
  cases types.yields_ofNamed_iff.1 h with
  | leaf hc => exact .inl ⟨hc, rfl⟩
  | inside _ hv => cases hv
  | kept _ _ hk =>
    obtain ⟨body, part, hb, hc, rfl, hp⟩ := hs n left v hk
    exact .inr ⟨body, part, hb, hc, rfl, hp⟩
  | made hb hc _ _ hvs =>
    obtain ⟨part, he, rfl⟩ := types.exists_node hvs
    rw [he] at hstands ⊢
    exact .inr ⟨_, part, hb, hc, rfl, ((stands_node_iff hb hc).1 hstands).2⟩

/-- Whatever a visit keeps is kept in every memo in which its result stands. -/
theorem kept_of_stands {left : Nat} {visited : List String} {n : String} {s t : Compilation}
    {v : Validator} {memo : Memo} (h : (types.ofNamed left visited n).Yields s v t)
    (hv : types.Stands memo left n v) {k : Memo.Key} {w : Validator}
    (hk : t.memo.find? k = some w) : s.memo.find? k = some w ∨ memo.find? k = some w := by
  induction left generalizing visited n s v t k w with
  | zero => cases types.yields_ofNamed_iff.1 h <;> exact .inl hk
  | succ left ih =>
    cases types.yields_ofNamed_iff.1 h with
    | leaf | inside | kept => exact .inl hk
    | made hb hc _ _ hvs =>
      obtain ⟨part, he, rfl⟩ := types.exists_node hvs
      rw [he] at hv hk
      obtain ⟨hkept, hp⟩ := (stands_node_iff hb hc).1 hv
      rcases Memo.find?_keep_cases hk with hk | ⟨rfl, rfl⟩
      · have hall := hvs.preserves_map
          (P := fun u => ∀ k w, u.memo.find? k = some w →
            s.memo.find? k = some w ∨ memo.find? k = some w)
          (fun m hm _ _ h hs k w hk => (ih h (hp m hm) hk).elim (hs k w) .inr)
          (fun k w hk => .inl ((types.find?_noted ..).symm.trans hk))
        exact hall k w hk
      · exact .inr hkept

/-- A visit with a memo that was filled before has the result that it has with an empty one, as long
as the filled memo agrees with what is kept in the end. -/
theorem yields_of_agrees {left : Nat} {visited : List String} {n : String} {s t s' : Compilation}
    {v : Validator} {bound : Memo} (h : (types.ofNamed left visited n).Yields s v t)
    (hle : t.memo ≤ bound) (ha : Memo.Ahead bound s.memo s'.memo) (hs : types.Sound s'.memo) :
    ∃ t', (types.ofNamed left visited n).Yields s' v t' ∧ Memo.Ahead bound t.memo t'.memo := by
  -- induction on the levels left; the filled memo stays ahead from part to part
  induction left generalizing visited n s v t s' with
  | zero =>
    cases types.yields_ofNamed_iff.1 h with
    | leaf hc => exact ⟨s', types.yields_ofNamed_iff.2 (.leaf hc), ha⟩
    | deep hc => exact ⟨_, types.yields_ofNamed_iff.2 (.deep hc), ha⟩
  | succ left ih =>
    cases types.yields_ofNamed_iff.1 h with
    | leaf hc => exact ⟨s', types.yields_ofNamed_iff.2 (.leaf hc), ha⟩
    | inside hc hv => exact ⟨s', types.yields_ofNamed_iff.2 (.inside hc hv), ha⟩
    | kept hc hv hk => exact ⟨s', types.yields_ofNamed_iff.2 (.kept hc hv (ha.find? hle hk)), ha⟩
    | @made _ _ _ body _ _ _ hb hc hv hk hvs =>
      have hbound := Memo.find?_of_le hle (types.find?_keep_of_thread hk hvs _)
      cases hk' : s'.memo.find? (types.key n left) with
      | some w =>
        obtain rfl := ha.agrees _ _ _ hk' hbound
        have h' := types.yields_ofNamed_iff.2 (.kept (isComposite_of_body? hb hc) hv hk')
        refine ⟨s', h', fun k x hx => ?_, ha.agrees⟩
        rcases kept_of_stands h (hs.stands hk') hx with hx | hx
        · exact ha.covers k x hx
        · exact ⟨x, hx⟩
      | none =>
        have hnoted := ha.congr (types.find?_noted n body s) (types.find?_noted n body s')
        obtain ⟨u', hvs', ⟨hu, -⟩⟩ := hvs.exists_following
          (I := fun s s' => Memo.Ahead bound s.memo s'.memo ∧ types.Sound s'.memo)
          (fun _ _ _ _ h => types.memo_le_of_yields h) (le_trans (Memo.le_keep _ _ _) hle)
          (fun _ _ _ _ _ h hle hi => by
            obtain ⟨t', h', ht⟩ := ih h hle hi.1 hi.2
            exact ⟨t', h', ht, (sound_of_yields h' hi.2).1⟩)
          ⟨hnoted, hs.congr (types.find?_noted n _ s')⟩
        exact ⟨_, types.yields_ofNamed_iff.2 (.made hb hc hv hk' hvs'), hu.keep hbound⟩

end OperationTools.OutputTypes
