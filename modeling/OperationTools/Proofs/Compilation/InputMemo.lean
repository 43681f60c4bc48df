import OperationTools.Proofs.Compilation.InputVisit

/-!
# Memos of input types

What is kept for an input object is made of validators that stand in the memo: every input object
and enum inside them is kept, too, unless it is cut. So a validator that stands in a memo determines
what is kept there for the types inside it, and compiling a type with a filled memo has the same
result as with an empty one as long as the memos agree.

## Main definitions

* `InputTypes.Stands`: a validator of a reference, everything whole inside it is kept
* `InputTypes.Sound`: everything that is kept is made of standing parts

## Main results

* `InputTypes.sound_of_yields`: visits keep a memo sound, and their results stand
* `InputTypes.kept_of_stands`: a memo in which the result of a visit stands has all that it keeps
* `InputTypes.yields_of_agrees`: visits from agreeing memos have the same result
-/

namespace OperationTools.InputTypes

variable (types : InputTypes)

/-- A validator of a reference. It may be cut anywhere; whatever is not cut is kept in the memo
under its own name. -/
inductive Stands (memo : Memo) : TypeRef → Validator → Prop where
  | cut (r : TypeRef) : Stands memo r .any
  | list {item : TypeRef} {v : Validator} (hi : Stands memo item v) :
      Stands memo (.list item) (.list v (!item.isNonNull))
  | nonNull {inner : TypeRef} {v : Validator} (hi : Stands memo inner v) :
      Stands memo (.nonNull inner) v
  | scalar {n : String} (hb : types.schema.body? n = some .scalar) :
      Stands memo (.named n) (types.scalars.validator n)
  | enum {n : String} {values : List String}
      (hb : types.schema.body? n = some (.enum (some values)))
      (hk : memo.find? (.enum n) = some (enumValidator values)) :
      Stands memo (.named n) (enumValidator values)
  | inside {n : String} {fields : List InputField}
      (hb : types.schema.body? n = some (.input fields)) :
      Stands memo (.named n) (.object (some n) true [])
  | whole {n : String} {fields : List InputField} {part : TypeRef → Validator}
      (hb : types.schema.body? n = some (.input fields))
      (hk : memo.find? (.input n) = some (types.node n fields part))
      (hp : ∀ r ∈ types.parts fields, Stands memo r (part r)) :
      Stands memo (.named n) (types.node n fields part)

/-- Everything that is kept for input types is made of standing parts. -/
structure Sound (memo : Memo) : Prop where
  enums : ∀ n v, memo.find? (.enum n) = some v →
    ∃ values, types.schema.body? n = some (.enum (some values)) ∧ v = enumValidator values
  inputs : ∀ n v, memo.find? (.input n) = some v →
    ∃ fields part, types.schema.body? n = some (.input fields) ∧ v = types.node n fields part ∧
      ∀ r ∈ types.parts fields, types.Stands memo r (part r)

variable {types}

/-! ## Standing validators -/

theorem Stands.mono {memo larger : Memo} {r : TypeRef} {v : Validator}
    (h : types.Stands memo r v) (hle : memo ≤ larger) : types.Stands larger r v := by
  induction h with
  | cut r => exact .cut r
  | list _ ih => exact .list ih
  | nonNull _ ih => exact .nonNull ih
  | scalar hb => exact .scalar hb
  | enum hb hk => exact .enum hb (Memo.find?_of_le hle hk)
  | inside hb => exact .inside hb
  | whole hb hk _ ih => exact .whole hb (Memo.find?_of_le hle hk) ih

theorem Stands.wrap {memo : Memo} {r : TypeRef} {v : Validator}
    (h : types.Stands memo (.named r.name) v) : types.Stands memo r (r.wrap v) := by
  induction r with
  | named n => exact h
  | nonNull inner ih => exact .nonNull (ih h)
  | list item ih => exact .list (ih h)

theorem wrap_ne_any {v : Validator} (h : v ≠ .any) (r : TypeRef) : r.wrap v ≠ .any := by
  induction r with
  | named n => exact h
  | nonNull inner ih => exact ih
  | list item ih => simp [TypeRef.wrap]

/-- What is not cut stands for the named type of the reference. -/
theorem Stands.of_wrap {memo : Memo} {r : TypeRef} {v : Validator}
    (h : types.Stands memo r (r.wrap v)) (hv : v ≠ .any) :
    types.Stands memo (.named r.name) v := by
  induction r with
  | named n => exact h
  | nonNull inner ih =>
    generalize hw : (TypeRef.nonNull inner).wrap v = w at h
    cases h with
    | cut => exact absurd hw (wrap_ne_any hv _)
    | nonNull hi =>
      rw [← hw] at hi
      exact ih hi
  | list item ih =>
    generalize hw : (TypeRef.list item).wrap v = w at h
    cases h with
    | cut => exact absurd hw (wrap_ne_any hv _)
    | list hi =>
      rw [TypeRef.wrap, Validator.list.injEq] at hw
      rw [← hw.1] at hi
      exact ih hi

theorem enumValidator_ne_any (values : List String) : enumValidator values ≠ .any := by
  unfold enumValidator
  split <;> simp

theorem node_ne_any (n : String) (fields : List InputField) (part : TypeRef → Validator) :
    types.node n fields part ≠ .any := by
  simp [node]

/-- The parts that the validator of an input object is made of. -/
theorem part_eq_of_node_eq {n : String} {fields : List InputField}
    {part part' : TypeRef → Validator}
    (h : types.node n fields part = types.node n fields part') {r : TypeRef}
    (hr : r ∈ types.parts fields) : part r = part' r := by
  simp only [node, Validator.object.injEq, true_and] at h
  obtain ⟨f, hf, rfl⟩ := List.mem_map.1 hr
  exact congrArg Member.validator (List.map_inj_left.1 h f hf)

theorem node_congr {n : String} {fields : List InputField} {part part' : TypeRef → Validator}
    (h : ∀ r ∈ types.parts fields, part r = part' r) :
    types.node n fields part = types.node n fields part' := by
  rw [node, node]
  congr 1
  exact List.map_congr_left fun f hf => by rw [h _ (List.mem_map_of_mem hf)]

/-- A standing validator of an enum is kept. -/
theorem Stands.find?_enum {memo : Memo} {n : String} {values : List String}
    (hb : types.schema.body? n = some (.enum (some values)))
    (h : types.Stands memo (.named n) (enumValidator values)) :
    memo.find? (.enum n) = some (enumValidator values) := by
  generalize hv : enumValidator values = v at h
  cases h with
  | cut => exact absurd hv (enumValidator_ne_any values)
  | enum _ hk => exact hk
  | scalar hb' | inside hb' | whole hb' => simp [hb] at hb'

/-- A standing validator of an input object is kept, and its parts stand, too. -/
theorem stands_node_iff {memo : Memo} {n : String} {fields : List InputField}
    {part : TypeRef → Validator} (hb : types.schema.body? n = some (.input fields)) :
    types.Stands memo (.named n) (types.node n fields part) ↔
      memo.find? (.input n) = some (types.node n fields part) ∧
        ∀ r ∈ types.parts fields, types.Stands memo r (part r) := by
  constructor
  · intro h
    generalize hv : types.node n fields part = v at h
    cases h with
    | cut => exact absurd hv (node_ne_any n fields part)
    | scalar hb' | enum hb' => simp [hb] at hb'
    | inside => simp [node] at hv
    | whole hb' hk hp =>
      cases hb.symm.trans hb'
      refine ⟨hk, fun r hr => ?_⟩
      rw [part_eq_of_node_eq hv hr]
      exact hp r hr
  · rintro ⟨hk, hp⟩
    exact .whole hb hk hp

/-! ## Sound memos -/

theorem sound_empty : types.Sound {} where
  enums n v hk := by simp [Memo.find?] at hk
  inputs n v hk := by simp [Memo.find?] at hk

/-- A larger memo is as sound as long as it keeps the same for input types. -/
theorem Sound.of_le {memo larger : Memo} (h : types.Sound memo) (hle : memo ≤ larger)
    (he : ∀ n, larger.find? (.enum n) = memo.find? (.enum n))
    (hi : ∀ n, larger.find? (.input n) = memo.find? (.input n)) : types.Sound larger where
  enums n v hk := h.enums n v ((he n).symm.trans hk)
  inputs n v hk := by
    obtain ⟨fields, part, hb, rfl, hp⟩ := h.inputs n v ((hi n).symm.trans hk)
    exact ⟨fields, part, hb, rfl, fun r hr => (hp r hr).mono hle⟩

/-- A memo is as sound as another one that keeps the same. -/
theorem Sound.congr {memo other : Memo} (h : types.Sound memo)
    (he : ∀ k, other.find? k = memo.find? k) : types.Sound other :=
  h.of_le (fun k _ hx => (he k).trans hx) (fun _ => he _) fun _ => he _

theorem Sound.keep_enum {memo : Memo} (h : types.Sound memo) {n : String} {values : List String}
    (hb : types.schema.body? n = some (.enum (some values))) :
    types.Sound (memo.keep (.enum n) (enumValidator values)) where
  enums m v hk := by
    rcases Memo.find?_keep_cases hk with hk | ⟨he, rfl⟩
    · exact h.enums m v hk
    · cases he
      exact ⟨values, hb, rfl⟩
  inputs m v hk := by
    rcases Memo.find?_keep_cases hk with hk | ⟨he, -⟩
    · obtain ⟨fields, part, hb', rfl, hp⟩ := h.inputs m v hk
      exact ⟨fields, part, hb', rfl, fun r hr => (hp r hr).mono (Memo.le_keep _ _ _)⟩
    · cases he

/-- Keeping what is made of standing parts keeps a memo sound. -/
theorem Sound.keep_input {memo : Memo} (h : types.Sound memo) {n : String}
    {fields : List InputField} {part : TypeRef → Validator}
    (hb : types.schema.body? n = some (.input fields))
    (hp : ∀ r ∈ types.parts fields, types.Stands memo r (part r)) :
    types.Sound (memo.keep (.input n) (types.node n fields part)) where
  enums m v hk := by
    rcases Memo.find?_keep_cases hk with hk | ⟨he, -⟩
    · exact h.enums m v hk
    · cases he
  inputs m v hk := by
    have hle := Memo.le_keep memo (.input n) (types.node n fields part)
    rcases Memo.find?_keep_cases hk with hk | ⟨he, rfl⟩
    · obtain ⟨fields', part', hb', rfl, hp'⟩ := h.inputs m v hk
      exact ⟨fields', part', hb', rfl, fun r hr => (hp' r hr).mono hle⟩
    · cases he
      exact ⟨fields, part, hb, rfl, fun r hr => (hp r hr).mono hle⟩

/-- Visits keep a memo sound, and their results stand in it. -/
theorem sound_of_yields {left : Nat} {visited : List String} {r : TypeRef} {s t : Compilation}
    {v : Validator} (ho : types.Open visited s.memo)
    (h : (types.ofType left visited r).Yields s v t) (hs : types.Sound s.memo) :
    types.Sound t.memo ∧ types.Stands t.memo r v := by
  -- induction on the levels left, since a visit of the fields has one fewer
  induction left generalizing visited r s v t with
  | zero =>
    obtain ⟨rfl, rfl⟩ := types.yields_ofType_zero_iff.1 h
    exact ⟨hs, .cut r⟩
  | succ left ih =>
    obtain ⟨w, hw, rfl⟩ := types.yields_ofType_succ_iff.1 h
    suffices types.Sound t.memo ∧ types.Stands t.memo (.named r.name) w from
      ⟨this.1, this.2.wrap⟩
    cases hw with
    | scalar hb => exact ⟨hs, .scalar hb⟩
    | foreign => exact ⟨hs, .cut _⟩
    | keptEnum hb hk =>
      obtain ⟨values, hb', rfl⟩ := hs.enums _ _ hk
      exact ⟨hs, .enum hb' hk⟩
    | insideEnum hb _ hv => exact absurd hv (ho.not_mem_of_enum hb)
    | @madeEnum values hb hk =>
      exact ⟨hs.keep_enum hb, .enum hb (Memo.find?_keep_of_none hk _)⟩
    | kept hb hk =>
      obtain ⟨fields, part, hb', rfl, hp⟩ := hs.inputs _ _ hk
      exact ⟨hs, .whole hb' hk hp⟩
    | inside hb => exact ⟨hs, .inside hb⟩
    | @made _ fields _ hb hk _ hvs =>
      have ho' := ho.noted hb hk
      obtain ⟨part, he, rfl⟩ := exists_node ho' hvs
      obtain ⟨⟨hu, -⟩, hp⟩ := hvs.preserves_and
        (P := fun u => types.Sound u.memo ∧ types.Open (r.name :: visited) u.memo)
        (Q := fun memo r v => types.Stands memo r v)
        (fun _ _ _ _ h => types.memo_le_of_yields h) (fun _ _ _ _ hle h => h.mono hle)
        (fun _ _ _ _ h hs =>
          ⟨⟨(ih hs.2 h hs.1).1, hs.2.of_yields h⟩, (ih hs.2 h hs.1).2⟩)
        ⟨hs.congr (types.find?_noted _ _ s), ho'⟩
      rw [he]
      have hsound := hu.keep_input hb hp
      have hkept := find?_keep_of_thread hk hvs (types.node r.name fields part)
      exact ⟨hsound, .whole hb hkept fun r hr => (hp r hr).mono (Memo.le_keep _ _ _)⟩

/-- Whatever a visit keeps is kept in every memo in which its result stands. -/
theorem kept_of_stands {left : Nat} {visited : List String} {r : TypeRef} {s t : Compilation}
    {v : Validator} {memo : Memo} (ho : types.Open visited s.memo)
    (h : (types.ofType left visited r).Yields s v t) (hv : types.Stands memo r v) {k : Memo.Key}
    {x : Validator} (hk : t.memo.find? k = some x) :
    s.memo.find? k = some x ∨ memo.find? k = some x := by
  induction left generalizing visited r s v t k x with
  | zero =>
    obtain ⟨-, rfl⟩ := types.yields_ofType_zero_iff.1 h
    exact .inl hk
  | succ left ih =>
    obtain ⟨w, hw, rfl⟩ := types.yields_ofType_succ_iff.1 h
    cases hw with
    | scalar | foreign | keptEnum | insideEnum | kept | inside => exact .inl hk
    | @madeEnum values hb =>
      rcases Memo.find?_keep_cases hk with hk | ⟨rfl, rfl⟩
      · exact .inl hk
      · exact .inr ((hv.of_wrap (enumValidator_ne_any values)).find?_enum hb)
    | @made _ fields _ hb hn _ hvs =>
      have ho' := ho.noted hb hn
      obtain ⟨part, he, rfl⟩ := exists_node ho' hvs
      rw [he] at hv hk
      obtain ⟨hkept, hp⟩ := (stands_node_iff hb).1 (hv.of_wrap (node_ne_any r.name fields part))
      have hall := hvs.preserves_map
        (P := fun u => types.Open (r.name :: visited) u.memo ∧ ∀ k x, u.memo.find? k = some x →
          s.memo.find? k = some x ∨ memo.find? k = some x)
        (fun r hr _ _ h hs => ⟨hs.1.of_yields h, fun k x hk =>
          (ih hs.1 h (hp r hr) hk).elim (hs.2 k x) .inr⟩)
        ⟨ho', fun k x hk => .inl ((types.find?_noted ..).symm.trans hk)⟩
      rcases Memo.find?_keep_cases hk with hk | ⟨rfl, rfl⟩
      · exact hall.2 k x hk
      · exact .inr hkept

/-- A visit with a memo that was filled before has the result that it has with an empty one, as long
as the filled memo agrees with what is kept in the end. -/
theorem yields_of_agrees {left : Nat} {visited : List String} {r : TypeRef} {s t s' : Compilation}
    {v : Validator} {bound : Memo} (ho : types.Open visited s.memo)
    (ho' : types.Open visited s'.memo) (h : (types.ofType left visited r).Yields s v t)
    (hle : t.memo ≤ bound) (ha : Memo.Ahead bound s.memo s'.memo) (hs : types.Sound s'.memo) :
    ∃ t', (types.ofType left visited r).Yields s' v t' ∧ Memo.Ahead bound t.memo t'.memo := by
  -- induction on the levels left; the filled memo stays ahead from field to field
  induction left generalizing visited r s v t s' with
  | zero =>
    obtain ⟨rfl, rfl⟩ := types.yields_ofType_zero_iff.1 h
    exact ⟨_, types.yields_ofType_zero_iff.2 ⟨rfl, rfl⟩, ha⟩
  | succ left ih =>
    obtain ⟨w, hw, rfl⟩ := types.yields_ofType_succ_iff.1 h
    suffices ∃ t', types.Visit (fun r' => (types.ofType left (r.name :: visited) r').Yields) visited
        r.name s' w t' ∧ Memo.Ahead bound t.memo t'.memo by
      obtain ⟨t', hw', ht⟩ := this
      exact ⟨t', types.yields_ofType_succ_iff.2 ⟨w, hw', rfl⟩, ht⟩
    cases hw with
    | scalar hb => exact ⟨s', .scalar hb, ha⟩
    | foreign hb => exact ⟨s', .foreign hb, ha⟩
    | keptEnum hb hk => exact ⟨s', .keptEnum hb (ha.find? hle hk), ha⟩
    | insideEnum hb _ hv => exact absurd hv (ho.not_mem_of_enum hb)
    | @madeEnum values hb hk hv =>
      have hbound := Memo.find?_of_le hle (Memo.find?_keep_of_none hk _)
      cases hk' : s'.memo.find? (.enum r.name) with
      | some w =>
        obtain rfl := ha.agrees _ _ _ hk' hbound
        refine ⟨s', .keptEnum hb hk', fun k x hx => ?_, ha.agrees⟩
        rcases Memo.find?_keep_cases hx with hx | ⟨rfl, rfl⟩
        · exact ha.covers k x hx
        · exact ⟨_, hk'⟩
      | none => exact ⟨_, .madeEnum hb hk' hv, ha.keep hbound⟩
    | kept hb hk => exact ⟨s', .kept hb (ha.find? hle hk), ha⟩
    | inside hb _ hv =>
      exact ⟨s', .inside hb (ho' _ hv).2 hv, ha⟩
    | @made _ fields vs hb hk hv hvs =>
      have hbound := Memo.find?_of_le hle (find?_keep_of_thread hk hvs _)
      cases hk' : s'.memo.find? (.input r.name) with
      | some w =>
        obtain rfl := ha.agrees _ _ _ hk' hbound
        refine ⟨s', .kept hb hk', fun k x hx => ?_, ha.agrees⟩
        have hstands : types.Stands s'.memo (.named r.name) (types.whole r.name fields vs) := by
          obtain ⟨_, _, hb', he, hp⟩ := hs.inputs _ _ hk'
          rw [he] at hk' ⊢
          exact .whole hb' hk' hp
        rcases kept_of_stands ho h hstands.wrap hx with hx | hx
        · exact ha.covers k x hx
        · exact ⟨x, hx⟩
      | none =>
        have hnoted := ha.congr (types.find?_noted r.name fields s)
          (types.find?_noted r.name fields s')
        obtain ⟨u', hvs', hu, -⟩ := hvs.exists_following
          (I := fun s s' => Memo.Ahead bound s.memo s'.memo ∧ types.Sound s'.memo ∧
            types.Open (r.name :: visited) s.memo ∧ types.Open (r.name :: visited) s'.memo)
          (fun _ _ _ _ h => types.memo_le_of_yields h) (le_trans (Memo.le_keep _ _ _) hle)
          (fun _ _ _ _ _ h hle ⟨ha, hs, ho, ho'⟩ => by
            obtain ⟨t', h', ht⟩ := ih ho ho' h hle ha hs
            exact ⟨t', h', ht, (sound_of_yields ho' h' hs).1, ho.of_yields h, ho'.of_yields h'⟩)
          ⟨hnoted, hs.congr (types.find?_noted _ _ s'), ho.noted hb hk, ho'.noted hb hk'⟩
        exact ⟨_, .made hb hk' hv hvs', hu.keep hbound⟩

end OperationTools.InputTypes
