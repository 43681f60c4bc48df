import OperationTools.Compilation.OutputTypes
import OperationTools.Proofs.Compilation.Thread

/-!
# Visits of output types

A visit of a type makes a leaf, a lazy validator, takes what is kept, or compiles the parts of the
type one after another and keeps the result. Nothing else happens, and in particular the parts never
keep anything under the key of the type that they are compiled for.

## Main definitions

* `OutputTypes.key`: what the validator of a type is kept under
* `OutputTypes.node`: the strict validator of a type, from the validators of its parts
* `OutputTypes.Visit`: what a visit does

## Main results

* `OutputTypes.yields_ofNamed_iff`: compiling a type is a visit
* `OutputTypes.memo_le_of_yields`: a visit leaves a larger memo
* `OutputTypes.eq_of_yields_again`: a second visit repeats the result of the first one
-/

namespace OperationTools.OutputTypes

variable (types : OutputTypes)

/-- What the validator of a type is kept under, with a number of levels left inside it. -/
def key (typeName : String) (left : Nat) : Memo.Key :=
  .output typeName (types.settings.maxSchemaDepth - left)

theorem key_inj {n m : String} {l k : Nat} : types.key n l = types.key m k ↔ n = m ∧ l = k := by
  simp only [key, Memo.Key.output.injEq]
  apply and_congr_right
  intro _
  omega

/-- The fields of a type that its strict validator knows. -/
def knownFields (body : TypeBody) : List Field :=
  body.fields.take types.settings.maxSelectionFields

/-- The names under which the strict validator of a type narrows it. -/
def knownNarrowings (typeName : String) : List String :=
  types.schema.narrowings types.implementers typeName

/-- The named types that are compiled for a type, in their order. -/
def parts (typeName : String) (body : TypeBody) : List String :=
  (types.knownFields body).map (·.type.name) ++ types.knownNarrowings typeName

/-- The strict validator of a type, from the validators of its parts in their order. -/
def strict (typeName : String) (body : TypeBody) (vs : List Validator) : Validator :=
  .strictSelection typeName (List.zipWith (fun f v => (f.name, v)) (types.knownFields body) vs)
    (Entries.ofList (List.zipWith Prod.mk (types.knownNarrowings typeName)
      (vs.drop (types.knownFields body).length)))

/-- The validators of the fields stand first, those of the narrowings after them. -/
theorem strict_append {typeName : String} {body : TypeBody} {vs ws : List Validator}
    (h : vs.length = (types.knownFields body).length) :
    types.strict typeName body (vs ++ ws) = .strictSelection typeName
      (List.zipWith (fun f v => (f.name, v)) (types.knownFields body) vs)
      (Entries.ofList (List.zipWith Prod.mk (types.knownNarrowings typeName) ws)) := by
  have hz := @List.zipWith_append _ _ _ (fun (f : Field) (v : Validator) => (f.name, v))
    (types.knownFields body) [] vs ws h.symm
  rw [List.append_nil, List.zipWith_nil_left, List.append_nil] at hz
  rw [strict, hz, ← h, List.drop_left]

/-- The strict validator of a type whose parts have the given validators. -/
def node (typeName : String) (body : TypeBody) (part : String → Validator) : Validator :=
  .strictSelection typeName ((types.knownFields body).map fun f => (f.name, part f.type.name))
    (Entries.ofList ((types.knownNarrowings typeName).map fun name => (name, part name)))

/-- The state in which the parts of a type are visited: a type with too many fields is noted. -/
def noted (typeName : String) (body : TypeBody) (s : Compilation) : Compilation :=
  ((Compile.noteFields .output typeName body.fields.length
    types.settings.maxSelectionFields).run s).2

theorem isComposite_of_body? {schema : Schema} {n : String} {body : TypeBody}
    (hb : schema.body? n = some body) (hc : body.isComposite = true) :
    schema.isComposite n = true := by
  rw [Schema.isComposite, hb, Option.any_some, hc]

/-- What a visit of a type does, if its parts are visited by `inner`. -/
inductive Visit (inner : String → Compilation → Validator → Compilation → Prop) :
    Nat → List String → String → Compilation → Validator → Compilation → Prop where
  | leaf {left : Nat} {visited : List String} {n : String} {s : Compilation}
      (hc : types.schema.isComposite n = false) : Visit inner left visited n s .leaf s
  | deep {visited : List String} {n : String} {s : Compilation}
      (hc : types.schema.isComposite n = true) :
      Visit inner 0 visited n s (types.lazily n) { s with log := s.log ++ [.selectionDepth n] }
  | inside {left : Nat} {visited : List String} {n : String} {s : Compilation}
      (hc : types.schema.isComposite n = true) (hv : n ∈ visited) :
      Visit inner (left + 1) visited n s (types.lazily n) s
  | kept {left : Nat} {visited : List String} {n : String} {s : Compilation} {v : Validator}
      (hc : types.schema.isComposite n = true) (hv : n ∉ visited)
      (hk : s.memo.find? (types.key n left) = some v) : Visit inner (left + 1) visited n s v s
  | made {left : Nat} {visited : List String} {n : String} {body : TypeBody} {s u : Compilation}
      {vs : List Validator} (hb : types.schema.body? n = some body)
      (hc : body.isComposite = true) (hv : n ∉ visited)
      (hk : s.memo.find? (types.key n left) = none)
      (hp : Thread inner (types.parts n body) (types.noted n body s) vs u) :
      Visit inner (left + 1) visited n s (types.strict n body vs)
        { u with memo := u.memo.keep (types.key n left) (types.strict n body vs) }

theorem yields_strictly_iff {inner : String → Compile Validator} {n : String} {body : TypeBody}
    {s u : Compilation} {v : Validator} :
    (types.strictly inner n body).Yields s v u ↔ ∃ vs,
      Thread (fun m => (inner m).Yields) (types.parts n body) (types.noted n body s) vs u ∧
      v = types.strict n body vs := by
  have hfields : ∀ {s t : Compilation} {es : List (String × Validator)},
      Compile.Yields ((body.fields.take types.settings.maxSelectionFields).mapM fun f => do
        pure (f.name, ← inner f.type.name)) s es t ↔ ∃ vs, Thread (fun m => (inner m).Yields)
          ((types.knownFields body).map (·.type.name)) s vs t ∧
          es = List.zipWith (fun f v => (f.name, v)) (types.knownFields body) vs :=
    Compile.yields_mapM_adorned (f := fun f : Field => f.type.name) (g := fun f v => (f.name, v))
  have hfragments : ∀ {s t : Compilation} {es : List (String × Validator)},
      Compile.Yields ((types.schema.narrowings types.implementers n).mapM fun name => do
        pure (name, ← inner name)) s es t ↔ ∃ vs, Thread (fun m => (inner m).Yields)
          (types.knownNarrowings n) s vs t ∧
          es = List.zipWith Prod.mk (types.knownNarrowings n) vs := by
    intro s t es
    have h := @Compile.yields_mapM_adorned _ _ _ _ inner id Prod.mk (types.knownNarrowings n) s t es
    rwa [List.map_id] at h
  simp only [strictly, Compile.yields_bind, hfields, hfragments, Compile.yields_pure]
  constructor
  · rintro ⟨a, s', hs', es, t, ⟨vs, hvs, rfl⟩, fs, u', ⟨ws, hws, rfl⟩, rfl, rfl⟩
    rw [← (show types.noted n body s = s' from congrArg Prod.snd hs')] at hvs
    exact ⟨vs ++ ws, Thread.append_iff.2 ⟨vs, ws, t, rfl, hvs, hws⟩,
      (types.strict_append (by simpa using hvs.length_eq)).symm⟩
  · rintro ⟨vs, h, rfl⟩
    obtain ⟨vs, ws, t, rfl, hvs, hws⟩ := Thread.append_iff.1 h
    exact ⟨_, _, rfl, _, t, ⟨vs, hvs, rfl⟩, _, u, ⟨ws, hws, rfl⟩,
      types.strict_append (by simpa using hvs.length_eq), rfl⟩

section Inversion

variable {types} {inner : String → Compilation → Validator → Compilation → Prop}
  {visited : List String} {n : String} {s t : Compilation} {v : Validator}

/-- Visits of types without parts. -/
theorem visit_leaf_iff {left : Nat} (hc : types.schema.isComposite n = false) :
    types.Visit inner left visited n s v t ↔ v = .leaf ∧ t = s := by
  constructor
  · intro h
    cases h with
    | leaf => exact ⟨rfl, rfl⟩
    | made hb hcomp => simp [isComposite_of_body? hb hcomp] at hc
    | _ hn => simp [hc] at hn
  · rintro ⟨rfl, rfl⟩
    exact .leaf hc

/-- Visits with no levels left. -/
theorem visit_deep_iff (hc : types.schema.isComposite n = true) :
    types.Visit inner 0 visited n s v t ↔
      v = types.lazily n ∧ t = { s with log := s.log ++ [.selectionDepth n] } := by
  constructor
  · intro h
    cases h with
    | leaf hn => simp [hc] at hn
    | deep => exact ⟨rfl, rfl⟩
  · rintro ⟨rfl, rfl⟩
    exact .deep hc

/-- Visits with levels left. -/
theorem visit_composite_iff {left : Nat} {body : TypeBody}
    (hb : types.schema.body? n = some body) (hc : body.isComposite = true) :
    types.Visit inner (left + 1) visited n s v t ↔
      (n ∈ visited ∧ v = types.lazily n ∧ t = s) ∨
      (n ∉ visited ∧ s.memo.find? (types.key n left) = some v ∧ t = s) ∨
      (n ∉ visited ∧ s.memo.find? (types.key n left) = none ∧ ∃ vs u,
        Thread inner (types.parts n body) (types.noted n body s) vs u ∧
        v = types.strict n body vs ∧
        t = { u with memo := u.memo.keep (types.key n left) v }) := by
  have hcomp := isComposite_of_body? hb hc
  constructor
  · intro h
    cases h with
    | leaf hn => simp [hcomp] at hn
    | inside _ hv => exact .inl ⟨hv, rfl, rfl⟩
    | kept _ hv hk => exact .inr (.inl ⟨hv, hk, rfl⟩)
    | made hb' _ hv hk hp =>
      cases hb.symm.trans hb'
      exact .inr (.inr ⟨hv, hk, _, _, hp, rfl, rfl⟩)
  · rintro (⟨hv, rfl, rfl⟩ | ⟨hv, hk, rfl⟩ | ⟨hv, hk, vs, u, hp, rfl, rfl⟩)
    · exact .inside hcomp hv
    · exact .kept hcomp hv hk
    · exact .made hb hc hv hk hp

end Inversion

/-- Compiling a type that is not composite gives a leaf. -/
theorem yields_leaf_iff {left : Nat} {visited : List String} {n : String} {s t : Compilation}
    {v : Validator} (hc : types.schema.isComposite n = false) :
    (types.ofNamed left visited n).Yields s v t ↔ v = .leaf ∧ t = s := by
  have hb : (types.schema.body? n).filter (·.isComposite) = none := by
    rw [Option.filter_eq_none_iff]
    intro body hbody hcomp
    simp [Schema.isComposite, hbody, hcomp] at hc
  rw [ofNamed.eq_def]
  simp only [hb, Compile.yields_pure]

/-- With no level left a composite type is selected lazily, which is noticed. -/
theorem yields_deep_iff {visited : List String} {n : String} {body : TypeBody}
    {s t : Compilation} {v : Validator} (hbody : types.schema.body? n = some body)
    (hc : body.isComposite = true) :
    (types.ofNamed 0 visited n).Yields s v t ↔
      v = types.lazily n ∧ t = { s with log := s.log ++ [.selectionDepth n] } := by
  have hb : (types.schema.body? n).filter (·.isComposite) = some body := by
    rw [hbody, Option.filter_some_pos hc]
  rw [ofNamed.eq_def]
  simp only [hb, Compile.yields_bind, Compile.yields_pure]
  constructor
  · rintro ⟨_, u, hu, rfl, rfl⟩
    exact ⟨rfl, (congrArg Prod.snd hu).symm⟩
  · rintro ⟨rfl, rfl⟩
    exact ⟨(), _, rfl, rfl, rfl⟩

/-- With levels left a composite type is selected lazily inside itself. Outside it is looked up, and
made if nothing is found. -/
theorem yields_composite_iff {left : Nat} {visited : List String} {n : String} {body : TypeBody}
    {s t : Compilation} {v : Validator} (hbody : types.schema.body? n = some body)
    (hc : body.isComposite = true) :
    (types.ofNamed (left + 1) visited n).Yields s v t ↔
      (n ∈ visited ∧ v = types.lazily n ∧ t = s) ∨
      (n ∉ visited ∧ s.memo.find? (types.key n left) = some v ∧ t = s) ∨
      (n ∉ visited ∧ s.memo.find? (types.key n left) = none ∧ ∃ vs u,
        Thread (fun m => (types.ofNamed left (n :: visited) m).Yields) (types.parts n body)
          (types.noted n body s) vs u ∧
        v = types.strict n body vs ∧
        t = { u with memo := u.memo.keep (types.key n left) v }) := by
  have hb : (types.schema.body? n).filter (·.isComposite) = some body := by
    rw [hbody, Option.filter_some_pos hc]
  rw [ofNamed.eq_def]
  simp only [hb]
  by_cases hv : n ∈ visited
  · simp [hv, Compile.yields_pure]
  · rw [if_neg (by simpa using hv), Compile.yields_kept?_bind, key]
    cases s.memo.find? (.output n (types.settings.maxSchemaDepth - left)) with
    | some w => simp [hv, Compile.yields_pure, eq_comm]
    | none =>
      simp only [hv, false_and, reduceCtorEq, and_false, false_or, not_false_eq_true, true_and,
        Compile.yields_bind, types.yields_strictly_iff, Compile.yields_keep]
      constructor
      · rintro ⟨_, u, ⟨vs, hvs, rfl⟩, rfl, rfl⟩
        exact ⟨vs, u, hvs, rfl, rfl⟩
      · rintro ⟨vs, u, hvs, rfl, rfl⟩
        exact ⟨_, u, ⟨vs, hvs, rfl⟩, rfl, rfl⟩

/-- Compiling a type is a visit of it. -/
theorem yields_ofNamed_iff {left : Nat} {visited : List String} {n : String} {s t : Compilation}
    {v : Validator} :
    (types.ofNamed left visited n).Yields s v t ↔
      types.Visit (fun m => (types.ofNamed (left - 1) (n :: visited) m).Yields)
        left visited n s v t := by
  cases hc : types.schema.isComposite n with
  | false => rw [types.yields_leaf_iff hc, visit_leaf_iff hc]
  | true =>
    obtain ⟨body, hb, hbody⟩ := (Option.any_eq_true ..).1 hc
    cases left with
    | zero => rw [types.yields_deep_iff hb hbody, visit_deep_iff hc]
    | succ left => rw [types.yields_composite_iff hb hbody, visit_composite_iff hb hbody,
        Nat.add_sub_cancel]

variable {types} in
/-- A visit goes one way only. -/
theorem Visit.unique {left : Nat} {visited : List String} {n : String} {s t u : Compilation}
    {v w : Validator}
    (h : types.Visit (fun m => (types.ofNamed (left - 1) (n :: visited) m).Yields) left visited
      n s v t)
    (h' : types.Visit (fun m => (types.ofNamed (left - 1) (n :: visited) m).Yields) left visited
      n s w u) : v = w :=
  ((types.yields_ofNamed_iff.2 h).unique (types.yields_ofNamed_iff.2 h')).1

/-! ## What a visit does to the memo -/

/-- The note on a type that is cut leaves the validators as they are. -/
@[simp] theorem find?_noted (n : String) (body : TypeBody) (s : Compilation) (k : Memo.Key) :
    (types.noted n body s).memo.find? k = s.memo.find? k := by
  rw [noted, Compile.run_noteFields]
  split
  · exact Memo.find?_addNote ..
  · rfl

/-- A visit leaves a larger memo. -/
theorem memo_le_of_yields {left : Nat} {visited : List String} {n : String} {s t : Compilation}
    {v : Validator} (h : (types.ofNamed left visited n).Yields s v t) : s.memo ≤ t.memo := by
  induction left generalizing visited n s v t with
  | zero => cases types.yields_ofNamed_iff.1 h <;> exact le_rfl
  | succ left ih =>
    cases types.yields_ofNamed_iff.1 h with
    | leaf | inside | kept => exact le_rfl
    | made _ _ _ _ hp =>
      intro k w hw
      apply Memo.find?_of_le (Memo.le_keep _ _ _)
      apply Memo.find?_of_le (hp.memo_le fun _ _ _ _ h => ih h)
      rwa [find?_noted]

/-- A visit only keeps validators with fewer levels inside than it has. -/
theorem find?_of_yields {left : Nat} {visited : List String} {n : String} {s t : Compilation}
    {v : Validator} (h : (types.ofNamed left visited n).Yields s v t) {k : Memo.Key}
    (hk : ∀ m l, k = types.key m l → left ≤ l) : t.memo.find? k = s.memo.find? k := by
  induction left generalizing visited n s v t with
  | zero => cases types.yields_ofNamed_iff.1 h <;> rfl
  | succ left ih =>
    have hk' : ∀ m l, k = types.key m l → left ≤ l := by
      intro m l he
      have := hk m l he
      omega
    cases types.yields_ofNamed_iff.1 h with
    | leaf | inside | kept => rfl
    | made _ _ _ _ hp =>
      have hne : k ≠ types.key n left := fun he => absurd (hk n left he) (by omega)
      have hs := hp.preserves (P := fun u => u.memo.find? k = s.memo.find? k)
        (fun _ _ _ _ h hu => (ih h hk').trans hu) (types.find?_noted ..)
      rw [Memo.find?_keep, if_neg hne, Option.or_none, hs]

/-- While its parts are visited nothing is kept for a type itself, so its validator is kept
afterwards. -/
theorem find?_keep_of_thread {left : Nat} {visited : List String} {n : String} {body : TypeBody}
    {s u : Compilation} {vs : List Validator} (hk : s.memo.find? (types.key n left) = none)
    (hp : Thread (fun m => (types.ofNamed left visited m).Yields) (types.parts n body)
      (types.noted n body s) vs u) (v : Validator) :
    (u.memo.keep (types.key n left) v).find? (types.key n left) = some v := by
  have hl : ∀ m l, types.key n left = types.key m l → left ≤ l :=
    fun m l he => Nat.le_of_eq (types.key_inj.1 he).2
  have hu : u.memo.find? (types.key n left) = none :=
    hp.preserves (P := fun u => u.memo.find? (types.key n left) = none)
      (fun _ _ _ _ h hu => (types.find?_of_yields h hl).trans hu)
      ((types.find?_noted ..).trans hk)
  exact Memo.find?_keep_of_none hu v

/-- A second visit repeats the result of the first one: it goes the same way, or finds what was kept
then. -/
theorem eq_of_yields_again {left : Nat} {visited : List String} {n : String}
    {s t u u' : Compilation} {v v' : Validator}
    (h : (types.ofNamed left visited n).Yields s v t) (hle : t.memo ≤ u.memo)
    (h' : (types.ofNamed left visited n).Yields u v' u') : v' = v := by
  have hv' := types.yields_ofNamed_iff.1 h'
  cases types.yields_ofNamed_iff.1 h with
  | leaf hc => exact hv'.unique (.leaf hc)
  | deep hc => exact hv'.unique (.deep hc)
  | inside hc hv => exact hv'.unique (.inside hc hv)
  | kept hc hv hk => exact hv'.unique (.kept hc hv (Memo.find?_of_le hle hk))
  | @made _ _ _ body _ _ vs hb hc hv hk hp =>
    have hkept := types.find?_keep_of_thread hk hp (types.strict n body vs)
    exact hv'.unique (.kept (isComposite_of_body? hb hc) hv (Memo.find?_of_le hle hkept))

/-- The parts of a type are visited one after another, and what is made of them depends on each part
alone, however often it is visited. -/
theorem exists_node {left : Nat} {visited : List String} {n : String} {body : TypeBody}
    {s u : Compilation} {vs : List Validator}
    (h : Thread (fun m => (types.ofNamed left visited m).Yields) (types.parts n body) s vs u) :
    ∃ part : String → Validator, types.strict n body vs = types.node n body part ∧
      vs = (types.parts n body).map part := by
  obtain ⟨part, hpart, -⟩ := h.exists_map (P := fun _ => True)
    (fun _ _ _ _ h => types.memo_le_of_yields h) (fun _ _ _ _ _ _ => trivial)
    (fun _ _ _ _ _ _ _ _ h hle _ h' => types.eq_of_yields_again h hle h') trivial
  refine ⟨part, ?_, hpart⟩
  rw [hpart, parts, List.map_append, types.strict_append (by simp), node, List.map_map,
    List.zipWith_map_right, List.zipWith_map_right, List.zipWith_self, List.zipWith_self]
  rfl

end OperationTools.OutputTypes
