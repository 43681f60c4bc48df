import OperationTools.Compilation.InputTypes
import OperationTools.Proofs.Compilation.Thread

/-!
# Visits of input types

A visit of an input type takes what is kept, cuts an input object that is met inside itself, or
compiles the fields of the type one after another and keeps the result. A type that is being
compiled is not kept before it is done, so a visit inside it finds nothing under its name.

## Main definitions

* `InputTypes.node`: the validator of an input object, from the validators of its fields
* `InputTypes.Visit`: what a visit of a named type does
* `InputTypes.Open`: the types that are being compiled are input objects that are not kept

## Main results

* `InputTypes.yields_ofType_succ_iff`: compiling a reference is a visit of its named type
* `InputTypes.memo_le_of_yields`: a visit leaves a larger memo
* `InputTypes.eq_of_yields_again`: a second visit repeats the result of the first one
-/

namespace OperationTools

namespace TypeRef

/-- The validator of a reference whose named type has the given validator. -/
def wrap : TypeRef → Validator → Validator
  | .named _, v => v
  | .nonNull inner, v => inner.wrap v
  | .list item, v => .list (item.wrap v) (!item.isNonNull)

end TypeRef

namespace InputTypes

variable (types : InputTypes)

/-- The fields of an input object that its validator knows. -/
def knownFields (fields : List InputField) : List InputField :=
  fields.take types.settings.maxArgumentFields

/-- The types of the known fields, in their order. -/
def parts (fields : List InputField) : List TypeRef := (types.knownFields fields).map (·.type)

/-- A field with a validator. -/
def member (f : InputField) (v : Validator) : Member Validator :=
  { name := f.name, optional := !f.type.isNonNull, validator := v }

/-- The validator of an input object, from the validators of its fields in their order. -/
def whole (typeName : String) (fields : List InputField) (vs : List Validator) : Validator :=
  .object (some typeName) false (List.zipWith member (types.knownFields fields) vs)

/-- The validator of an input object whose fields have validators that depend on their types. -/
def node (typeName : String) (fields : List InputField) (part : TypeRef → Validator) : Validator :=
  .object (some typeName) false ((types.knownFields fields).map fun f => member f (part f.type))

/-- The state in which the fields of a type are visited: a type with too many fields is noted. -/
def noted (typeName : String) (fields : List InputField) (s : Compilation) : Compilation :=
  ((Compile.noteFields .input typeName fields.length types.settings.maxArgumentFields).run s).2

/-- What a visit of a named type does, if the types of its fields are visited by `inner`. -/
inductive Visit (inner : TypeRef → Compilation → Validator → Compilation → Prop)
    (visited : List String) (n : String) : Compilation → Validator → Compilation → Prop where
  | scalar {s : Compilation} (hb : types.schema.body? n = some .scalar) :
      Visit inner visited n s (types.scalars.validator n) s
  | foreign {s : Compilation} (hb : (types.schema.body? n).all (·.isComposite) = true) :
      Visit inner visited n s .any s
  | keptEnum {s : Compilation} {values : Option (List String)} {v : Validator}
      (hb : types.schema.body? n = some (.enum values)) (hk : s.memo.find? (.enum n) = some v) :
      Visit inner visited n s v s
  | insideEnum {s : Compilation} {values : Option (List String)}
      (hb : types.schema.body? n = some (.enum values)) (hk : s.memo.find? (.enum n) = none)
      (hv : n ∈ visited) : Visit inner visited n s .string s
  | madeEnum {s : Compilation} {values : List String}
      (hb : types.schema.body? n = some (.enum (some values)))
      (hk : s.memo.find? (.enum n) = none) (hv : n ∉ visited) :
      Visit inner visited n s (enumValidator values)
        { s with memo := s.memo.keep (.enum n) (enumValidator values) }
  | kept {s : Compilation} {fields : List InputField} {v : Validator}
      (hb : types.schema.body? n = some (.input fields))
      (hk : s.memo.find? (.input n) = some v) : Visit inner visited n s v s
  | inside {s : Compilation} {fields : List InputField}
      (hb : types.schema.body? n = some (.input fields)) (hk : s.memo.find? (.input n) = none)
      (hv : n ∈ visited) : Visit inner visited n s (.object (some n) true []) s
  | made {s u : Compilation} {fields : List InputField} {vs : List Validator}
      (hb : types.schema.body? n = some (.input fields)) (hk : s.memo.find? (.input n) = none)
      (hv : n ∉ visited) (hp : Thread inner (types.parts fields) (types.noted n fields s) vs u) :
      Visit inner visited n s (types.whole n fields vs)
        { u with memo := u.memo.keep (.input n) (types.whole n fields vs) }

theorem yields_ofRef_iff {named : String → TryCompile Validator} {r : TypeRef}
    {s t : Compilation} {v : Validator} :
    (ofRef named r).Yields s v t ↔ ∃ w, (named r.name).Yields s w t ∧ v = r.wrap w := by
  induction r generalizing v with
  | named n => simp [ofRef, TypeRef.wrap]
  | nonNull inner ih => exact ih
  | list item ih =>
    rw [ofRef, TryCompile.yields_bind]
    constructor
    · rintro ⟨x, u, hi, hp⟩
      obtain ⟨rfl, rfl⟩ := TryCompile.yields_pure.1 hp
      obtain ⟨w, hw, rfl⟩ := ih.1 hi
      exact ⟨w, hw, rfl⟩
    · rintro ⟨w, hw, rfl⟩
      exact ⟨_, t, ih.2 ⟨w, hw, rfl⟩, TryCompile.yields_pure.2 ⟨rfl, rfl⟩⟩

theorem yields_ofEnum_iff {visited : List String} {n : String} {values : Option (List String)}
    {s t : Compilation} {v : Validator} :
    (ofEnum visited n values).Yields s v t ↔
      (s.memo.find? (.enum n) = some v ∧ t = s) ∨
      (s.memo.find? (.enum n) = none ∧ n ∈ visited ∧ v = .string ∧ t = s) ∨
      (s.memo.find? (.enum n) = none ∧ n ∉ visited ∧ ∃ vals, values = some vals ∧
        v = enumValidator vals ∧
          t = { s with memo := s.memo.keep (.enum n) (enumValidator vals) }) := by
  unfold ofEnum
  rw [TryCompile.yields_kept?_bind]
  cases hk : s.memo.find? (.enum n) with
  | some w => simp [TryCompile.yields_pure, eq_comm]
  | none =>
    by_cases hv : n ∈ visited
    · simp [hv, TryCompile.yields_pure]
    · cases values with
      | none => simp [hv, TryCompile.not_yields_throw]
      | some vals => simp [hv, TryCompile.yields_lift, Compile.yields_keep]

theorem yields_ofInput_iff {limit : Nat} {inner : List String → TypeRef → TryCompile Validator}
    {visited : List String} {n : String} {fields : List InputField} {s t : Compilation}
    {v : Validator} :
    (ofInput limit inner visited n fields).Yields s v t ↔
      (s.memo.find? (.input n) = some v ∧ t = s) ∨
      (s.memo.find? (.input n) = none ∧ n ∈ visited ∧ v = .object (some n) true [] ∧ t = s) ∨
      (s.memo.find? (.input n) = none ∧ n ∉ visited ∧ ∃ vs u,
        Thread (fun r => (inner (n :: visited) r).Yields) ((fields.take limit).map (·.type))
          ((Compile.noteFields .input n fields.length limit).run s).2 vs u ∧
        v = .object (some n) false (List.zipWith member (fields.take limit) vs) ∧
        t = { u with memo := u.memo.keep (.input n) v }) := by
  have hmembers : ∀ {s t : Compilation} {ms : List (Member Validator)},
      TryCompile.Yields ((fields.take limit).mapM fun f => do
        let validator ← inner (n :: visited) f.type
        pure { name := f.name, optional := !f.type.isNonNull, validator }) s ms t ↔
        ∃ vs, Thread (fun r => (inner (n :: visited) r).Yields)
          ((fields.take limit).map (·.type)) s vs t ∧
          ms = List.zipWith member (fields.take limit) vs :=
    TryCompile.yields_mapM_adorned (f := fun f : InputField => f.type) (g := member)
  unfold ofInput
  rw [TryCompile.yields_kept?_bind]
  cases hk : s.memo.find? (.input n) with
  | some w => simp [TryCompile.yields_pure, eq_comm]
  | none =>
    by_cases hv : n ∈ visited
    · simp [hv, TryCompile.yields_pure]
    · simp only [List.contains_iff_mem, hv, if_false, false_and, reduceCtorEq, false_or, true_and,
        not_false_eq_true, TryCompile.yields_bind, TryCompile.yields_lift, Compile.yields_keep,
        hmembers]
      constructor
      · rintro ⟨_, s', hs', es, u, ⟨vs, hvs, rfl⟩, rfl, rfl⟩
        obtain rfl : ((Compile.noteFields .input n fields.length limit).run s).2 = s' :=
          congrArg Prod.snd hs'
        exact ⟨vs, u, hvs, rfl, rfl⟩
      · rintro ⟨vs, u, hvs, rfl, rfl⟩
        exact ⟨_, _, rfl, _, u, ⟨vs, hvs, rfl⟩, rfl, rfl⟩

section Inversion

variable {types} {inner : TypeRef → Compilation → Validator → Compilation → Prop}
  {visited : List String} {n : String} {s t : Compilation} {v : Validator}

/-- Visits of scalars. -/
theorem visit_scalar_iff (hb : types.schema.body? n = some .scalar) :
    types.Visit inner visited n s v t ↔ v = types.scalars.validator n ∧ t = s := by
  constructor
  · intro h
    cases h with
    | scalar => exact ⟨rfl, rfl⟩
    | foreign hb' => simp [hb, TypeBody.isComposite] at hb'
    | keptEnum hb' | insideEnum hb' | madeEnum hb' | kept hb' | inside hb' | made hb' =>
      simp [hb] at hb'
  · rintro ⟨rfl, rfl⟩
    exact .scalar hb

/-- Visits of enums. -/
theorem visit_enum_iff {values : Option (List String)}
    (hb : types.schema.body? n = some (.enum values)) :
    types.Visit inner visited n s v t ↔
      (s.memo.find? (.enum n) = some v ∧ t = s) ∨
      (s.memo.find? (.enum n) = none ∧ n ∈ visited ∧ v = .string ∧ t = s) ∨
      (s.memo.find? (.enum n) = none ∧ n ∉ visited ∧ ∃ vals, values = some vals ∧
        v = enumValidator vals ∧
          t = { s with memo := s.memo.keep (.enum n) (enumValidator vals) }) := by
  constructor
  · intro h
    cases h with
    | keptEnum _ hk => exact .inl ⟨hk, rfl⟩
    | insideEnum _ hk hv => exact .inr (.inl ⟨hk, hv, rfl, rfl⟩)
    | madeEnum hb' hk hv =>
      cases hb.symm.trans hb'
      exact .inr (.inr ⟨hk, hv, _, rfl, rfl, rfl⟩)
    | foreign hb' => simp [hb, TypeBody.isComposite] at hb'
    | scalar hb' | kept hb' | inside hb' | made hb' => simp [hb] at hb'
  · rintro (⟨hk, rfl⟩ | ⟨hk, hv, rfl, rfl⟩ | ⟨hk, hv, vals, rfl, rfl, rfl⟩)
    · exact .keptEnum hb hk
    · exact .insideEnum hb hk hv
    · exact .madeEnum hb hk hv

/-- Visits of input objects. -/
theorem visit_input_iff {fields : List InputField}
    (hb : types.schema.body? n = some (.input fields)) :
    types.Visit inner visited n s v t ↔
      (s.memo.find? (.input n) = some v ∧ t = s) ∨
      (s.memo.find? (.input n) = none ∧ n ∈ visited ∧ v = .object (some n) true [] ∧ t = s) ∨
      (s.memo.find? (.input n) = none ∧ n ∉ visited ∧ ∃ vs u,
        Thread inner (types.parts fields) (types.noted n fields s) vs u ∧
        v = types.whole n fields vs ∧ t = { u with memo := u.memo.keep (.input n) v }) := by
  constructor
  · intro h
    cases h with
    | kept _ hk => exact .inl ⟨hk, rfl⟩
    | inside _ hk hv => exact .inr (.inl ⟨hk, hv, rfl, rfl⟩)
    | made hb' hk hv hp =>
      cases hb.symm.trans hb'
      exact .inr (.inr ⟨hk, hv, _, _, hp, rfl, rfl⟩)
    | foreign hb' => simp [hb, TypeBody.isComposite] at hb'
    | scalar hb' | keptEnum hb' | insideEnum hb' | madeEnum hb' => simp [hb] at hb'
  · rintro (⟨hk, rfl⟩ | ⟨hk, hv, rfl, rfl⟩ | ⟨hk, hv, vs, u, hp, rfl, rfl⟩)
    · exact .kept hb hk
    · exact .inside hb hk hv
    · exact .made hb hk hv hp

/-- Visits of what is no input type. -/
theorem visit_foreign_iff (hb : (types.schema.body? n).all (·.isComposite) = true) :
    types.Visit inner visited n s v t ↔ v = .any ∧ t = s := by
  constructor
  · intro h
    cases h with
    | foreign => exact ⟨rfl, rfl⟩
    | scalar hb' | keptEnum hb' | insideEnum hb' | madeEnum hb' | kept hb' | inside hb'
      | made hb' =>
      simp [hb', TypeBody.isComposite] at hb
  · rintro ⟨rfl, rfl⟩
    exact .foreign hb

end Inversion

/-- Compiling a named type is a visit of it. -/
theorem yields_ofNamed_iff {left : Nat} {visited : List String} {n : String} {s t : Compilation}
    {v : Validator} :
    (types.ofNamed (types.ofType left) visited n).Yields s v t ↔
      types.Visit (fun r => (types.ofType left (n :: visited) r).Yields) visited n s v t := by
  unfold ofNamed
  split
  · rename_i hb
    rw [TryCompile.yields_pure, visit_scalar_iff hb]
  · rename_i values hb
    rw [yields_ofEnum_iff, visit_enum_iff hb]
  · rename_i fields hb
    rw [yields_ofInput_iff, visit_input_iff hb]
    rfl
  · rename_i hns hne hni
    rw [TryCompile.yields_pure, visit_foreign_iff]
    cases hb : types.schema.body? n with
    | none => rfl
    | some body =>
      cases body with
      | scalar => exact absurd hb hns
      | enum values => exact absurd hb (hne values)
      | input fields => exact absurd hb (hni fields)
      | object | interface | union => rfl

theorem yields_ofType_zero_iff {visited : List String} {r : TypeRef} {s t : Compilation}
    {v : Validator} : (types.ofType 0 visited r).Yields s v t ↔
      v = .any ∧ t = { s with log := s.log ++ [.argumentDepth (some r)] } := by
  rw [ofType, TryCompile.yields_bind]
  constructor
  · rintro ⟨_, u, hu, h⟩
    obtain ⟨rfl, rfl⟩ := TryCompile.yields_pure.1 h
    exact ⟨rfl, (congrArg Prod.snd hu).symm⟩
  · rintro ⟨rfl, rfl⟩
    exact ⟨(), _, rfl, TryCompile.yields_pure.2 ⟨rfl, rfl⟩⟩

/-- Compiling a reference visits its named type once. -/
theorem yields_ofType_succ_iff {left : Nat} {visited : List String} {r : TypeRef}
    {s t : Compilation} {v : Validator} :
    (types.ofType (left + 1) visited r).Yields s v t ↔ ∃ w,
      types.Visit (fun r' => (types.ofType left (r.name :: visited) r').Yields) visited r.name
        s w t ∧ v = r.wrap w := by
  rw [ofType, yields_ofRef_iff]
  simp only [yields_ofNamed_iff]

/-! ## What a visit does to the memo -/

/-- The note on a type that is cut leaves the validators as they are. -/
@[simp] theorem find?_noted (n : String) (fields : List InputField) (s : Compilation)
    (k : Memo.Key) : (types.noted n fields s).memo.find? k = s.memo.find? k := by
  rw [noted, Compile.run_noteFields]
  split
  · exact Memo.find?_addNote ..
  · rfl

/-- A visit leaves a larger memo. -/
theorem memo_le_of_yields {left : Nat} {visited : List String} {r : TypeRef} {s t : Compilation}
    {v : Validator} (h : (types.ofType left visited r).Yields s v t) : s.memo ≤ t.memo := by
  induction left generalizing visited r s v t with
  | zero =>
    obtain ⟨-, rfl⟩ := types.yields_ofType_zero_iff.1 h
    exact le_rfl
  | succ left ih =>
    obtain ⟨w, hw, -⟩ := types.yields_ofType_succ_iff.1 h
    cases hw with
    | scalar | foreign | keptEnum | insideEnum | kept | inside => exact le_rfl
    | madeEnum => exact Memo.le_keep _ _ _
    | made _ _ _ hp =>
      intro k x hx
      apply Memo.find?_of_le (Memo.le_keep _ _ _)
      apply Memo.find?_of_le (hp.memo_le fun _ _ _ _ h => ih h)
      rwa [find?_noted]

/-- While a type is being compiled nothing is kept under its name. -/
theorem find?_input_of_yields {left : Nat} {visited : List String} {r : TypeRef}
    {s t : Compilation} {v : Validator} (h : (types.ofType left visited r).Yields s v t)
    {m : String} (hm : m ∈ visited) : t.memo.find? (.input m) = s.memo.find? (.input m) := by
  induction left generalizing visited r s v t with
  | zero =>
    obtain ⟨-, rfl⟩ := types.yields_ofType_zero_iff.1 h
    rfl
  | succ left ih =>
    obtain ⟨w, hw, -⟩ := types.yields_ofType_succ_iff.1 h
    cases hw with
    | scalar | foreign | keptEnum | insideEnum | kept | inside => rfl
    | madeEnum => simp [Memo.find?_keep]
    | made _ _ hv hp =>
      have hne : Memo.Key.input m ≠ .input r.name := by
        intro he
        cases he
        exact hv hm
      have hu := hp.preserves (P := fun u => u.memo.find? (.input m) = s.memo.find? (.input m))
        (fun _ _ _ _ h hu => (ih h (List.mem_cons_of_mem _ hm)).trans hu)
        (types.find?_noted ..)
      rw [Memo.find?_keep, if_neg hne, Option.or_none, hu]

/-- The types that are being compiled are input objects, and none of them is kept. -/
def Open (visited : List String) (memo : Memo) : Prop :=
  ∀ m ∈ visited, (∃ fields, types.schema.body? m = some (.input fields)) ∧
    memo.find? (.input m) = none

theorem open_nil (memo : Memo) : types.Open [] memo := by
  intro m hm
  cases hm

variable {types}

theorem Open.not_mem_of_enum {visited : List String} {memo : Memo} (h : types.Open visited memo)
    {n : String} {values : Option (List String)}
    (hb : types.schema.body? n = some (.enum values)) : n ∉ visited := by
  intro hv
  obtain ⟨⟨fields, hf⟩, -⟩ := h n hv
  simp [hb] at hf

theorem Open.of_yields {left : Nat} {visited : List String} {r : TypeRef} {s t : Compilation}
    {v : Validator} (ho : types.Open visited s.memo)
    (h : (types.ofType left visited r).Yields s v t) : types.Open visited t.memo := by
  intro m hm
  obtain ⟨hb, hk⟩ := ho m hm
  exact ⟨hb, (types.find?_input_of_yields h hm).trans hk⟩

/-- The fields of a type are visited with the type itself being compiled as well. -/
theorem Open.noted {visited : List String} {s : Compilation} (ho : types.Open visited s.memo)
    {n : String} {fields : List InputField} (hb : types.schema.body? n = some (.input fields))
    (hk : s.memo.find? (.input n) = none) :
    types.Open (n :: visited) (types.noted n fields s).memo := by
  intro m hm
  rw [find?_noted]
  rcases List.mem_cons.1 hm with rfl | hm
  · exact ⟨⟨fields, hb⟩, hk⟩
  · exact ho m hm

/-- A type is kept after its fields were visited. -/
theorem find?_keep_of_thread {left : Nat} {visited : List String} {n : String}
    {fields : List InputField} {s u : Compilation} {vs : List Validator}
    (hk : s.memo.find? (.input n) = none)
    (hp : Thread (fun r => (types.ofType left (n :: visited) r).Yields) (types.parts fields)
      (types.noted n fields s) vs u) (v : Validator) :
    (u.memo.keep (.input n) v).find? (.input n) = some v := by
  have hu : u.memo.find? (.input n) = none :=
    hp.preserves (P := fun u => u.memo.find? (.input n) = none)
      (fun _ _ _ _ h hu => (types.find?_input_of_yields h List.mem_cons_self).trans hu)
      ((types.find?_noted ..).trans hk)
  exact Memo.find?_keep_of_none hu v

/-- A visit goes one way only. -/
theorem Visit.unique {left : Nat} {visited : List String} {n : String} {s t u : Compilation}
    {v w : Validator}
    (h : types.Visit (fun r => (types.ofType left (n :: visited) r).Yields) visited n s v t)
    (h' : types.Visit (fun r => (types.ofType left (n :: visited) r).Yields) visited n s w u) :
    v = w :=
  ((types.yields_ofNamed_iff.2 h).unique (types.yields_ofNamed_iff.2 h')).1

/-- A second visit repeats the result of the first one: it goes the same way, or finds what was kept
then. -/
theorem eq_of_yields_again {left : Nat} {visited : List String} {r : TypeRef}
    {s t u u' : Compilation} {v v' : Validator} (ho : types.Open visited s.memo)
    (h : (types.ofType left visited r).Yields s v t) (hle : t.memo ≤ u.memo)
    (hu : types.Open visited u.memo) (h' : (types.ofType left visited r).Yields u v' u') :
    v' = v := by
  cases left with
  | zero =>
    obtain ⟨rfl, -⟩ := types.yields_ofType_zero_iff.1 h
    exact (types.yields_ofType_zero_iff.1 h').1
  | succ left =>
    obtain ⟨w, hw, rfl⟩ := types.yields_ofType_succ_iff.1 h
    obtain ⟨w', hw', rfl⟩ := types.yields_ofType_succ_iff.1 h'
    congr 1
    cases hw with
    | scalar hb => exact hw'.unique (.scalar hb)
    | foreign hb => exact hw'.unique (.foreign hb)
    | keptEnum hb hk => exact hw'.unique (.keptEnum hb (Memo.find?_of_le hle hk))
    | insideEnum hb _ hv => exact absurd hv (ho.not_mem_of_enum hb)
    | @madeEnum values hb hk =>
      have hkept := Memo.find?_keep_of_none hk (enumValidator values)
      exact hw'.unique (.keptEnum hb (Memo.find?_of_le hle hkept))
    | kept hb hk => exact hw'.unique (.kept hb (Memo.find?_of_le hle hk))
    | inside hb _ hv => exact hw'.unique (.inside hb (hu _ hv).2 hv)
    | @made _ fields vs hb hk _ hp =>
      have hkept := find?_keep_of_thread hk hp (types.whole r.name fields vs)
      exact hw'.unique (.kept hb (Memo.find?_of_le hle hkept))

/-- The fields of a type are visited one after another, and what is made of them depends on their
types alone, however often a type is visited. -/
theorem exists_node {left : Nat} {visited : List String} {n : String} {fields : List InputField}
    {s u : Compilation} {vs : List Validator} (ho : types.Open visited s.memo)
    (h : Thread (fun r => (types.ofType left visited r).Yields) (types.parts fields) s vs u) :
    ∃ part : TypeRef → Validator, types.whole n fields vs = types.node n fields part ∧
      vs = (types.parts fields).map part := by
  obtain ⟨part, hpart, -⟩ := h.exists_map (P := fun u => types.Open visited u.memo)
    (fun _ _ _ _ h => types.memo_le_of_yields h) (fun _ _ _ _ h ho => ho.of_yields h)
    (fun _ _ _ _ _ _ _ ho h hle hu h' => eq_of_yields_again ho h hle hu h') ho
  refine ⟨part, ?_, hpart⟩
  rw [hpart, whole, node, parts, List.map_map, List.zipWith_map_right, List.zipWith_self]
  rfl

end InputTypes

end OperationTools
