import OperationTools.Proofs.Compilation.Course
import OperationTools.Proofs.Compilation.InputVisit
import OperationTools.Proofs.Compilation.OutputVisit

/-!
# The walks of a compilation

Compiling a type walks the body of the type, unless something is kept under its key or the type is
being compiled already. Inside, the fields of an object, interface or input object and the narrowings
of an interface or union are compiled; an enum has no parts, and its walk is broken off if its values
cannot be told. The keys inside a walk are never its own: output types have fewer levels left there,
and input objects are not compiled inside themselves.

## Main definitions

* `Schema.note?`: what is noted of a body
* `OutputTypes.walks`, `InputTypes.walks`: the bodies that are walked for a type

## Main results

* `OutputTypes.takes_ofNamed`, `InputTypes.takes_ofType`: compiling a type takes the course along
  its walks
* `OutputTypes.key_of_mem_walks`, `InputTypes.key_of_mem_walks`: whose bodies are walked
-/

namespace OperationTools

/-- What is noted of a body that is walked: that the type has too many fields. -/
def Schema.note? (schema : Schema) (settings : Settings) : Memo.Key → Option Truncation
  | .output n _ =>
    match schema.body? n with
    | some body =>
      if settings.maxSelectionFields < body.fields.length then
        some ⟨.output, n, body.fields.length, settings.maxSelectionFields⟩
      else none
    | none => none
  | .input n =>
    match schema.body? n with
    | some (.input fields) =>
      if settings.maxArgumentFields < fields.length then
        some ⟨.input, n, fields.length, settings.maxArgumentFields⟩
      else none
    | _ => none
  | .enum _ => none

/-! ## Output types -/

namespace OutputTypes

variable (types : OutputTypes)

/-- The bodies that are walked to compile a named type, with a number of levels left. The types that
are being compiled are `visited`. -/
def walks : Nat → List String → String → Compilation → List Memo.Key
  | 0, _, _, _ => []
  | left + 1, visited, typeName, s =>
    match (types.schema.body? typeName).filter (·.isComposite) with
    | none => []
    | some body =>
      if typeName ∈ visited ∨ s.memo.contains (types.key typeName left) then []
      else
        types.key typeName left ::
          TryCompile.along (fun name => liftM (types.ofNamed left (typeName :: visited) name))
            (walks left (typeName :: visited)) (types.parts typeName body)
            (types.noted typeName body s)

/-- Walks of output types note what is to be noted of bodies. -/
abbrev Takes {α : Type} (step : TryCompile α) : Compilation → List Memo.Key → Prop :=
  TryCompile.Takes (types.schema.note? types.settings) step

variable {types} in
theorem memo_noted {n : String} {body : TypeBody} (hb : types.schema.body? n = some body)
    (left : Nat) (s : Compilation) : (types.noted n body s).memo =
      s.memo.addNote? (types.schema.note? types.settings (types.key n left)) := by
  rw [noted, Compile.memo_noteFields, key, Schema.note?, hb]

/-- The bodies of composite types are walked, with fewer levels inside than there are left. -/
theorem key_of_mem_walks {left : Nat} {visited : List String} {n : String} {s : Compilation}
    {k : Memo.Key} (h : k ∈ types.walks left visited n s) :
    ∃ m l, k = types.key m l ∧ l < left ∧ types.schema.isComposite m = true := by
  induction left generalizing visited n s with
  | zero => cases h
  | succ left ih =>
    rw [walks] at h
    split at h
    · cases h
    · rename_i body hb
      obtain ⟨hb, hc⟩ := Option.filter_eq_some_iff.1 hb
      split at h
      · cases h
      · rcases List.mem_cons.1 h with rfl | h
        · exact ⟨n, left, rfl, Nat.lt_succ_self left, isComposite_of_body? hb hc⟩
        · obtain ⟨m, -, t, h⟩ := TryCompile.mem_along h
          obtain ⟨m', l, hk, hl, hm⟩ := ih h
          exact ⟨m', l, hk, Nat.lt_succ_of_lt hl, hm⟩

variable {types}

theorem walks_leaf {left : Nat} {visited : List String} {n : String} {s : Compilation}
    (hc : types.schema.isComposite n = false) : types.walks left visited n s = [] := by
  cases left with
  | zero => rfl
  | succ left =>
    have hb : (types.schema.body? n).filter (·.isComposite) = none := by
      rw [Option.filter_eq_none_iff]
      intro body hbody hcomp
      simp [isComposite_of_body? hbody hcomp] at hc
    rw [walks, hb]

/-- Nothing is walked inside the type itself, and where something is kept. -/
theorem walks_eq_nil {left : Nat} {visited : List String} {n : String} {s : Compilation}
    (h : n ∈ visited ∨ s.memo.contains (types.key n left) = true) :
    types.walks (left + 1) visited n s = [] := by
  rw [walks]
  split
  · rfl
  · rw [if_pos h]

/-- Otherwise the body is walked, and inside it the parts are compiled. -/
theorem walks_made {left : Nat} {visited : List String} {n : String} {body : TypeBody}
    {s : Compilation} (hb : types.schema.body? n = some body) (hc : body.isComposite = true)
    (hv : n ∉ visited) (hk : s.memo.find? (types.key n left) = none) :
    types.walks (left + 1) visited n s = types.key n left ::
      TryCompile.along (fun m => liftM (types.ofNamed left (n :: visited) m))
        (types.walks left (n :: visited)) (types.parts n body) (types.noted n body s) := by
  rw [walks, hb, Option.filter_some_pos hc]
  exact if_neg (by simp [hv, Memo.contains, hk])

/-- A visit takes the course along the walks of its type. -/
theorem course_of_yields {left : Nat} {visited : List String} {n : String} {s t : Compilation}
    {v : Validator} (h : (types.ofNamed left visited n).Yields s v t) :
    Memo.Course (types.schema.note? types.settings) s.memo (types.walks left visited n s) true
      t.memo := by
  -- induction on the levels left, since a visit of the parts has one fewer
  induction left generalizing visited n s v t with
  | zero => cases types.yields_ofNamed_iff.1 h <;> exact .idle _
  | succ left ih =>
    cases types.yields_ofNamed_iff.1 h with
    | leaf hc =>
      rw [walks_leaf hc]
      exact .idle _
    | inside _ hv =>
      rw [walks_eq_nil (.inl hv)]
      exact .idle _
    | kept _ _ hk =>
      rw [walks_eq_nil (.inr (by rw [Memo.contains, hk, Option.isSome_some]))]
      exact .idle _
    | @made _ _ _ body _ u _ hb hc hv hk hp =>
      rw [walks_made hb hc hv hk]
      have hcourse : Memo.Course (types.schema.note? types.settings) (types.noted n body s).memo
          (TryCompile.along (fun m => liftM (types.ofNamed left (n :: visited) m))
            (types.walks left (n :: visited)) (types.parts n body) (types.noted n body s))
          true u.memo :=
        TryCompile.course_of_thread (fun m s => TryCompile.takes_lift.2 (ih rfl))
          (hp.mono fun _ _ _ _ _ h => TryCompile.yields_lift.2 h)
      refine .body (memo_noted hb left s) hk (fun hm => ?_) hcourse _
      obtain ⟨m, -, u, hm⟩ := TryCompile.mem_along hm
      obtain ⟨m', l, he, hl, -⟩ := types.key_of_mem_walks hm
      obtain ⟨-, rfl⟩ := types.key_inj.1 he
      exact absurd hl (Nat.lt_irrefl _)

/-- Compiling a type takes the course along its walks. -/
theorem takes_ofNamed (left : Nat) (visited : List String) (n : String) (s : Compilation) :
    types.Takes (liftM (types.ofNamed left visited n)) s (types.walks left visited n s) :=
  TryCompile.takes_lift.2 (course_of_yields rfl)

variable (types) in
/-- The bodies that are walked to compile the selection policy of an operation. -/
def walksOf (op : Operation) (s : Compilation) : List Memo.Key :=
  match op.result with
  | none => []
  | some type => types.walks (types.levelsLeft 0) [] type.name s

variable (types) in
theorem takes_ofOperation (op : Operation) (s : Compilation) :
    types.Takes (liftM (types.ofOperation op)) s (types.walksOf op s) := by
  rw [ofOperation, walksOf]
  cases op.result with
  | none => exact TryCompile.takes_pure _ s
  | some type => exact takes_ofNamed _ [] type.name s

end OutputTypes

/-! ## Input types -/

namespace InputTypes

variable (types : InputTypes)

/-- The bodies that are walked to compile a reference, with a number of levels left. The types that
are being compiled are `visited`. -/
def walks : Nat → List String → TypeRef → Compilation → List Memo.Key
  | 0, _, _, _ => []
  | left + 1, visited, r, s =>
    match types.schema.body? r.name with
    | some (.enum _) =>
      if r.name ∈ visited ∨ s.memo.contains (.enum r.name) then [] else [.enum r.name]
    | some (.input fields) =>
      if r.name ∈ visited ∨ s.memo.contains (.input r.name) then []
      else
        .input r.name ::
          TryCompile.along (fun f => types.ofType left (r.name :: visited) f.type)
            (fun f => walks left (r.name :: visited) f.type) (types.knownFields fields)
            (types.noted r.name fields s)
    | _ => []

/-- Walks of input types note what is to be noted of bodies. -/
abbrev Takes {α : Type} (step : TryCompile α) : Compilation → List Memo.Key → Prop :=
  TryCompile.Takes (types.schema.note? types.settings) step

variable {types} in
theorem memo_noted {n : String} {fields : List InputField}
    (hb : types.schema.body? n = some (.input fields)) (s : Compilation) :
    (types.noted n fields s).memo =
      s.memo.addNote? (types.schema.note? types.settings (.input n)) := by
  rw [noted, Compile.memo_noteFields, Schema.note?, hb]

/-- The bodies of enums and of input objects are walked, of the latter none that is visited. -/
theorem key_of_mem_walks {left : Nat} {visited : List String} {r : TypeRef} {s : Compilation}
    {k : Memo.Key} (h : k ∈ types.walks left visited r s) :
    (∃ m values, k = .enum m ∧ types.schema.body? m = some (.enum values)) ∨
      ∃ m fields, k = .input m ∧ m ∉ visited ∧ types.schema.body? m = some (.input fields) := by
  induction left generalizing visited r s with
  | zero => cases h
  | succ left ih =>
    rw [walks] at h
    split at h
    · rename_i values hb
      split at h
      · cases h
      · exact .inl ⟨r.name, values, List.mem_singleton.1 h, hb⟩
    · rename_i fields hb
      split at h
      · cases h
      · rename_i hv
        rcases List.mem_cons.1 h with rfl | h
        · exact .inr ⟨r.name, fields, rfl, fun hm => hv (.inl hm), hb⟩
        · obtain ⟨f, -, t, h⟩ := TryCompile.mem_along h
          rcases ih h with henum | ⟨m, fields, hk, hm, hb⟩
          · exact .inl henum
          · exact .inr ⟨m, fields, hk, fun hv => hm (List.mem_cons_of_mem _ hv), hb⟩
    · cases h

variable {types}

/-- Lists and non-null marks add nothing to the course of the named type. -/
theorem takes_ofRef {named : String → TryCompile Validator} {r : TypeRef} {s : Compilation}
    {keys : List Memo.Key} (h : types.Takes (named r.name) s keys) :
    types.Takes (ofRef named r) s keys := by
  induction r with
  | named n => exact h
  | nonNull inner ih => exact ih h
  | list item ih => exact (ih h).map fun v => Validator.list v (!item.isNonNull)

/-- Where something is kept, and inside the type itself, nothing is walked. -/
theorem takes_unless {visited : List String} {n : String} {key : Memo.Key} {cut : Validator}
    {made : TryCompile Validator} {keys : List Memo.Key} {s : Compilation}
    (h : s.memo.find? key = none → types.Takes made s keys) :
    types.Takes (do
      match ← Compile.kept? key with
      | some v => pure v
      | none => if visited.contains n then pure cut else made) s
      (if n ∈ visited ∨ s.memo.contains key then [] else keys) := by
  rw [Takes, TryCompile.takes_kept?_bind, Memo.contains]
  cases hk : s.memo.find? key with
  | some v =>
    simp only [Option.isSome_some, or_true, if_true]
    exact TryCompile.takes_pure v s
  | none =>
    by_cases hv : n ∈ visited
    · simp only [hv, true_or, if_true, List.contains_iff_mem]
      exact TryCompile.takes_pure cut s
    · simp only [hv, Option.isSome_none, List.contains_iff_mem, or_self, if_false,
        Bool.false_eq_true]
      exact h hk

/-- The walk of an enum ends at once, or is broken off if its values cannot be told. -/
theorem takes_ofEnum (visited : List String) (n : String) (values : Option (List String))
    (s : Compilation) : types.Takes (ofEnum visited n values) s
      (if n ∈ visited ∨ s.memo.contains (.enum n) then [] else [.enum n]) := by
  refine takes_unless fun hk => ?_
  have hnote : s.memo.addNote? (types.schema.note? types.settings (.enum n)) = s.memo :=
    Memo.addNote?_none s.memo
  cases values with
  | some values => exact .body hnote.symm hk (by simp) (.idle _) (enumValidator values)
  | none => exact .failed hnote.symm

/-- The walk of an input object ends when its fields are compiled. -/
theorem takes_ofInput (visited : List String) {n : String} {fields : List InputField}
    (hb : types.schema.body? n = some (.input fields))
    {inner : List String → TypeRef → TryCompile Validator}
    {walks : TypeRef → Compilation → List Memo.Key}
    (h : ∀ r s, types.Takes (inner (n :: visited) r) s (walks r s))
    (hn : ∀ r s, .input n ∉ walks r s) (s : Compilation) :
    types.Takes (ofInput types.settings.maxArgumentFields inner visited n fields) s
      (if n ∈ visited ∨ s.memo.contains (.input n) then []
      else .input n :: TryCompile.along (fun f : InputField => inner (n :: visited) f.type)
        (fun f => walks f.type) (types.knownFields fields) (types.noted n fields s)) := by
  refine takes_unless fun hk => ?_
  have hfields := TryCompile.takes_mapM (fun (f : InputField) t => h f.type t) member
    (types.knownFields fields) (types.noted n fields s)
  refine hfields.walk (memo_noted hb s) hk (fun hm => ?_) _
  obtain ⟨f, -, t, hm⟩ := TryCompile.mem_along hm
  exact hn f.type t hm

/-- Compiling a reference takes the course along its walks. -/
theorem takes_ofType (left : Nat) (visited : List String) (r : TypeRef) (s : Compilation) :
    types.Takes (types.ofType left visited r) s (types.walks left visited r s) := by
  induction left generalizing visited r s with
  | zero => exact .idle s.memo
  | succ left ih =>
    apply takes_ofRef
    rw [ofNamed, walks]
    cases hb : types.schema.body? r.name with
    | none => exact TryCompile.takes_pure _ s
    | some body =>
      cases body with
      | enum values => exact takes_ofEnum visited r.name values s
      | input fields =>
        refine takes_ofInput visited hb (ih _) (fun r' s hm => ?_) s
        rcases types.key_of_mem_walks hm with ⟨_, _, he, -⟩ | ⟨m, _, he, hv, -⟩
        · cases he
        · cases he
          exact hv List.mem_cons_self
      | scalar | object | interface | union => exact TryCompile.takes_pure _ s

variable (types) in
/-- The bodies that are walked to compile an argument, if it has a type. -/
def walksAt (a : Variable) (s : Compilation) : List Memo.Key :=
  match a.type with
  | none => []
  | some r => types.walks (types.levelsLeft 0) [] r s

variable (types) in
/-- The bodies that are walked to compile the arguments of an operation. -/
def walksOf (op : Operation) (s : Compilation) : List Memo.Key :=
  TryCompile.along types.ofVariable types.walksAt op.arguments s

theorem takes_ofVariable (a : Variable) (s : Compilation) :
    types.Takes (types.ofVariable a) s (types.walksAt a s) := by
  rw [ofVariable, walksAt]
  cases a.type with
  | some r => exact takes_ofType _ [] r s
  | none =>
    rw [ofType?]
    split <;> exact .idle s.memo

variable (types) in
theorem takes_ofOperation (op : Operation) (s : Compilation) :
    types.Takes (types.ofOperation op) s (types.walksOf op s) :=
  (TryCompile.takes_mapM takes_ofVariable _ op.arguments s).map _

/-- The bodies of enums and input objects are walked. -/
theorem key_of_mem_walksOf {op : Operation} {s : Compilation} {k : Memo.Key}
    (h : k ∈ types.walksOf op s) :
    (∃ m values, k = .enum m ∧ types.schema.body? m = some (.enum values)) ∨
      ∃ m fields, k = .input m ∧ types.schema.body? m = some (.input fields) := by
  obtain ⟨a, -, t, h⟩ := TryCompile.mem_along h
  rw [walksAt] at h
  split at h
  · cases h
  · exact (types.key_of_mem_walks h).imp id fun ⟨m, fields, hk, _, hb⟩ => ⟨m, fields, hk, hb⟩

end InputTypes

end OperationTools
