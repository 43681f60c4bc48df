import OperationTools.Proofs.Compilation.InputLayer
import OperationTools.Proofs.Validator.Position

/-!
# Truncated input types

The validator of an input object knows the first fields of its type, up to a limit, whether they
have to be given or not. It stands wherever the type is met inside the validator of a reference,
unless it is cut there: then everything is accepted, or every object inside itself, and nothing is
dropped. So a value stays where it is as long as only known fields lead to it.

## Main definitions

* `InputTypes.Inside`: a validator stands for a named type inside the validator of a reference
* `InputTypes.KnowsFirst`, `InputTypes.KnowsInside`: which fields the validator of an input object
  has entries for
* `InputTypes.Kept`: known fields and items lead to a value

## Main results

* `InputTypes.Stands.of_inside`: what is met inside a standing validator stands
* `InputTypes.Stands.knowsInside`, `InputTypes.Outer.knowsFirst`, `InputTypes.Sound.knowsFirst`:
  validators of input objects know the first fields of their types
* `InputTypes.Stands.exists_at?_valueAt`: what known fields lead to is not dropped
-/

namespace OperationTools.InputTypes

variable (types : InputTypes)

/-- A validator stands for a named type inside the validator of a reference. From an input object
the way goes on with the validator under the name of one of its fields. -/
inductive Inside : TypeRef → Validator → String → Validator → Prop where
  | here (n : String) (v : Validator) : Inside (.named n) v n v
  | nonNull {inner : TypeRef} {v w : Validator} {n : String} (h : Inside inner v n w) :
      Inside (.nonNull inner) v n w
  | item {item : TypeRef} {nullItems : Bool} {v w : Validator} {n : String}
      (h : Inside item v n w) : Inside (.list item) (.list v nullItems) n w
  | field {k n : String} {fields : List InputField} {f : InputField} {typeName : Option String}
      {members : List (Member Validator)} {m : Member Validator} {w : Validator}
      (hb : types.schema.body? k = some (.input fields)) (hf : f ∈ fields) (hm : m ∈ members)
      (hname : m.name = f.name) (h : Inside f.type m.validator n w) :
      Inside (.named k) (.object typeName false members) n w

/-- The validator of an input object has entries for the first of its fields, in their order, and
those that are non-null must have a value. -/
def KnowsFirst (n : String) (fields : List InputField) (w : Validator) : Prop :=
  ∃ members, w = .object (some n) false members ∧
    members.map (fun m => (m.name, m.optional)) =
      (fields.take types.settings.maxArgumentFields).map fun f => (f.name, !f.type.isNonNull)

/-- What stands for an input object inside another type: the type may be cut, and then everything is
accepted, or every object inside itself. -/
def KnowsInside (n : String) (fields : List InputField) (w : Validator) : Prop :=
  w = .any ∨ w = .object (some n) true [] ∨ types.KnowsFirst n fields w

/-- Items and known fields lead from a value of a reference to a value inside it. -/
inductive Kept : TypeRef → Json → Path → Json → Prop where
  | here (r : TypeRef) (x : Json) : Kept r x [] x
  | nonNull {inner : TypeRef} {x y : Json} {p : Path} (h : Kept inner x p y) :
      Kept (.nonNull inner) x p y
  | item {item : TypeRef} {items : List Json} {i : Nat} {x y : Json} {p : Path}
      (hx : items[i]? = some x) (h : Kept item x p y) :
      Kept (.list item) (.arr items) (.index i :: p) y
  | field {n : String} {fields : List InputField} {f : InputField}
      {entries : List (String × Json)} {x y : Json} {p : Path}
      (hb : types.schema.body? n = some (.input fields))
      (hf : f ∈ fields.take types.settings.maxArgumentFields)
      (hx : entries.lookup f.name = some x) (h : Kept f.type x p y) :
      Kept (.named n) (.obj entries) (.key f.name :: p) y

variable {types}

/-! ## Entries of input objects -/

/-- Known fields are told apart by their names. -/
theorem eq_of_mem_knownFields (hl : types.schema.Lawful) {n : String} {fields : List InputField}
    (hb : types.schema.body? n = some (.input fields)) {f g : InputField} (hf : f ∈ fields)
    (hg : g ∈ types.knownFields fields) (hname : g.name = f.name) : g = f :=
  List.inj_on_of_nodup_map (hl.body hb).inputFields (List.mem_of_mem_take hg) hf hname

/-- What stands for a named type inside a standing validator stands as well. -/
theorem Stands.of_inside (hl : types.schema.Lawful) {memo : Memo} {r : TypeRef} {v w : Validator}
    {n : String} (hi : types.Inside r v n w) (h : types.Stands memo r v) :
    types.Stands memo (.named n) w := by
  induction hi with
  | here => exact h
  | nonNull _ ih =>
    cases h with
    | cut => exact ih (.cut _)
    | nonNull h => exact ih h
  | item _ ih =>
    cases h with
    | list h => exact ih h
  | @field k n fields f typeName members m w hb hf hm hname _ ih =>
    generalize hv : Validator.object typeName false members = v at h
    cases h with
    | cut | inside => cases hv
    | scalar hb' | enum hb' => simp [hb] at hb'
    | @whole _ _ part hb' _ hp =>
      cases hb.symm.trans hb'
      obtain ⟨-, rfl⟩ : typeName = some k ∧ members =
          (types.knownFields fields).map fun f => member f (part f.type) := by
        simpa [node] using hv
      obtain ⟨g, hg, rfl⟩ := List.mem_map.1 hm
      obtain rfl := eq_of_mem_knownFields hl hb hf hg hname
      exact ih (hp _ (List.mem_map_of_mem hg))

theorem knowsFirst_node (n : String) (fields : List InputField) (part : TypeRef → Validator) :
    types.KnowsFirst n fields (types.node n fields part) := by
  refine ⟨_, rfl, ?_⟩
  rw [List.map_map]
  rfl

/-- What stands for an input object knows its first fields unless it is cut. -/
theorem Stands.knowsInside {memo : Memo} {n : String} {fields : List InputField} {w : Validator}
    (hb : types.schema.body? n = some (.input fields)) (h : types.Stands memo (.named n) w) :
    types.KnowsInside n fields w := by
  cases h with
  | cut => exact .inl rfl
  | inside => exact .inr (.inl rfl)
  | scalar hb' | enum hb' => simp [hb] at hb'
  | whole hb' =>
    cases hb.symm.trans hb'
    exact .inr (.inr (knowsFirst_node ..))

/-- An outermost input object is not cut. -/
theorem Outer.knowsFirst {n : String} {fields : List InputField} {w : Validator}
    (hb : types.schema.body? n = some (.input fields)) (h : types.Outer n w) :
    types.KnowsFirst n fields w := by
  cases h with
  | input hb' =>
    cases hb.symm.trans hb'
    exact knowsFirst_node ..
  | scalar hb' | enum hb' => simp [hb] at hb'
  | foreign hb' => simp [hb, TypeBody.isComposite] at hb'

/-- What is kept for an input object is not cut. -/
theorem Sound.knowsFirst {memo : Memo} (hs : types.Sound memo) {n : String}
    {fields : List InputField} {w : Validator}
    (hb : types.schema.body? n = some (.input fields)) (hk : memo.find? (.input n) = some w) :
    types.KnowsFirst n fields w := by
  obtain ⟨_, part, hb', rfl, -⟩ := hs.inputs n w hk
  cases hb.symm.trans hb'
  exact knowsFirst_node ..

/-! ## Values of known fields -/

/-- Known fields and items lead to the value at the end of their path. -/
theorem Kept.at? {r : TypeRef} {x y : Json} {p : Path} (h : types.Kept r x p y) :
    x.at? p = some y := by
  induction h with
  | here => rfl
  | nonNull _ ih => exact ih
  | item hx _ ih => exact Option.bind_eq_some_iff.2 ⟨_, hx, ih⟩
  | field _ _ hx _ ih => exact Option.bind_eq_some_iff.2 ⟨_, hx, ih⟩

/-- Under the name of a known field stands what is made of its value. -/
theorem at?_value_node (hl : types.schema.Lawful) {n : String} {fields : List InputField}
    (hb : types.schema.body? n = some (.input fields)) {part : TypeRef → Validator}
    {entries : List (String × Json)} (ha : (types.node n fields part).accepts (.obj entries) = true)
    {f : InputField} (hf : f ∈ types.knownFields fields) {x : Json}
    (hx : entries.lookup f.name = some x) (p : Path) :
    ((types.node n fields part).report (.obj entries)).value.at? (.key f.name :: p) =
      ((part f.type).valueAt x).at? p := by
  have hn : (((types.knownFields fields).map fun f => member f (part f.type)).map
      (·.name)).Nodup := by
    rw [List.map_map]
    exact nodup_knownFields hl hb
  exact Validator.at?_value_object hn ha
    (show member f (part f.type) ∈ _ from List.mem_map_of_mem hf) hx p

/-- What known fields lead to is there as well in what is made of a value that is taken, and it is
not `null` if it was not before. -/
theorem Stands.exists_at?_valueAt (hl : types.schema.Lawful) {r : TypeRef} {x y : Json} {p : Path}
    (hk : types.Kept r x p y) {memo : Memo} {v : Validator} (h : types.Stands memo r v)
    {optional : Bool} (ht : v.takesAt optional (some x) = true) :
    ∃ z, (v.valueAt x).at? p = some z ∧ (y ≠ .null → z ≠ .null) := by
  -- induction on the way to the value; past a cut all that follows stays as it is
  induction hk generalizing v optional with
  | here r x =>
    refine ⟨_, rfl, fun hx => ?_⟩
    rw [Validator.valueAt_of_ne hx]
    exact Validator.value_ne_null hx
  | nonNull _ ih =>
    cases h with
    | cut => exact ih (.cut _) ht
    | nonNull h => exact ih h ht
  | @item item items i x y p hx hk ih =>
    have hkept : (Json.arr items).at? (.index i :: p) = some y := Kept.at? (.item hx hk)
    cases h with
    | cut => exact ⟨y, by rwa [Validator.valueAt_any], id⟩
    | list h =>
      obtain ⟨_, he, htakes⟩ := Validator.accepts_list_iff.1 ht
      obtain rfl := Json.arr.inj he
      obtain ⟨z, hz, hne⟩ := ih h (htakes x (List.mem_of_getElem? hx))
      refine ⟨z, ?_, hne⟩
      rw [Validator.valueAt_of_ne (by simp), Validator.at?_value_list hx, hz]
  | @field n fields f entries x y p hb hf hx hk ih =>
    have hkept : (Json.obj entries).at? (.key f.name :: p) = some y := Kept.at? (.field hb hf hx hk)
    cases h with
    | cut => exact ⟨y, by rwa [Validator.valueAt_any], id⟩
    | inside => exact ⟨y, hkept, id⟩
    | scalar hb' | enum hb' => simp [hb] at hb'
    | @whole _ _ part hb' _ hp =>
      cases hb.symm.trans hb'
      obtain ⟨_, he, htakes⟩ := (accepts_node_iff hl hb).1 ht
      obtain rfl := Json.obj.inj he
      obtain ⟨z, hz, hne⟩ := ih (hp _ (List.mem_map_of_mem hf)) (hx ▸ htakes f hf)
      refine ⟨z, ?_, hne⟩
      rw [Validator.valueAt_of_ne (by simp), at?_value_node hl hb ht hf hx, hz]

end OperationTools.InputTypes
