import OperationTools.Proofs.Compilation.Calls
import OperationTools.Proofs.Compilation.OutputWellTyped
import OperationTools.Proofs.Schema.Closed

/-!
# The shape of a field

Whether the value of a field is refused as a whole depends on the shape of the field alone: a leaf
is switched on or off, anything else is selected part by part. A strict validator takes the shape
from what is compiled for the field, a lazy one from what the field leads to in the schema. Both
come to the same shape, at whatever depth, inside whatever types and after whatever calls, unless
the type of the field is an input object: that one is compiled as a leaf, and looked up as if it had
parts.

## Main definitions

* `Validator.RefusesWhole`: a value is refused at its own place
* `OutputTypes.ofPart`: the lazy validator of what a key leads to

## Main results

* `OutputTypes.Stands.refusesWhole_iff`: what is compiled has the shape of its type
* `Compilers.refusesWhole_field_iff`: the compiled and the lazy validator of a field have one shape
-/

namespace OperationTools

/-- A value is refused at its own place, and not because of something inside it. -/
def Validator.RefusesWhole (v : Validator) (x : Json) : Prop :=
  ∃ issue ∈ (v.report x).issues, issue.path = []

namespace Validator

instance (v : Validator) (x : Json) : Decidable (v.RefusesWhole x) :=
  inferInstanceAs (Decidable (∃ issue ∈ (v.report x).issues, issue.path = []))

/-- A lazy selection finds nothing wrong with an object but inside it. -/
theorem not_refusesWhole_lazySelection (schema : Schema) (implementers : Bool) (n : String)
    (entries : List (String × Json)) :
    ¬ (lazySelection schema implementers n).RefusesWhole (.obj entries) := by
  rintro ⟨issue, hi, hpath⟩
  simp only [report, objectReport, Report.issues_collect, List.mem_flatMap,
    List.mem_filterMap, Option.map_eq_some_iff] at hi
  obtain ⟨_, ⟨e, -, r, -, rfl⟩, hi⟩ := hi
  obtain ⟨inner, -, rfl⟩ := List.mem_map.1 hi
  cases hpath

/-- Neither does a strict one, which refuses unknown keys at their own places. -/
theorem not_refusesWhole_strictSelection (n : String) (fields fragments : List (String × Validator))
    (entries : List (String × Json)) :
    ¬ (strictSelection n fields fragments).RefusesWhole (.obj entries) := by
  rintro ⟨issue, hi, hpath⟩
  rw [report_strictSelection_obj, Report.issues_collect, List.flatMap_map] at hi
  obtain ⟨e, -, hi⟩ := List.mem_flatMap.1 hi
  unfold strictEntryReport at hi
  split at hi
  all_goals
    obtain ⟨inner, -, rfl⟩ := List.mem_map.1 hi
    cases hpath

theorem refusesWhole_leaf_iff {x : Json} :
    Validator.leaf.RefusesWhole x ↔ Part.leaf.admits x = false := by
  cases x <;> simp [RefusesWhole, report, arrayReport, objectReport, shallowReport, Part.admits]

theorem refusesWhole_lazySelection_iff {schema : Schema} {implementers : Bool} {n : String}
    {x : Json} :
    (lazySelection schema implementers n).RefusesWhole x ↔
      (Part.composite n).admits x = false := by
  cases x with
  | obj entries =>
    simp only [not_refusesWhole_lazySelection, Part.admits]
    simp
  | bool b => cases b <;> simp [RefusesWhole, report, shallowReport, Part.admits]
  | _ => simp [RefusesWhole, report, arrayReport, shallowReport, Part.admits]

theorem refusesWhole_strictSelection_iff {n : String} {fields fragments : List (String × Validator)}
    {x : Json} :
    (strictSelection n fields fragments).RefusesWhole x ↔ (Part.composite n).admits x = false := by
  cases x with
  | obj entries =>
    simp only [not_refusesWhole_strictSelection, Part.admits]
    simp
  | bool b => cases b <;> simp [RefusesWhole, report, shallowReport, Part.admits]
  | _ => simp [RefusesWhole, report, arrayReport, shallowReport, Part.admits]

end Validator

namespace OutputTypes

variable (types : OutputTypes)

/-- The lazy validator of what a key leads to. -/
def ofPart : Part → Validator
  | .leaf => .leaf
  | .composite n => types.lazily n

/-- The shape in which a type is compiled: what is not composite is a leaf. -/
def compiledPart (n : String) : Part :=
  if types.schema.isComposite n then .composite n else .leaf

/-- The shape in which a type is looked up: what is not a leaf is composite. -/
def lookedUpPart (n : String) : Part :=
  if types.schema.isLeaf n then .leaf else .composite n

variable {types}

theorem child?_lazily_of_ne {key : String} (hne : key ≠ typenameKey) (n : String) :
    (types.lazily n).child? key =
      (types.schema.part? types.implementers n key).map types.ofPart := by
  rw [child?_lazily, resolve?, if_neg hne]
  refine Option.map_congr fun part _ => ?_
  cases part <;> rfl

theorem refusesWhole_ofPart_iff {part : Part} {x : Json} :
    (types.ofPart part).RefusesWhole x ↔ part.admits x = false := by
  cases part with
  | leaf => exact Validator.refusesWhole_leaf_iff
  | composite n => exact Validator.refusesWhole_lazySelection_iff

/-- What is compiled for a type has the shape of the type. -/
theorem Stands.refusesWhole_iff {memo : Memo} {left : Nat} {n : String} {v : Validator}
    (h : types.Stands memo left n v) {x : Json} :
    v.RefusesWhole x ↔ (types.compiledPart n).admits x = false := by
  unfold compiledPart
  cases h with
  | leaf hc =>
    rw [hc]
    exact Validator.refusesWhole_leaf_iff
  | lazily hc =>
    rw [hc]
    exact Validator.refusesWhole_lazySelection_iff
  | strictly hb hc =>
    rw [isComposite_of_body? hb hc]
    exact Validator.refusesWhole_strictSelection_iff

/-- The two shapes of a type are the same, unless it is an input object: to select nothing but
`true` tells them apart. -/
theorem admits_compiledPart_iff {n : String} {body : TypeBody}
    (hb : types.schema.body? n = some body) :
    (∀ x, (types.compiledPart n).admits x = false ↔ (types.lookedUpPart n).admits x = false) ↔
      ∀ fields, body ≠ .input fields := by
  rw [compiledPart, lookedUpPart, Schema.isComposite, Schema.isLeaf, hb]
  cases body with
  | input fields =>
    constructor
    · intro h
      simpa [TypeBody.isComposite, TypeBody.isLeaf, Part.admits] using h (.bool true)
    · intro h
      exact absurd rfl (h fields)
  | _ => simp [TypeBody.isComposite, TypeBody.isLeaf]

/-- A field leads to the part of its type. -/
theorem part?_field {n : String} {body : TypeBody} (hb : types.schema.body? n = some body)
    (hd : (body.fields.map (·.name)).Nodup) {f : Field} (hf : f ∈ body.fields) :
    types.schema.part? types.implementers n f.name = some (types.lookedUpPart f.type.name) := by
  have hfind := Schema.find?_name_of_mem hd hf
  have htype : types.schema.fieldType? n f.name = some f.type.name := by
    rw [Schema.fieldType?, hb]
    cases body with
    | object | interface => exact congrArg (Option.map fun f => f.type.name) hfind
    | scalar | union | enum | input => cases hf
  rw [Schema.part?, htype]
  rfl

/-- In a strict validator of a type without fields beyond the limit every field is found, and what
is found was compiled for its type. -/
theorem exists_lookup_of_stands {memo : Memo} {left : Nat} {n : String} {body : TypeBody}
    {fields fragments : List (String × Validator)} {typeName : String}
    (h : types.Stands memo left n (.strictSelection typeName fields fragments))
    (hb : types.schema.body? n = some body) (hd : (body.fields.map (·.name)).Nodup)
    (hcap : body.fields.length ≤ types.settings.maxSelectionFields) {f : Field}
    (hf : f ∈ body.fields) :
    ∃ v, fields.lookup f.name = some v ∧ ∃ left, types.Stands memo left f.type.name v := by
  generalize hv : Validator.strictSelection typeName fields fragments = v at h
  cases h with
  | leaf | lazily => cases hv
  | @strictly left _ body' part hb' _ _ hp =>
    obtain rfl := Option.some.inj (hb.symm.trans hb')
    obtain ⟨-, rfl, -⟩ := Validator.strictSelection.inj hv
    have hknown : types.knownFields body = body.fields := List.take_of_length_le hcap
    rw [hknown]
    have hlookup := Validator.lookup_name hd (fun f => part f.type.name) hf
    refine ⟨part f.type.name, hlookup, left, hp _ ?_⟩
    exact List.mem_append_left _ (hknown ▸ List.mem_map_of_mem hf)

end OutputTypes

namespace Compilers

variable {c : Compilers}

/-- The validator that is compiled for a type after calls, with a number of levels left and inside
the visited types. -/
def validatorAfter (c : Compilers) (calls : List Call) (left : Nat) (visited : List String)
    (typeName : String) : Validator :=
  ((c.outputs.ofNamed left visited typeName).run (c.record calls).state).1

theorem exists_stands_validatorAfter (calls : List Call) (left : Nat) (visited : List String)
    (n : String) : ∃ memo, c.outputs.Stands memo left n (c.validatorAfter calls left visited n) :=
  ⟨_, (OutputTypes.sound_of_yields rfl (c.settled_record calls).sound).2⟩

/-- A field leads to a lazy validator, in lazy validators of its type as well. What is compiled for
the type of the field, at any depth, inside any types and after any calls, refuses the same values
as a whole exactly if that type is no input object, and so does what is found for the field in the
strict validator of its type, where the field is within the limit. -/
theorem refusesWhole_field_iff {text : String} (hs : Schema.ofText text = .ok c.schema)
    {n : String} {body : TypeBody} (hb : c.schema.body? n = some body) {f : Field}
    (hf : f ∈ body.fields) :
    ∃ l, (c.schema.part? c.implementers n f.name).map c.outputs.ofPart = some l ∧
      (f.name ≠ typenameKey → (c.outputs.lazily n).child? f.name = some l) ∧
      ∀ calls left visited,
        ((∀ x, (c.validatorAfter calls left visited f.type.name).RefusesWhole x ↔
            l.RefusesWhole x) ↔
          ∀ fields, c.schema.body? f.type.name ≠ some (.input fields)) ∧
        ∀ fields fragments, body.fields.length ≤ c.settings.maxSelectionFields →
          c.validatorAfter calls left visited n = .strictSelection n fields fragments →
          ∃ v, fields.lookup f.name = some v ∧
            ((∀ x, v.RefusesWhole x ↔ l.RefusesWhole x) ↔
              ∀ fields, c.schema.body? f.type.name ≠ some (.input fields)) := by
  have hd := ((Schema.lawful_of_ofText hs).body hb).fields
  have hbody : c.outputs.schema.body? n = some body := hb
  have hpart : (c.schema.part? c.implementers n f.name).map c.outputs.ofPart =
      some (c.outputs.ofPart (c.outputs.lookedUpPart f.type.name)) :=
    congrArg (Option.map c.outputs.ofPart) (OutputTypes.part?_field hbody hd hf)
  obtain ⟨inner, hinner⟩ : ∃ inner, c.schema.body? f.type.name = some inner :=
    Option.isSome_iff_exists.1 (Schema.closed_of_ofText hs _ (Schema.mem_of_body? hb) _
      (TypeBody.mem_typeNames_of_mem_fields hf))
  have halike : ∀ {memo left v}, c.outputs.Stands memo left f.type.name v →
      ((∀ x, v.RefusesWhole x ↔
          (c.outputs.ofPart (c.outputs.lookedUpPart f.type.name)).RefusesWhole x) ↔
        ∀ fields, c.schema.body? f.type.name ≠ some (.input fields)) := by
    intro memo left v hv
    simp only [hv.refusesWhole_iff, OutputTypes.refusesWhole_ofPart_iff, hinner, ne_eq,
      Option.some.injEq]
    exact OutputTypes.admits_compiledPart_iff hinner
  refine ⟨_, hpart, fun hne => (OutputTypes.child?_lazily_of_ne hne n).trans hpart,
    fun calls left visited => ⟨?_, ?_⟩⟩
  · obtain ⟨memo, hstands⟩ := exists_stands_validatorAfter (c := c) calls left visited f.type.name
    exact halike hstands
  · intro fields fragments hcap hv
    obtain ⟨memo, hstands⟩ := exists_stands_validatorAfter (c := c) calls left visited n
    rw [hv] at hstands
    obtain ⟨v, hlookup, _, hstands⟩ :=
      OutputTypes.exists_lookup_of_stands hstands hbody hd hcap hf
    exact ⟨v, hlookup, halike hstands⟩

/-- A type that contains itself and, as if it were an output type, an input object. -/
def loopText : String :=
  "input I { x: Int } type A { i: I a: A } type Query { a: A }"

/-- The compilers of its schema. -/
def loop : Compilers where
  schema := (Schema.ofText loopText).toOption.getD ⟨[], []⟩
  settings := {}

theorem ofText_loopText : Schema.ofText loopText = .ok loop.schema := by
  have hok : (Schema.ofText loopText).isOk = true := by decide +kernel
  unfold loop
  cases h : Schema.ofText loopText with
  | ok schema => rfl
  | error => simp [h, Except.isOk, Except.toBool] at hok

/-- The type that contains itself. -/
def loopBody : TypeBody :=
  .object [] [⟨"i", .named "I", [], none⟩, ⟨"a", .named "A", [], none⟩]

theorem body?_loop : loop.schema.body? "A" = some loopBody := by
  decide +kernel

/-- The shape of the inner `A` is the same in both validators. -/
theorem refusesWhole_loop :
    Schema.ofText loopText = .ok loop.schema ∧ loop.schema.body? "A" = some loopBody ∧
      ⟨"a", .named "A", [], none⟩ ∈ loopBody.fields ∧
      ∃ l, (loop.outputs.lazily "A").child? "a" = some l ∧
        ∀ x, (loop.validatorAfter [] 1 ["A"] "A").RefusesWhole x ↔ l.RefusesWhole x := by
  have hf : ⟨"a", .named "A", [], none⟩ ∈ loopBody.fields := by decide
  refine ⟨ofText_loopText, body?_loop, hf, ?_⟩
  obtain ⟨l, -, hchild, halike⟩ := refusesWhole_field_iff ofText_loopText body?_loop hf
  refine ⟨l, hchild (by decide), (halike [] 1 ["A"]).1.2 fun fields hinput => ?_⟩
  cases body?_loop.symm.trans hinput

/-- The input object is switched on as a leaf where it is compiled, and refused as a whole where it
is looked up. -/
theorem not_refusesWhole_input :
    ¬ ∀ (c : Compilers) text, Schema.ofText text = .ok c.schema →
      ∀ n body, c.schema.body? n = some body →
        body.fields.length ≤ c.settings.maxSelectionFields → ∀ f ∈ body.fields,
        ∀ l, (c.schema.part? c.implementers n f.name).map c.outputs.ofPart = some l →
        ∀ left visited x, (c.validatorAfter [] left visited f.type.name).RefusesWhole x ↔
          l.RefusesWhole x := by
  intro h
  have hf : ⟨"i", .named "I", [], none⟩ ∈ loopBody.fields := by decide
  have hpart : (loop.schema.part? loop.implementers "A" "i").map loop.outputs.ofPart =
      some (loop.outputs.lazily "I") := by
    have hpart : loop.schema.part? loop.implementers "A" "i" = some (.composite "I") := by
      decide +kernel
    rw [hpart]
    rfl
  have hx := h loop loopText ofText_loopText "A" loopBody body?_loop (by decide) _ hf _ hpart 1
    ["A"] (.bool true)
  revert hx
  decide +kernel

end Compilers

end OperationTools
