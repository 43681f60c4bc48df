import OperationTools.Issue
import OperationTools.Schema.Basic

/-!
# Validators

A validator tells which JSON values are accepted at a place. Argument validators follow input types.
Selection validators follow output types and accept `true`, `false`, `null` and nested objects.

A strict selection knows every key of its type. An open selection lets keys pass that it does not
know; a lazy selection is an open one that looks its keys up in the schema when they are met, so
that it can stand for types that contain themselves.

## Main definitions

* `Validator`: argument and selection validators
* `Validator.child?`: the validator for the value of a key
-/

namespace OperationTools

/-- A field of an object validator. The value of an optional field may be absent or null. -/
structure Member (α : Type) where
  name : String
  optional : Bool
  validator : α
deriving Repr

/-- A validator. -/
inductive Validator where
  /-- Accepts every value. -/
  | any
  | string
  /-- Accepts integers, and other numbers that are equal to one. -/
  | integer
  | number
  | boolean
  /-- Accepts what stands for the same as one value, such as the only value of an enum. -/
  | literal (value : Json)
  | enumeration (values : List String)
  | list (item : Validator) (nullItems : Bool)
  /-- An object with the given fields, or with arbitrary entries if it is permissive. -/
  | object (typeName : Option String) (permissive : Bool) (fields : List (Member Validator))
  /-- A field without parts: `true` or `false`. -/
  | leaf
  | anySelection
  | openSelection (typeName : String) (children : List (String × Validator))
  /-- An open selection on a type of a schema. Interfaces are narrowed to the types that implement
  them only if `implementers` is set. -/
  | lazySelection (schema : Schema) (implementers : Bool) (typeName : String)
  /-- A selection on a type with its fields and narrowings. -/
  | strictSelection (typeName : String) (fields fragments : List (String × Validator))

namespace Validator

instance : Inhabited Validator := ⟨.any⟩

/-- The validator for the value of a key, if the key is known. -/
def child? : Validator → String → Option Validator
  | .object _ false fields, key => (fields.find? (·.name == key)).map (·.validator)
  | .openSelection _ children, key =>
    if key = typenameKey then some .leaf else children.lookup key
  | .lazySelection schema implementers typeName, key =>
    if key = typenameKey then some .leaf
    else (schema.part? implementers typeName key).map fun
      | .leaf => .leaf
      | .composite name => .lazySelection schema implementers name
  | .strictSelection _ fields fragments, key =>
    if key = typenameKey then some .leaf else (fields.lookup key).or (fragments.lookup key)
  | _, _ => none

@[simp] theorem child?_lazySelection_typename (schema : Schema) (implementers : Bool)
    (typeName : String) :
    (lazySelection schema implementers typeName).child? typenameKey = some .leaf := by
  simp [child?]

@[simp] theorem child?_strictSelection_typename (typeName : String)
    (fields fragments : List (String × Validator)) :
    (strictSelection typeName fields fragments).child? typenameKey = some .leaf := by
  simp [child?]

/-- The validator for the items of an array. -/
def item : Validator → Validator
  | .list item _ => item
  | _ => .any

/-- The name a selection validator gives its type in messages. -/
def selectionLabel (typeName : String) : String :=
  if typeName.isEmpty then "object" else typeName

end Validator

end OperationTools
