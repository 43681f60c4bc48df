import OperationTools.Compilation.State
import OperationTools.Operation.Basic
import OperationTools.Validator.ScalarTable

/-!
# Validators of input types

The validator of an input type follows its reference: lists are checked item by item, nullable
places are optional, and input objects are checked field by field. Enums and input objects are
compiled once and kept under their name. An input object that contains itself is cut where it would
be compiled inside itself, by an object with arbitrary entries; past the depth limit everything is
accepted. An enum whose values cannot be told has no validator.

Compilation is by recursion on the number of nested input objects that the limit still allows.

## Main definitions

* `InputTypes`: what the validators depend on
* `InputTypes.ofType`, `InputTypes.ofType?`: the validator of a reference, and of what may have none
* `InputTypes.ofOperation`: the validator of all arguments of an operation
-/

namespace OperationTools

/-- What the validators of input types depend on. -/
structure InputTypes where
  schema : Schema
  settings : Settings
  scalars : ScalarTable

namespace InputTypes

/-- The validator of an enum with the given values; an enum without values takes any string. -/
def enumValidator : List String → Validator
  | [] => .string
  | [value] => .literal (.str value)
  | values => .enumeration values

/-- The validator of an enum, which is kept. Inside itself it would be a string. -/
def ofEnum (visited : List String) (name : String) (values : Option (List String)) :
    TryCompile Validator := do
  match ← Compile.kept? (.enum name) with
  | some v => pure v
  | none =>
    if visited.contains name then pure .string
    else
      match values with
      | some values => Compile.keep (.enum name) (enumValidator values)
      | none => throw ⟨name⟩

/-- The validator of an input object with the given fields, which is kept. Inside itself it has
arbitrary entries. The types of the fields are compiled by `inner`. -/
def ofInput (limit : Nat) (inner : List String → TypeRef → TryCompile Validator)
    (visited : List String) (name : String) (fields : List InputField) : TryCompile Validator := do
  match ← Compile.kept? (.input name) with
  | some v => pure v
  | none =>
    if visited.contains name then pure (.object (some name) true [])
    else do
      Compile.noteFields .input name fields.length limit
      let members ← (fields.take limit).mapM fun f => do
        let validator ← inner (name :: visited) f.type
        pure { name := f.name, optional := !f.type.isNonNull, validator }
      Compile.keep (.input name) (.object (some name) false members)

/-- The validator of a named type. What is no input type accepts everything. -/
def ofNamed (types : InputTypes) (inner : List String → TypeRef → TryCompile Validator)
    (visited : List String) (name : String) : TryCompile Validator :=
  match types.schema.body? name with
  | some .scalar => pure (types.scalars.validator name)
  | some (.enum values) => ofEnum visited name values
  | some (.input fields) => ofInput types.settings.maxArgumentFields inner visited name fields
  | _ => pure .any

/-- The validator of a reference, whose named type is compiled by `named`. -/
def ofRef (named : String → TryCompile Validator) : TypeRef → TryCompile Validator
  | .named name => named name
  | .nonNull inner => ofRef named inner
  | .list item => do
    let v ← ofRef named item
    pure (.list v (!item.isNonNull))

/-- The validator of a reference, with a number of levels left. The types that are being compiled
are `visited`. -/
def ofType (types : InputTypes) : Nat → List String → TypeRef → TryCompile Validator
  | 0, _, type => do
    Compile.notice (.argumentDepth (some type))
    pure .any
  | left + 1, visited, type => ofRef (types.ofNamed (types.ofType left) visited) type

/-- The validator of what may have a type. Without one it accepts everything; past the depth limit
this is noticed as well. -/
def ofType? (types : InputTypes) (left : Nat) (visited : List String) :
    Option TypeRef → TryCompile Validator
  | some type => types.ofType left visited type
  | none => do
    if left = 0 then Compile.notice (.argumentDepth none)
    pure .any

/-- The levels that are left at a depth. -/
def levelsLeft (types : InputTypes) (depth : Int) : Nat :=
  (types.settings.maxSchemaDepth + 1 - depth).toNat

/-- The validator of an argument; without a type it accepts everything. -/
def ofVariable (types : InputTypes) (v : Variable) : TryCompile Validator :=
  types.ofType? (types.levelsLeft 0) [] v.type

/-- The validator of all arguments of an operation. An argument that is listed twice keeps its first
place and its last type. -/
def ofOperation (types : InputTypes) (op : Operation) : TryCompile Validator := do
  let members ← op.arguments.mapM fun v => do
    let validator ← types.ofVariable v
    pure (v.name, ({ name := v.name, optional := v.mayBeOmitted, validator } : Member Validator))
  pure (.object (some op.name) false ((Entries.ofList members).map (·.2)))

end InputTypes

end OperationTools
