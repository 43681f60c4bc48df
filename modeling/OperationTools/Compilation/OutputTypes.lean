import OperationTools.Compilation.State
import OperationTools.Operation.Basic
import OperationTools.Validator.Policy

/-!
# Validators of output types

The validator of an output type is that of its named type: scalars and enums are leaves, objects and
interfaces are strict in their fields and narrowings, unions in their members. A type that is met
inside itself or past the depth limit is selected lazily. Strict validators are kept under the name
of the type and the depth.

Compilation is by recursion on the number of levels that the limit still allows.

## Main definitions

* `OutputTypes`: what the validators depend on
* `OutputTypes.ofNamed`: the validator of a named type
* `OutputTypes.ofOperation`: the selection policy of an operation
-/

namespace OperationTools

/-- What the validators of output types depend on. Interfaces are narrowed to the types that
implement them only if `implementers` is set. -/
structure OutputTypes where
  schema : Schema
  settings : Settings
  implementers : Bool := true

namespace OutputTypes

/-- The validator that looks the keys of a type up when they are met. -/
def lazily (types : OutputTypes) (typeName : String) : Validator :=
  .lazySelection types.schema types.implementers typeName

/-- The strict validator of a type. The named types of its fields and narrowings are compiled by
`inner`. -/
def strictly (types : OutputTypes) (inner : String → Compile Validator) (typeName : String)
    (body : TypeBody) : Compile Validator := do
  let limit := types.settings.maxSelectionFields
  Compile.noteFields .output typeName body.fields.length limit
  let fields ← (body.fields.take limit).mapM fun f => do
    pure (f.name, ← inner f.type.name)
  let fragments ← (types.schema.narrowings types.implementers typeName).mapM fun name => do
    pure (name, ← inner name)
  pure (.strictSelection typeName fields (Entries.ofList fragments))

/-- The validator of a named type, with a number of levels left. The types that are being compiled
are `visited`. -/
def ofNamed (types : OutputTypes) : Nat → List String → String → Compile Validator
  | left, visited, typeName =>
    match (types.schema.body? typeName).filter (·.isComposite) with
    | none => pure .leaf
    | some body =>
      match left with
      | 0 => do
        Compile.notice (.selectionDepth typeName)
        pure (types.lazily typeName)
      | left + 1 =>
        if visited.contains typeName then pure (types.lazily typeName)
        else do
          let key := Memo.Key.output typeName (types.settings.maxSchemaDepth - left)
          match ← Compile.kept? key with
          | some v => pure v
          | none => do
            let v ← types.strictly (types.ofNamed left (typeName :: visited)) typeName body
            Compile.keep key v

/-- The levels that are left at a depth. -/
def levelsLeft (types : OutputTypes) (depth : Int) : Nat :=
  (types.settings.maxSchemaDepth + 1 - depth).toNat

/-- The selection policy of an operation. Without a result type any selection is accepted. -/
def ofOperation (types : OutputTypes) (op : Operation) : Compile SelectionPolicy :=
  match op.result with
  | none => pure { validator := .anySelection }
  | some type => do
    let validator ← types.ofNamed (types.levelsLeft 0) [] type.name
    pure { validator, fallbackKeys := types.schema.defaultKeys type.name }

end OutputTypes

end OperationTools
