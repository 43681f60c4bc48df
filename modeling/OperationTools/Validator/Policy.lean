import OperationTools.Validator.JsonSchema
import OperationTools.Validator.Report

/-!
# Selection policies

A policy judges the selection of an operation: an absent or empty selection stands for the fallback,
which includes the leaves of the result type that can be asked for without arguments. Where a
selection is checked lazily, parts may be asked of a scalar or enum among the members of a union;
no answer is given then.

## Main definitions

* `Schema.defaultKeys`: the keys of the fallback for a type
* `Validator.overreaches`: whether parts of a scalar or enum are asked for
* `SelectionPolicy`: a validator with a fallback
* `SelectionPolicy.judge`: the selection that is meant, or why there is none
-/

namespace OperationTools

namespace Schema

/-- The keys that are selected of a type when nothing is asked for: of a union its type name, of an
object or interface the fields that are leaves and need no argument. -/
def defaultKeys (schema : Schema) (typeName : String) : List String :=
  match schema.body? typeName with
  | some (.union _) => [typenameKey]
  | some (.object _ fields) | some (.interface _ fields) =>
    (fields.filter fun f => !f.needsArguments && schema.isLeaf f.type.name).map (·.name)
  | _ => []

end Schema

namespace Validator

/-- A lazy selection on a scalar or enum, which has no parts that could be looked up. -/
def lacksParts : Validator → Bool
  | .lazySelection schema _ typeName => schema.isLeaf typeName
  | _ => false

mutual

/-- Whether parts of a scalar or enum are asked for where a selection is checked lazily. -/
def overreaches (v : Validator) : Json → Bool
  | .arr items => overreachesItems v.item items
  | .obj entries =>
    v.lacksParts && entries.any (·.1 ≠ typenameKey) || overreachesEntries v entries
  | _ => false

/-- Whether parts of a scalar or enum are asked for in items. -/
def overreachesItems (item : Validator) : List Json → Bool
  | [] => false
  | x :: rest => overreaches item x || overreachesItems item rest

/-- Whether parts of a scalar or enum are asked for in entries whose keys are known. -/
def overreachesEntries (v : Validator) : List (String × Json) → Bool
  | [] => false
  | (key, x) :: rest =>
    ((v.child? key).any fun c => overreaches c x) || overreachesEntries v rest

end

end Validator

/-- Why no selection is meant by a value. -/
inductive SelectionError where
  | issue (issue : Issue)
  /-- Parts of a scalar or enum are asked for. -/
  | partsOfLeaf
deriving DecidableEq

/-- A validator of selections, and the keys of the selection that stands in for an empty one. -/
structure SelectionPolicy where
  validator : Validator
  fallbackKeys : List String := []

namespace SelectionPolicy

/-- The selection that stands in for an empty one. -/
def fallback (policy : SelectionPolicy) : Json :=
  .obj (policy.fallbackKeys.map fun key => (key, .bool true))

/-- The selection that is meant by a value, or why there is none. An operation whose result is a
leaf takes no selection but the empty one. -/
def judge (policy : SelectionPolicy) : Json → Except SelectionError Json
  | .null | .obj [] => .ok policy.fallback
  | .obj entries =>
    match policy.validator with
    | .leaf => .error (.issue { cls := .selectionMismatch, reason := .scalarResult })
    | v =>
      if v.overreaches (.obj entries) then .error .partsOfLeaf
      else (v.judge (.obj entries)).mapError .issue
  | x => .error (.issue { cls := .selectionMismatch, reason := .selectionNotObject x.kind })

/-- The published schema, with the fallback as its default. -/
def published (policy : SelectionPolicy) : Json :=
  .obj (Entries.insert "default" policy.fallback policy.validator.published.toJson.entries)

end SelectionPolicy

end OperationTools
