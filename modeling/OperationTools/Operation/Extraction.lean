import OperationTools.Settings.Basic
import OperationTools.Compilation.Notice
import OperationTools.Operation.Basic
import OperationTools.Text.Search

/-!
# Extracting operations

The root fields of a schema become operations: queries, then mutations, then subscriptions, each in
the order of their definition. Kinds that are not included and fields that are marked to be ignored
are passed over, a field whose operation name is taken already is left out, and both the arguments
of an operation and the operations are capped. A root type whose fields cannot be called has no
operations to offer, which is an error.

## Main definitions

* `RootPart`, `Schema.rootParts`: what is considered
* `Schema.operations`: the operations of a schema, with notices

## Main results

* `Operation.consider_field`: when a root field is added to the operations
-/

namespace OperationTools

/-- What is met when the root types are walked through. Only the fields of objects and interfaces
can be called. -/
inductive RootPart where
  | field (f : Field)
  | inputField (f : InputField)
  | withoutFields
deriving DecidableEq, Repr

namespace RootPart

/-- The name of a field. -/
def name : RootPart → String
  | .field f => f.name
  | .inputField f => f.name
  | .withoutFields => ""

/-- The description of a field. -/
def description : RootPart → Option String
  | .field f => f.description
  | .inputField f => f.description
  | .withoutFields => none

/-- The parts of a root type. -/
def ofBody : TypeBody → List RootPart
  | .object _ fields | .interface _ fields => fields.map .field
  | .input fields => fields.map .inputField
  | .scalar | .enum _ | .union _ => [.withoutFields]

end RootPart

/-- A root type of this kind has no fields that could be called. -/
structure UncallableRoot where
  kind : OperationKind
deriving DecidableEq, Repr

/-- The message about a root without fields. -/
def UncallableRoot.message (e : UncallableRoot) : String :=
  s!"The root type for {e.kind.keyword} has no fields that can be called"

namespace Schema

/-- The parts of the root types of the included kinds, in the order of the kinds. -/
def rootParts (schema : Schema) (settings : Settings) : List (OperationKind × RootPart) :=
  (OperationKind.all.filter settings.offers).flatMap fun kind =>
    match (schema.root? kind).bind schema.body? with
    | some body => (RootPart.ofBody body).map fun part => (kind, part)
    | none => []

end Schema

/-- Whether a field is marked to be ignored: its description holds the phrase. -/
def Settings.ignores (settings : Settings) (part : RootPart) : Bool :=
  match part.description with
  | some text =>
    !settings.ignorePhrase.isEmpty && Text.holds text settings.ignorePhrase
  | none => false

namespace Operation

/-- The operation of a root field, with its first arguments. -/
def ofField (settings : Settings) (kind : OperationKind) (f : Field) : Operation :=
  { name := settings.namePrefix kind ++ f.name
    kind
    fieldName := f.name
    arguments := (f.arguments.take settings.maxOperationArguments).map fun a =>
      .make a.name (some a.type) "" a.description
    result := some f.type
    description := f.description }

@[simp] theorem name_ofField (settings : Settings) (kind : OperationKind) (f : Field) :
    (ofField settings kind f).name = settings.namePrefix kind ++ f.name := rfl

/-- The operations found so far, and notices. -/
abbrev Found := List Operation × List Notice

/-- Adds the operation of a root field, unless it is ignored or its name is taken. A part that is
neither and cannot be called ends the search, with the notices up to there. -/
def consider (settings : Settings) (found : Found) (candidate : OperationKind × RootPart) :
    Except (UncallableRoot × List Notice) Found :=
  let (operations, log) := found
  let (kind, part) := candidate
  let name := settings.namePrefix kind ++ part.name
  if part = .withoutFields then .error (⟨kind⟩, log)
  else if settings.ignores part then .ok (operations, log ++ [.ignoredField kind part.name])
  else if operations.any (·.name == name) then
    .ok (operations, log ++ [.repeatedOperation name kind])
  else
    match part with
    | .field f =>
      let count := f.arguments.length
      let limit := settings.maxOperationArguments
      .ok (operations ++ [ofField settings kind f],
        if limit < count then log ++ [.argumentsCapped name count limit] else log)
    | _ => .error (⟨kind⟩, log)

/-- A field is added at the end unless it is ignored or its name is taken. -/
theorem consider_field (settings : Settings) (found : Found) (kind : OperationKind) (f : Field) :
    ∃ log, consider settings found (kind, .field f) = .ok
      (if settings.ignores (.field f) ∨
          settings.namePrefix kind ++ f.name ∈ found.1.map (·.name) then found.1
        else found.1 ++ [ofField settings kind f], log) := by
  obtain ⟨operations, log⟩ := found
  by_cases hi : settings.ignores (.field f) = true
  · simp [consider, hi, RootPart.name]
  · have hn : operations.any (·.name == settings.namePrefix kind ++ f.name) = true ↔
        settings.namePrefix kind ++ f.name ∈ operations.map (·.name) := by
      simp only [List.any_eq_true, beq_iff_eq, List.mem_map]
    by_cases hm : settings.namePrefix kind ++ f.name ∈ operations.map (·.name) <;>
      simp only [consider, hi, RootPart.name, hn, hm, Bool.false_eq_true, or_true, or_false,
        if_true, if_false, reduceCtorEq, Except.ok.injEq, Prod.mk.injEq, true_and, exists_eq']

end Operation

/-- The operations of a schema, with notices. -/
def Schema.operations (schema : Schema) (settings : Settings) :
    Except UncallableRoot (List Operation) × List Notice :=
  match (schema.rootParts settings).foldlM (Operation.consider settings) ([], []) with
  | .error (e, log) => (.error e, log)
  | .ok (found, log) =>
    let limit := settings.maxOperations
    (.ok (found.take limit),
      if limit < found.length then log ++ [.operationsCapped found.length limit] else log)

end OperationTools
