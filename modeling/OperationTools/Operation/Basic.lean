import OperationTools.Schema.Basic

/-!
# Operations

An operation calls one root field of a schema under a name of its own.

## Main definitions

* `Variable`: an argument of an operation
* `Operation`: operations
* `Operation.make`: an operation from its parts
-/

namespace OperationTools

/-- An argument of an operation. Its type literal stands in the document; the type itself may be
unknown. -/
structure Variable where
  name : String
  type : Option TypeRef
  typeName : String
  description : Option String := none
deriving DecidableEq, Repr

namespace Variable

/-- An argument whose type literal is that of its type unless one is given. -/
def make (name : String) (type : Option TypeRef) (typeName : String)
    (description : Option String := none) : Variable :=
  let literal := (type.map TypeRef.literal).getD ""
  { name, type, typeName := if typeName.isEmpty then literal else typeName, description }

/-- An argument may be left out unless it is non-null; without a type its literal decides. -/
def mayBeOmitted (v : Variable) : Bool :=
  match v.type with
  | some type => !type.isNonNull
  | none => v.typeName.toList.getLast? ≠ some '!'

end Variable

/-- An operation. -/
structure Operation where
  name : String
  kind : OperationKind
  fieldName : String
  arguments : List Variable
  result : Option TypeRef
  description : Option String
deriving DecidableEq, Repr

/-- No kind of operations has this keyword. -/
structure UnknownKind where
  keyword : String
deriving DecidableEq, Repr

/-- The message about an unknown kind. -/
def UnknownKind.message (e : UnknownKind) : String := s!"Unknown operation type: {e.keyword}"

namespace Operation

/-- An operation from its parts. Without a field name it calls the field of its own name. -/
def make (name keyword fieldName : String) (arguments : List Variable)
    (result : Option TypeRef) (description : Option String) :
    Except UnknownKind Operation :=
  match OperationKind.ofKeyword? keyword with
  | none => .error ⟨keyword⟩
  | some kind =>
    .ok { name, kind, arguments, result, description
          fieldName := if fieldName.isEmpty then name else fieldName }

/-- The literal of the return type. -/
def resultLiteral (op : Operation) : String := (op.result.map TypeRef.literal).getD ""

/-- The named return type. -/
def resultName (op : Operation) : Option String := op.result.map TypeRef.name

/-- Whether the operation returns a list. -/
def returnsList (op : Operation) : Bool := (op.result.map TypeRef.isList).getD false

/-- The arguments that must be given. -/
def required (op : Operation) : List Variable :=
  op.arguments.filter (!·.mayBeOmitted)

/-- What the operation does: its description, or its kind and name. -/
def summary (op : Operation) : String :=
  match op.description with
  | some text => if text.isEmpty then standard else text
  | none => standard
where
  /-- The text that stands in for a description. -/
  standard : String := s!"GraphQL {op.kind.keyword} operation: {op.name}"

end Operation

end OperationTools
