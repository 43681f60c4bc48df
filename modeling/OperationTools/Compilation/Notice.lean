import OperationTools.Compilation.Memo

/-!
# Notices

What happens on the way to a result, for a log: limits that were reached, operations that were left
out, variables and keys that are not used. Results carry their notices in the order in which they
arose.

## Main definitions

* `Notice`: the events
* `Notice.level`, `Notice.source`, `Notice.text`: how an event is logged
-/

namespace OperationTools

/-- How much a notice matters. -/
inductive Level where
  | debug | warning | error
deriving DecidableEq, Repr

/-- The word for a level. -/
def Level.name : Level → String
  | .debug => "DEBUG"
  | .warning => "WARNING"
  | .error => "ERROR"

/-- An event worth logging. -/
inductive Notice where
  | argumentDepth (type : Option TypeRef)
  | selectionDepth (typeName : String)
  | truncated (note : Truncation)
  | dropped (keys : DroppedKeys)
  | unusedVariable (name operation : String)
  | ignoredField (kind : OperationKind) (field : String)
  | repeatedOperation (name : String) (kind : OperationKind)
  | argumentsCapped (operation : String) (count limit : Nat)
  | operationsCapped (count limit : Nat)
  | compiled (count cached : Nat)
  | unreadableSchema (files : List String)
deriving DecidableEq

namespace Notice

/-- The level of a notice. -/
def level : Notice → Level
  | .argumentDepth _ | .selectionDepth _ | .dropped _ | .ignoredField .. | .compiled .. => .debug
  | .unreadableSchema _ => .error
  | _ => .warning

/-- The part of the program that gives a notice. -/
def source : Notice → String
  | .argumentDepth _ => "arguments"
  | .selectionDepth _ => "selection"
  | .truncated _ => "cache"
  | .dropped _ => "validators"
  | .unusedVariable .. => "query_builder"
  | .compiled .. => "tools"
  | _ => "parser"

/-- The name of a place in a notice: its type, or `None` if it has no type. -/
def placeName (type : Option TypeRef) : String := (type.map (·.literal)).getD "None"

/-- The text of a notice. -/
def text : Notice → String
  | .argumentDepth type =>
    s!"Depth limit reached at {placeName type}, accepting any value"
  | .selectionDepth typeName =>
    s!"Depth limit reached at {typeName}, checking its selection lazily"
  | .truncated note => note.text
  | .dropped keys => s!"Dropping unknown keys {Json.displayKeys keys.keys} of {keys.owner}"
  | .unusedVariable name operation =>
    s!"Variable '{name}' is not used by operation '{operation}'"
  | .ignoredField kind field =>
    s!"Skipping {kind.keyword} {field}: description contains ignore phrase"
  | .repeatedOperation name kind => s!"Duplicate operation name {name} ({kind.keyword}) ignored"
  | .argumentsCapped operation count limit =>
    s!"Operation {operation} has {count} arguments, processing only {limit}"
  | .operationsCapped count limit => s!"Schema has {count} operations, processing only {limit}"
  | .compiled count cached => s!"Compiled {count} operations ({cached} cached validators)"
  | .unreadableSchema files => "Error parsing " ++ ", ".intercalate files

end Notice

end OperationTools
