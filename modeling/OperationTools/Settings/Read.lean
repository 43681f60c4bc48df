import OperationTools.Entries
import OperationTools.Json.Basic
import OperationTools.Settings.Basic
import OperationTools.Text.LoneHalf
import OperationTools.Text.Numeral

/-!
# Reading settings

Settings are read from a JSON object in which every option stands under its alias or its name; the
alias wins. Keys that are not options are ignored. The key `maxFieldsPerType` stands in for the
aliases of both field caps. Values are converted where their meaning is plain.

## Main definitions

* `Settings.Fault`: what is wrong with an option, or with the object
* `Settings.read`: the settings of a JSON value
-/

namespace OperationTools

namespace Settings

/-- What is wrong with a value that was given. -/
inductive FaultKind where
  | notAnObject
  | notABoolean
  | unreadableBoolean
  | notAnInteger
  | unreadableInteger
  | fractionalInteger
  | infiniteInteger
  | oversizedInteger
  | belowOne
  | notAString
  | unencodableText
deriving DecidableEq, Repr

/-- The code of a fault. -/
def FaultKind.code : FaultKind → String
  | .notAnObject => "model_type"
  | .notABoolean => "bool_type"
  | .unreadableBoolean => "bool_parsing"
  | .notAnInteger => "int_type"
  | .unreadableInteger => "int_parsing"
  | .fractionalInteger => "int_from_float"
  | .infiniteInteger => "finite_number"
  | .oversizedInteger => "int_parsing_size"
  | .belowOne => "greater_than_equal"
  | .notAString => "string_type"
  | .unencodableText => "string_unicode"

/-- A fault and the key under which the value stood; the whole object has no key. -/
structure Fault where
  key : Option String
  kind : FaultKind
deriving DecidableEq, Repr

/-- A text whose characters are looked at. It has an encoding, so it has no lone halves of pairs. -/
def encodedText (s : String) : Except FaultKind String :=
  if (Text.loneHalves? s).isSome then .error .unencodableText else .ok s

/-- The words for true and false in any case. -/
def booleanWords : List (String × Bool) :=
  [("0", false), ("off", false), ("f", false), ("false", false), ("n", false), ("no", false),
    ("1", true), ("on", true), ("t", true), ("true", true), ("y", true), ("yes", true)]

/-- The bound of the words of 64 bits with a sign. -/
def wordBound : Int := Nat.pow 2 63

/-- The integer a number is equal to, if its magnitude is below that of every word. -/
def wordOfNumber? (x : Binary64) : Option Int :=
  x.toInt?.filter fun n => -wordBound < n && n < wordBound

/-- A boolean, also as zero or one and as a word. Numbers that are no words are not looked at. -/
def readBoolean : Json → Except FaultKind Bool
  | .bool b => .ok b
  | .int n => if -wordBound ≤ n && n < wordBound then ofInteger n else .error .notABoolean
  | .float x =>
    match wordOfNumber? x with
    | some n => ofInteger n
    | none => .error .notABoolean
  | .str s => do
    match booleanWords.lookup (← encodedText s).toLower with
    | some b => .ok b
    | none => .error .unreadableBoolean
  | _ => .error .notABoolean
where
  /-- Zero and one as booleans. -/
  ofInteger : Int → Except FaultKind Bool
    | 0 => .ok false
    | 1 => .ok true
    | _ => .error .unreadableBoolean

/-- The integer of a number that is equal to one and not too large. -/
def integerOfNumber (x : Binary64) : Except FaultKind Int :=
  match x.toInt?, wordOfNumber? x with
  | none, _ => .error (if x.isFinite then .fractionalInteger else .infiniteInteger)
  | some _, none => .error .oversizedInteger
  | some _, some n => .ok n

/-- The fault of a text that is not read as an integer. -/
def faultOfNumeral : Text.NumeralFault → FaultKind
  | .malformed => .unreadableInteger
  | .tooLong => .oversizedInteger

/-- An integer, also as a boolean, as another number that is equal to one, and as a text. -/
def readInteger : Json → Except FaultKind Int
  | .int n => .ok n
  | .bool b => .ok (if b then 1 else 0)
  | .float x => integerOfNumber x
  | .str s => do (Text.integer (← encodedText s)).mapError faultOfNumeral
  | _ => .error .notAnInteger

/-- An integer of at least one. -/
def readCap (x : Json) : Except FaultKind Cap := do
  let n ← readInteger x
  if h : 0 < n.toNat then .ok ⟨n.toNat, h⟩ else .error .belowOne

/-- A text. -/
def readText : Json → Except FaultKind String
  | .str s => .ok s
  | _ => .error .notAString

/-- The value that is given for an option and the key it stands under: its alias if that is there,
else its name. -/
def given? (entries : List (String × Json)) (aliasName name : String) : Option (String × Json) :=
  match entries.lookup aliasName with
  | some x => some (aliasName, x)
  | none => (entries.lookup name).map (name, ·)

/-- An option with the faults found so far: the value that is given, else the default. -/
def option {α : Type} (entries : List (String × Json)) (aliasName name : String)
    (reader : Json → Except FaultKind α) (default : α) : StateM (List Fault) α := do
  match given? entries aliasName name with
  | none => pure default
  | some (key, x) =>
    match reader x with
    | .ok a => pure a
    | .error kind => do
      modify (· ++ [⟨some key, kind⟩])
      pure default

/-- The key that stands in for the aliases of both field caps. -/
def bothCaps : String := "maxFieldsPerType"

/-- The entries with the common field cap put under the aliases that are not given. -/
def expandCaps (entries : List (String × Json)) : List (String × Json) :=
  match entries.lookup bothCaps with
  | none => entries
  | some limit =>
    Entries.insertNew "maxSelectionFields" limit
      (Entries.insertNew "maxArgumentFields" limit (entries.filter (·.1 != bothCaps)))

/-- The settings of the entries of an object, with all faults in the order of the options. -/
def ofEntries (given : List (String × Json)) : StateM (List Fault) Settings := do
  let e := expandCaps given
  let d : Settings := {}
  pure {
    includeQueries := ← option e "includeQueries" "include_queries" readBoolean d.includeQueries
    includeMutations :=
      ← option e "includeMutations" "include_mutations" readBoolean d.includeMutations
    includeSubscriptions :=
      ← option e "includeSubscriptions" "include_subscriptions" readBoolean d.includeSubscriptions
    queryNamePrefix := ← option e "queryNamePrefix" "query_name_prefix" readText d.queryNamePrefix
    mutationNamePrefix :=
      ← option e "mutationNamePrefix" "mutation_name_prefix" readText d.mutationNamePrefix
    subscriptionNamePrefix :=
      ← option e "subscriptionNamePrefix" "subscription_name_prefix" readText
        d.subscriptionNamePrefix
    ignorePhrase := ← option e "ignorePhrase" "ignore_phrase" readText d.ignorePhrase
    maxOperations := ← option e "maxOperations" "max_operations" readCap d.maxOperations
    maxOperationArguments :=
      ← option e "maxOperationArguments" "max_operation_arguments" readCap d.maxOperationArguments
    maxSchemaDepth := ← option e "maxSchemaDepth" "max_schema_depth" readCap d.maxSchemaDepth
    maxArgumentFields :=
      ← option e "maxArgumentFields" "max_argument_fields" readCap d.maxArgumentFields
    maxSelectionFields :=
      ← option e "maxSelectionFields" "max_selection_fields" readCap d.maxSelectionFields }

/-- The settings of a value, or all that is wrong with it. -/
def read : Json → Except (List Fault) Settings
  | .obj entries =>
    match (ofEntries entries).run [] with
    | (settings, []) => .ok settings
    | (_, faults) => .error faults
  | _ => .error [⟨none, .notAnObject⟩]

end Settings

end OperationTools
