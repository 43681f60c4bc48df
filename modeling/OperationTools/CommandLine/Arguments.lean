import OperationTools.Text.Quoted
import OperationTools.Text.Similarity

/-!
# Command-line options

Arguments that start with a hyphen are options, long ones by name and short ones by letter. The
value of an option is attached to it or is the next argument. After two hyphens there are no more
options. For a long option or a command that is not known, similar ones are suggested.

## Main definitions

* `Parameter`, `Command`: the options and the commands that take them
* `UsageError`: what is wrong with a command line
* `Arguments.parse`: the options that are given and the other arguments
-/

namespace OperationTools

/-- The options of the program and its commands. -/
inductive Parameter where
  | verbose | version | help | schema | config | name | values | selection | mutations
  | subscriptions
deriving DecidableEq, Repr

namespace Parameter

/-- The long name of an option. -/
def long : Parameter → String
  | .verbose => "--verbose"
  | .version => "--version"
  | .help => "--help"
  | .schema => "--schema"
  | .config => "--config"
  | .name => "--name"
  | .values => "--variables"
  | .selection => "--selection"
  | .mutations => "--mutations"
  | .subscriptions => "--subscriptions"

/-- The letter of an option. -/
def letter? : Parameter → Option Char
  | .verbose => some 'v'
  | .schema => some 's'
  | .config => some 'c'
  | .name => some 'n'
  | _ => none

/-- Whether an option has a value. -/
def takesValue : Parameter → Bool
  | .schema | .config | .name | .values | .selection => true
  | _ => false

/-- Whether a command cannot do without an option. -/
def isRequired : Parameter → Bool
  | .schema | .name => true
  | _ => false

/-- Whether the value of an option is a path to something that exists. -/
def isPath : Parameter → Bool
  | .schema | .config => true
  | _ => false

/-- How messages name an option. -/
def hint (p : Parameter) : String :=
  match p.letter? with
  | some c => s!"'{p.long}' / '-{c}'"
  | none => s!"'{p.long}'"

end Parameter

/-- The commands. -/
inductive Command where
  | list | render | describe
deriving DecidableEq, Repr

namespace Command

/-- The name of a command. -/
def name : Command → String
  | .list => "list"
  | .render => "render"
  | .describe => "describe"

/-- All commands. -/
def all : List Command := [.list, .render, .describe]

theorem mem_all (c : Command) : c ∈ all := by
  cases c <;> decide

/-- The command of a name. -/
def ofName? : String → Option Command
  | "list" => some .list
  | "render" => some .render
  | "describe" => some .describe
  | _ => none

@[simp] theorem ofName?_name (c : Command) : ofName? c.name = some c := by
  cases c <;> rfl

/-- The options of a command. -/
def parameters : Command → List Parameter
  | .list => [.schema, .config, .mutations, .subscriptions, .help]
  | .render =>
    [.schema, .config, .name, .values, .selection, .mutations, .subscriptions, .help]
  | .describe => [.schema, .config, .name, .mutations, .subscriptions, .help]

end Command

/-- The options in front of the command. -/
def programParameters : List Parameter := [.version, .verbose, .help]

/-- What is wrong with a command line. -/
inductive UsageError where
  | noSuchOption (shown : String) (similar : List String)
  | needsValue (shown : String)
  | takesNoValue (shown : String)
  | missingOption (p : Parameter)
  | missingPath (p : Parameter) (path : String)
  | extraArguments (arguments : List String)
  | missingCommand
  | noSuchCommand (name : String) (similar : List String)
  | invalidJson (p : Parameter) (message : String)
deriving DecidableEq, Repr

namespace UsageError

/-- The message about an error. -/
def message : UsageError → String
  | .noSuchOption shown similar =>
    s!"No such option {Text.quoted shown}." ++ Text.didYouMean similar
  | .needsValue shown => s!"Option {Text.quoted shown} requires an argument."
  | .takesNoValue shown => s!"Option {Text.quoted shown} does not take a value."
  | .missingOption p => s!"Missing option {p.hint}."
  | .missingPath p path => s!"Invalid value for {p.hint}: Path {Text.quoted path} does not exist."
  | .extraArguments arguments =>
    let noun := if arguments.length = 1 then "argument" else "arguments"
    s!"Got unexpected extra {noun} (" ++ " ".intercalate arguments ++ ")"
  | .missingCommand => "Missing command."
  | .noSuchCommand name similar =>
    s!"No such command {Text.quoted name}." ++ Text.didYouMean similar
  | .invalidJson p message => s!"Invalid value for {p.long}: invalid JSON: {message}"

/-- Whether the usage of the command is shown with an error. -/
def showsUsage : UsageError → Bool
  | .needsValue _ | .takesNoValue _ => false
  | _ => true

/-- The error about a long option that is none of the known ones. -/
def unknownOption (known : List Parameter) (shown : String) : UsageError :=
  .noSuchOption shown (Text.suggestions shown (known.map Parameter.long))

/-- The error about a command that does not exist. -/
def unknownCommand (name : String) : UsageError :=
  .noSuchCommand name (Text.suggestions name (Command.all.map Command.name))

end UsageError

/-! ## Parsing -/

/-- The options that are given, in their order, and the other arguments. -/
structure Arguments where
  given : List (Parameter × String)
  others : List String
deriving DecidableEq, Repr

namespace Arguments

/-- What one argument says. -/
inductive Piece where
  /-- Options that are complete. -/
  | options (given : List (Parameter × String))
  /-- Options of which the last one has its value in the next argument. -/
  | awaiting (given : List (Parameter × String)) (last : Parameter) (shown : String)
  | other
  | lastOption
deriving DecidableEq, Repr

/-- Options by letter: letters without a value, then possibly one with its value attached. -/
def letters (known : List Parameter) (given : List (Parameter × String)) :
    List Text.Point → Except UsageError Piece
  | [] => .ok (.options given)
  | p :: rest =>
    let shown := String.ofList ('-' :: p.kept)
    match known.find? fun q => q.letter?.any fun c => p = .char c with
    | none => .error (.noSuchOption shown [])
    | some q =>
      if !q.takesValue then letters known (given ++ [(q, "")]) rest
      else if rest.isEmpty then .ok (.awaiting given q shown)
      else .ok (.options (given ++ [(q, String.ofList (rest.flatMap Text.Point.kept))]))

/-- What an argument says. A long option may have its value after an equals sign. -/
def piece (known : List Parameter) (argument : String) : Except UsageError Piece :=
  let chars := argument.toList
  if argument = "--" then .ok .lastOption
  else if chars.head? ≠ some '-' || chars.length < 2 then .ok .other
  else
    let shown := String.ofList (chars.takeWhile (· ≠ '='))
    let attached := match chars.dropWhile (· ≠ '=') with
      | _ :: value => some (String.ofList value)
      | [] => none
    match known.find? (·.long = shown), attached with
    | some p, none =>
      .ok (if p.takesValue then .awaiting [] p shown else .options [(p, "")])
    | some p, some value =>
      if p.takesValue then .ok (.options [(p, value)]) else .error (.takesNoValue shown)
    | none, _ =>
      if argument.startsWith "--" then .error (.unknownOption known shown)
      else letters known [] (Text.points (chars.drop 1))

/-- The options and the other arguments. Unless options may follow other arguments, everything from
the first other argument on is left. -/
def parse (known : List Parameter) (mixed : Bool) : List String → Except UsageError Arguments
  | [] => .ok ⟨[], []⟩
  | argument :: rest =>
    match piece known argument with
    | .error e => .error e
    | .ok .lastOption => .ok ⟨[], rest⟩
    | .ok .other =>
      if mixed then
        (parse known mixed rest).map fun a => { a with others := argument :: a.others }
      else .ok ⟨[], argument :: rest⟩
    | .ok (.options given) =>
      (parse known mixed rest).map fun a => { a with given := given ++ a.given }
    | .ok (.awaiting given last shown) =>
      match rest with
      | [] => .error (.needsValue shown)
      | value :: rest =>
        (parse known mixed rest).map fun a => { a with given := given ++ (last, value) :: a.given }

/-- Whether an option is given. -/
def has (a : Arguments) (p : Parameter) : Bool := a.given.any (·.1 = p)

/-- The last value that is given for an option. -/
def value? (a : Arguments) (p : Parameter) : Option String :=
  (a.given.reverse.find? (·.1 = p)).map (·.2)

end Arguments

end OperationTools
