import OperationTools.CommandLine.Arguments
import OperationTools.CommandLine.Output
import OperationTools.Json.Encoding
import OperationTools.Json.Writer
import OperationTools.Tool

/-!
# Runs of the command line

`list` names the operations of a schema, `render` writes the document of an operation and
`describe` publishes the schemas of its arguments and its selection. A run depends on the arguments
and on the files alone.

## Main definitions

* `Command.run`: a run of one command
* `commandLine`: a run of the program
-/

namespace OperationTools

/-- The name that the program goes by in messages. -/
def programName : String := "main"

/-- The version of the program. -/
def programVersion : String := "0.1.0"

/-- The usage of the program. -/
def programUsage : String := s!"Usage: {programName} [OPTIONS] COMMAND [ARGS]..."

/-- What is printed about a wrong command line, for a command with the given usage and name. -/
def UsageError.transcript (usage name : String) (e : UsageError) : Transcript :=
  let help := s!"{usage}\nTry '{name} --help' for help.\n\n"
  { exitCode := 2
    messages := (if e.showsUsage then help else "") ++ s!"Error: {e.message}\n" }

/-- Why a run ends before its command does its work. -/
inductive Stop where
  | misuse (e : UsageError)
  | crash (cause : CrashCause)
deriving DecidableEq, Repr

/-- The lines of a log that are shown: debug notices only on request. -/
def logLines (verbose : Bool) (log : List Notice) : String :=
  let shown := log.filter fun n => verbose || n.level ≠ .debug
  String.join (shown.map fun n => s!"{n.level.name} gql_toolgen.core.{n.source}: {n.text}\n")

/-! ## Commands -/

namespace Command

/-- The full name of a command. -/
def fullName (c : Command) : String := s!"{programName} {c.name}"

/-- The usage of a command. -/
def usage (c : Command) : String := s!"Usage: {c.fullName} [OPTIONS]"

/-- What is printed about a wrong use of a command. -/
def misuse (c : Command) (e : UsageError) : Transcript := e.transcript c.usage c.fullName

/-- A stop of a command: a wrong use is printed, a crash breaks the run off. -/
def stopped (c : Command) : Stop → Except CrashCause Transcript
  | .misuse e => .ok (c.misuse e)
  | .crash cause => .error cause

/-- What is wrong with an option: a required one is missing, or its path leads nowhere. -/
def wrongOption? (tree : FileTree) (a : Arguments) (p : Parameter) : Option Stop :=
  match a.value? p with
  | none => if p.isRequired then some (.misuse (.missingOption p)) else none
  | some value =>
    if !p.isPath then none
    else if FileTree.isUnusablePath value then some (.crash .unusablePath)
    else if tree.exists? value then none
    else some (.misuse (.missingPath p value))

/-- What is wrong with the arguments of a command: an option, first those that are given, in their
order, then those that are missing, or else arguments that are no options. -/
def wrongUse? (c : Command) (tree : FileTree) (a : Arguments) : Option Stop :=
  let missing := c.parameters.filter fun p => !a.has p
  match (a.given.map (·.1) ++ missing).findSome? (wrongOption? tree a) with
  | some stop => some stop
  | none => if a.others.isEmpty then none else some (.misuse (.extraArguments a.others))

/-- The crash that a text without a JSON value leads to. -/
def crashOfSettings : Json.ReadError → CrashCause
  | .malformed e => .malformedSettings e
  | .tooManyDigits count => .tooManyDigits count

/-- The settings that stand in a file. -/
def settingsAt (tree : FileTree) (path : String) : Except CrashCause Settings := do
  match tree.text? path with
  | none => .error .settingsDirectory
  | some text =>
    let value ← (Json.read text).mapError crashOfSettings
    (Settings.read value).mapError CrashCause.invalidSettings

/-- The settings that the options ask for. -/
def settings (tree : FileTree) (a : Arguments) : Except CrashCause Settings := do
  let base ← match a.value? .config with
    | none => pure {}
    | some path => settingsAt tree path
  pure { base with
    includeMutations := base.includeMutations || a.has .mutations
    includeSubscriptions := base.includeSubscriptions || a.has .subscriptions }

/-- The tools of the schema that the options name, with notices. -/
def tools (tree : FileTree) (a : Arguments) : Except CrashCause (ToolSet × List Notice) := do
  let settings ← settings tree a
  let schema ← (tree.schemaAt ((a.value? .schema).getD "")).1.mapError .unreadableSchema
  let (set, _, log) := schema.tools settings
  pure (← set.mapError .withoutTools, log)

/-- The line on an operation: its kind, its arguments and its result type. -/
def operationLine (op : Operation) : String :=
  let kind := op.kind.keyword
  let padding := String.ofList (List.replicate (12 - kind.length) ' ')
  let arguments := ", ".intercalate (op.arguments.map fun v => s!"{v.name}: {v.typeName}")
  s!"{kind}{padding} {op.name}({arguments}): {op.resultLiteral}\n"

/-- The operations, one a line, and warnings about types that were cut. -/
def listing (set : ToolSet) : Transcript :=
  { results := set.tools.map fun t => operationLine t.operation
    messages := String.join (set.notes.map fun note => s!"warning: {note}\n") }

/-- The JSON value of an option; without the option it is null. -/
def jsonValue (a : Arguments) (p : Parameter) : Except Stop Json :=
  match a.value? p with
  | none => .ok .null
  | some text => (Json.read text).mapError fun
    | .malformed e => .misuse (.invalidJson p (e.describe text))
    | .tooManyDigits count => .crash (.tooManyDigits count)

/-- The variables and the selection that the options give. -/
def jsonValues (a : Arguments) : Except Stop (Json × Json) := do
  let values ← jsonValue a .values
  let selection ← jsonValue a .selection
  pure (values, selection)

/-- The tool that the options name. -/
def chosen (set : ToolSet) (a : Arguments) : Except UnknownTool Tool :=
  set.find ((a.value? .name).getD "")

/-- The written form of a rendered document and its variables. -/
def renderedText (r : Rendered) : Except CrashCause String :=
  let value : Json := .obj [("query", .str r.query), ("variables", r.values)]
  match value.encodable with
  | .error e => .error (.unwritableValues e)
  | .ok value => .ok (Json.indented .result value ++ "\n")

/-- The rendered document of the chosen tool, with notices. -/
def rendering (set : ToolSet) (a : Arguments) : Except CrashCause (Transcript × List Notice) :=
  match jsonValues a, chosen set a with
  | .error stop, _ => (stopped .render stop).map fun t => (t, [])
  | .ok _, .error e => .ok (.failure e.message, [])
  | .ok (values, selection), .ok tool =>
    match tool.render values selection with
    | (.error .partsOfLeaf, _) => .error .partsOfLeaf
    | (.error e, log) => .ok (.failure e.message, log)
    | (.ok rendered, log) => (renderedText rendered).map fun text => ({ results := [text] }, log)

/-- The description of a tool. -/
def description (tool : Tool) : Json :=
  .obj [("name", .str tool.name), ("description", .str tool.operation.summary),
    ("arguments", tool.publishedArguments), ("selection", tool.publishedSelection),
    ("defaultSelection", tool.selection.fallback)]

/-- The description of the chosen tool. -/
def describing (set : ToolSet) (a : Arguments) : Transcript :=
  match chosen set a with
  | .error e => .failure e.message
  | .ok tool => { results := [Json.indented .description (description tool) ++ "\n"] }

/-- What a command does with the tools, with notices. -/
def perform (c : Command) (set : ToolSet) (a : Arguments) :
    Except CrashCause (Transcript × List Notice) :=
  match c with
  | .list => .ok (listing set, [])
  | .render => rendering set a
  | .describe => .ok (describing set a, [])

/-- A run of a command on its arguments. -/
def run (c : Command) (tree : FileTree) (verbose : Bool) (arguments : List String) :
    Except CrashCause Transcript :=
  match Arguments.parse c.parameters true arguments with
  | .error e => .ok (c.misuse e)
  | .ok a =>
    if a.has .help then .ok { results := [c.usage ++ "\n"] }
    else
      match c.wrongUse? tree a with
      | some stop => c.stopped stop
      | none => do
        let (set, log) ← tools tree a
        let (transcript, more) ← c.perform set a
        pure (transcript.withLog (logLines verbose (log ++ more)))

end Command

/-! ## The program -/

/-- What the options in front of the command ask for instead of a command: the first of the version
and the usage. -/
def answered? (a : Arguments) : Option Transcript :=
  (a.given.find? fun (p, _) => p = .version || p = .help).map fun
    | (.version, _) => { results := [s!"{programName}, version {programVersion}\n"] }
    | _ => { results := [programUsage ++ "\n"] }

/-- What is printed about a wrong use of the program. -/
def programMisuse (e : UsageError) : Transcript := e.transcript programUsage programName

/-- The run of the command that is named first. Where there is none of that name, the name and what
follows it are read once more as options. -/
def commandOf (tree : FileTree) (verbose : Bool) :
    List String → Except CrashCause Transcript
  | [] => .ok (programMisuse .missingCommand)
  | name :: arguments =>
    match Command.ofName? name with
    | some c => c.run tree verbose arguments
    | none =>
      match Arguments.parse programParameters false (name :: arguments) with
      | .error e => .ok (programMisuse e)
      | .ok a => .ok ((answered? a).getD (programMisuse (.unknownCommand name)))

/-- What a run of the program has to print. -/
def transcriptOf (tree : FileTree) (arguments : List String) : Except CrashCause Transcript :=
  if arguments.isEmpty then .ok { exitCode := 2, messages := programUsage ++ "\n" }
  else
    match Arguments.parse programParameters false arguments with
    | .error e => .ok (programMisuse e)
    | .ok a =>
      match answered? a with
      | some transcript => .ok transcript
      | none => commandOf tree (a.has .verbose) a.others

/-- A run of the program on its arguments. -/
def commandLine (tree : FileTree) (arguments : List String) : Except Crash Outcome :=
  match transcriptOf tree arguments with
  | .error cause => .error { cause }
  | .ok transcript => transcript.outcome

end OperationTools
