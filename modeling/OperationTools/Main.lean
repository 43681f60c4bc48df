import OperationTools.CommandLine.Run

/-!
# The program

Reads the files that the options name, runs the command line on them and writes its outcome. Texts
are kept when they come in and made plain when they go out.

## Main definitions

* `main`: the program
-/

namespace OperationTools

/-- A directory with the schema files below it. -/
partial def schemaFilesBelow (path : String) : IO (List (String × String)) := do
  let entries ← (System.mkFilePath [path]).readDir
  let below ← entries.toList.mapM fun e => do
    let place := FileTree.join path [e.fileName]
    if ← e.path.isDir then schemaFilesBelow place
    else if FileTree.isSchemaName e.fileName then pure [(place, ← IO.FS.readFile e.path)]
    else pure []
  pure ((path ++ "/", "") :: below.flatten)

/-- The files that an option names: the one at its path, or those that matter of a directory. -/
def filesOf (p : Parameter) (path : String) : IO (List (String × String)) := do
  let place := System.mkFilePath [path]
  if ← place.isDir then
    if p = .schema then schemaFilesBelow path else pure [(path ++ "/", "")]
  else if ← place.pathExists then pure [(path, ← IO.FS.readFile place)]
  else pure []

/-- The files that the options of a command line name. -/
def namedFiles (arguments : List String) : IO FileTree := do
  let ofCommand : List String := match Arguments.parse programParameters false arguments with
    | .ok (a : Arguments) => a.others.drop 1
    | .error _ => []
  let given : List (Parameter × String) :=
    match Arguments.parse (Command.parameters .render) true ofCommand with
    | .ok (a : Arguments) => a.given
    | .error _ => []
  let found ← (given.filter (·.1.isPath)).mapM fun (p, kept) => filesOf p (Text.plain kept)
  pure (.ofFiles (found.flatten.map fun (path, text) => (Text.kept path, Text.kept text)))

end OperationTools

open OperationTools in
/-- Runs the command line on the files that its options name. -/
def main (arguments : List String) : IO UInt32 := do
  let arguments := arguments.map Text.kept
  match commandLine (← namedFiles arguments) arguments with
  | .ok outcome => do
    IO.print (Text.plain outcome.stdout)
    IO.eprint (Text.plain outcome.stderr)
    pure outcome.exitCode.toUInt32
  | .error crash => do
    IO.print (Text.plain crash.stdout)
    IO.eprintln (Text.plain crash.cause.message)
    pure 1
