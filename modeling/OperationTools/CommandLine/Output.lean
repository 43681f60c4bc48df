import OperationTools.FileTree.Schema
import OperationTools.Json.Reader
import OperationTools.Settings.Read
import OperationTools.Text.LoneHalf
import OperationTools.Text.Terminal
import OperationTools.Tool

/-!
# Output of the command line

A run prints its results one after another, and log lines and messages apart from them. The output
is no terminal, so styles are left out of results and messages. A lone half of a pair is escaped in
log lines and messages; a result with one cannot be printed.

## Main definitions

* `Outcome`, `Crash`: how a run ends
* `Transcript`: what a run has to print
* `Transcript.outcome`: what is printed of it
-/

namespace OperationTools

/-- What a run writes, and its exit code. -/
structure Outcome where
  exitCode : Nat := 0
  stdout : String := ""
  stderr : String := ""
deriving DecidableEq, Repr

/-- Why a run breaks off. -/
inductive CrashCause where
  | malformedSettings (error : Json.SyntaxError)
  | tooManyDigits (count : Nat)
  | invalidSettings (faults : List Settings.Fault)
  | settingsDirectory
  | unusablePath
  | unreadableSchema (error : FileTree.LoadError)
  | withoutTools (error : ToolError)
  | partsOfLeaf
  | unwritableValues (error : Text.LoneHalves)
  | unprintable (error : Text.LoneHalves)
deriving DecidableEq, Repr

/-- The message about a run that breaks off. -/
def CrashCause.message : CrashCause → String
  | .malformedSettings e => s!"The configuration is malformed: {e.problem.message}"
  | .tooManyDigits count => Json.tooManyDigitsMessage count
  | .invalidSettings faults =>
    "The configuration is invalid: " ++ ", ".intercalate (faults.map fun f =>
      f.key.getD "value" ++ " " ++ f.kind.code)
  | .settingsDirectory => "The configuration is a directory"
  | .unusablePath => FileTree.unusablePathMessage
  | .unreadableSchema e => e.message
  | .withoutTools e => e.message
  | .partsOfLeaf => "Parts of a scalar or enum are selected"
  | .unwritableValues e => "Error serializing to JSON: UnicodeEncodeError: " ++ e.message
  | .unprintable e => e.message

/-- A run that breaks off, and what it has printed until then. -/
structure Crash where
  cause : CrashCause
  stdout : String := ""
deriving DecidableEq, Repr

/-- What a run has to print: results, log lines and messages. -/
structure Transcript where
  exitCode : Nat := 0
  results : List String := []
  log : String := ""
  messages : String := ""
deriving DecidableEq, Repr

namespace Transcript

/-- The transcript of a run that fails with a message. -/
def failure (message : String) : Transcript := { exitCode := 1, messages := s!"Error: {message}\n" }

/-- The transcript with more log lines. -/
def withLog (log : String) (t : Transcript) : Transcript := { t with log := t.log ++ log }

/-- The printed results, or the lone halves in the first one that cannot be printed and what is
printed before it. -/
def printResults : List String → Except (Text.LoneHalves × String) String
  | [] => .ok ""
  | result :: rest =>
    let shown := Text.withoutStyles result
    match Text.loneHalves? shown with
    | some e => .error (e, "")
    | none =>
      match printResults rest with
      | .ok more => .ok (shown ++ more)
      | .error (e, before) => .error (e, shown ++ before)

/-- What is printed. -/
def outcome (t : Transcript) : Except Crash Outcome :=
  match printResults t.results with
  | .error (e, before) => .error ⟨.unprintable e, Text.withPlainLineEnds before⟩
  | .ok printed =>
    .ok { exitCode := t.exitCode
          stdout := Text.withPlainLineEnds printed
          stderr := Text.withPlainLineEnds
            (Text.escapeHalves (t.log ++ Text.withoutStyles t.messages)) }

end Transcript

end OperationTools
