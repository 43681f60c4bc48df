import OperationTools.CommandLine.Arguments
import OperationTools.CommandLine.Output
import OperationTools.CommandLine.Run
import OperationTools.Compilation.InputTypes
import OperationTools.Compilation.Memo
import OperationTools.Compilation.Notice
import OperationTools.Compilation.OutputTypes
import OperationTools.Compilation.State
import OperationTools.Document.Reader
import OperationTools.Document.Selection
import OperationTools.Document.Writer
import OperationTools.Entries
import OperationTools.FileTree.Basic
import OperationTools.FileTree.Schema
import OperationTools.Issue
import OperationTools.Json.Basic
import OperationTools.Json.Comparison
import OperationTools.Json.Display
import OperationTools.Json.Encoding
import OperationTools.Json.Reader
import OperationTools.Json.Writer
import OperationTools.Language.Literal
import OperationTools.Language.Reader
import OperationTools.Language.Request
import OperationTools.Language.Token
import OperationTools.Main
import OperationTools.Number.Binary64
import OperationTools.Number.Shortest
import OperationTools.Operation.Basic
import OperationTools.Operation.Extraction
import OperationTools.Proofs.CommandLine.Options
import OperationTools.Proofs.CommandLine.Rendering
import OperationTools.Proofs.CommandLine.Rerun
import OperationTools.Proofs.Compilation.AskingLess
import OperationTools.Proofs.Compilation.Calls
import OperationTools.Proofs.Compilation.Course
import OperationTools.Proofs.Compilation.FieldShape
import OperationTools.Proofs.Compilation.InputConformance
import OperationTools.Proofs.Compilation.InputExactness
import OperationTools.Proofs.Compilation.InputLayer
import OperationTools.Proofs.Compilation.InputMemo
import OperationTools.Proofs.Compilation.InputSharing
import OperationTools.Proofs.Compilation.InputTruncation
import OperationTools.Proofs.Compilation.InputVisit
import OperationTools.Proofs.Compilation.OutputDepth
import OperationTools.Proofs.Compilation.OutputExactness
import OperationTools.Proofs.Compilation.OutputMemo
import OperationTools.Proofs.Compilation.OutputShape
import OperationTools.Proofs.Compilation.OutputSharing
import OperationTools.Proofs.Compilation.OutputVisit
import OperationTools.Proofs.Compilation.OutputWellTyped
import OperationTools.Proofs.Compilation.Thread
import OperationTools.Proofs.Compilation.Walks
import OperationTools.Proofs.Document.Pruning
import OperationTools.Proofs.Document.RoundTrip
import OperationTools.Proofs.Document.Slot
import OperationTools.Proofs.Document.Tokens
import OperationTools.Proofs.Issue.PathText
import OperationTools.Proofs.Json.Expressible
import OperationTools.Proofs.Json.RoundTrip
import OperationTools.Proofs.Json.WrittenNumber
import OperationTools.Proofs.Json.WrittenText
import OperationTools.Proofs.Language.Reading
import OperationTools.Proofs.Language.Scanning
import OperationTools.Proofs.Language.Spelling
import OperationTools.Proofs.Number.Rounding
import OperationTools.Proofs.Number.Value
import OperationTools.Proofs.Operation.Listing
import OperationTools.Proofs.Schema.Closed
import OperationTools.Proofs.Schema.DefaultKeys
import OperationTools.Proofs.Schema.Lawful
import OperationTools.Proofs.Schema.Named
import OperationTools.Proofs.Schema.Selectable
import OperationTools.Proofs.Settings.FieldCaps
import OperationTools.Proofs.Text.Digits
import OperationTools.Proofs.Tool.Compiled
import OperationTools.Proofs.Tool.DefaultDocument
import OperationTools.Proofs.Tool.Fallback
import OperationTools.Proofs.Tool.Narrowing
import OperationTools.Proofs.Tool.Notes
import OperationTools.Proofs.Tool.Outcome
import OperationTools.Proofs.Tool.PublishedSelection
import OperationTools.Proofs.Tool.Registry
import OperationTools.Proofs.Tool.Render
import OperationTools.Proofs.Tool.StrayKeys
import OperationTools.Proofs.Tool.Truncation
import OperationTools.Proofs.Tool.Variables
import OperationTools.Proofs.Validator.Argument
import OperationTools.Proofs.Validator.Cleaning
import OperationTools.Proofs.Validator.IssuePaths
import OperationTools.Proofs.Validator.ItemIssues
import OperationTools.Proofs.Validator.KeyOrder
import OperationTools.Proofs.Validator.Place
import OperationTools.Proofs.Validator.Position
import OperationTools.Proofs.Validator.PublishedArguments
import OperationTools.Proofs.Validator.PublishedSelection
import OperationTools.Proofs.Validator.Satisfaction
import OperationTools.Proofs.Validator.Selection
import OperationTools.Schema.Basic
import OperationTools.Schema.Build
import OperationTools.Schema.Definition
import OperationTools.Schema.Directive
import OperationTools.Schema.Introspection
import OperationTools.Schema.Placement
import OperationTools.Settings.Basic
import OperationTools.Settings.Read
import OperationTools.Text.Blank
import OperationTools.Text.Escape
import OperationTools.Text.LoneHalf
import OperationTools.Text.Numeral
import OperationTools.Text.Point
import OperationTools.Text.Printable
import OperationTools.Text.Quoted
import OperationTools.Text.Search
import OperationTools.Text.Similarity
import OperationTools.Text.Terminal
import OperationTools.Text.Uppercase
import OperationTools.Tool
import OperationTools.Validator.Basic
import OperationTools.Validator.JsonSchema
import OperationTools.Validator.Policy
import OperationTools.Validator.Report
import OperationTools.Validator.ScalarTable
