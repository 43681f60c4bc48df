import OperationTools.Compilation.Notice
import OperationTools.FileTree.Basic
import OperationTools.Schema.Build

/-!
# Schema files

A schema is read from a file or from all schema files below a directory, in the order of their
paths.

## Main definitions

* `FileTree.schemaTexts`: the schema files at a path
* `FileTree.schemaAt`: the schema of the files at a path
-/

namespace OperationTools

namespace FileTree

/-- Whether a name is that of a schema file. -/
def isSchemaName (name : String) : Bool := name.endsWith ".graphql" || name.endsWith ".graphqls"

/-- The schema files at a path with their texts: the file itself, or all schema files below the
directory in the order of their paths. -/
def schemaTexts (tree : FileTree) (path : String) : List (String × String) :=
  match tree.resolve? path with
  | some (_, .file text) => [(path, text)]
  | some (directory, .directory) =>
    let found := tree.nodes.filterMap fun (place, node) =>
      match directory.below? place, node with
      | some names, .file text =>
        if isSchemaName (names.getLastD "") then some (join path names, text) else none
      | _, _ => none
    found.mergeSort fun a b => a.1 ≤ b.1
  | none => []

/-- Why there is no schema at a path. -/
inductive LoadError where
  | unusablePath
  | noFiles (path : String)
  | unusable (error : SchemaError)
deriving DecidableEq, Repr

/-- The message about an error. -/
def LoadError.message : LoadError → String
  | .unusablePath => unusablePathMessage
  | .noFiles path => s!"No GraphQL schema files found in {path}"
  | .unusable .malformed => "The schema is malformed"
  | .unusable (.invalid _) => "The schema is invalid"
  | .unusable (.unreadableNote name) => s!"The argument of a directive {name} is no text"

/-- The schema of the files at a path, read one after another, with notices. -/
def schemaAt (tree : FileTree) (path : String) : Except LoadError Schema × List Notice :=
  match tree.schemaTexts path with
  | [] => (.error (if isUnusablePath path then .unusablePath else .noFiles path), [])
  | files =>
    match Schema.ofText ("\n".intercalate (files.map (·.2))) with
    | .ok schema => (.ok schema, [])
    | .error e =>
      (.error (.unusable e), [.unreadableSchema (files.map fun (path, _) => baseName path)])

end FileTree

end OperationTools
