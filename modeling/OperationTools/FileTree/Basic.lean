import OperationTools.Entries

/-!
# File trees

Files and directories in memory. They stand at places, and paths lead to places: two paths that
lead to the same place name the same file. A tree is made by writing files one after another, each
with the directories along its path.

## Main definitions

* `FileTree.Place`, `FileTree.Place.step`: places, and where a name leads from one
* `FileTree`, `FileTree.node?`: a tree, and what stands at a place
* `FileTree.write`, `FileTree.ofFiles`: trees of files that are written
* `FileTree.resolve?`: what a path leads to

## Main results

* `FileTree.node?_put`: putting something at a place changes what stands there alone
-/

namespace OperationTools

namespace FileTree

/-- A place is given by the names that lead to it: from the working directory, or after a slash from
the root of all directories. Two points stand only where they lead above the working directory. -/
abbrev Place := List String

namespace Place

/-- The root of all directories. -/
def root : Place := ["/"]

/-- The place one level up. The root has nothing above it. -/
def up (place : Place) : Place :=
  if place = root then root
  else if place.all (· == "..") then place ++ [".."]
  else place.dropLast

/-- The place that a name leads to: an empty name and a point stay where they are, two points go
one level up. -/
def step (place : Place) (name : String) : Place :=
  if name = "" || name = "." then place
  else if name = ".." then place.up
  else place ++ [name]

/-- The place from which the names along a path lead. -/
def start (path : String) : Place := if path.startsWith "/" then root else []

/-- The places that are directories of every tree: the root, the working directory and those above
it. -/
def isStanding (place : Place) : Bool := place == root || place.all (· == "..")

/-- The names that lead from a directory to a place below it. -/
def below? (directory place : Place) : Option (List String) :=
  if directory.isPrefixOf place then
    match place.drop directory.length with
    | [] => none
    | name :: rest => if name = ".." || name = "/" then none else some (name :: rest)
  else none

end Place

/-- What stands at a place: a file with its text, or a directory. -/
inductive Node where
  | file (text : String)
  | directory
deriving DecidableEq, Repr

end FileTree

/-- Files and directories by their places. -/
structure FileTree where
  nodes : List (FileTree.Place × FileTree.Node)

namespace FileTree

/-- The names along a path, empty ones included. -/
def components (path : String) : List String := path.splitOn "/"

/-- What stands at a place of the tree. -/
def node? (tree : FileTree) (place : Place) : Option Node :=
  match tree.nodes.lookup place with
  | some node => some node
  | none => if place.isStanding then some .directory else none

/-! ## Writing -/

/-- Puts something at a place. -/
def put (place : Place) (node : Node) (tree : FileTree) : FileTree :=
  ⟨Entries.insert place node tree.nodes⟩

/-- Putting something at a place changes what stands there alone. -/
theorem node?_put (place other : Place) (node : Node) (tree : FileTree) :
    (put place node tree).node? other = if other = place then some node else tree.node? other := by
  by_cases h : other = place <;> simp [node?, put, Entries.lookup_insert, h]

/-- Makes a place a directory, unless something stands there. -/
def makeDirectory (place : Place) (tree : FileTree) : FileTree :=
  ⟨Entries.insertNew place .directory tree.nodes⟩

/-- The tree with directories along names, and the place that they lead to. -/
def makeAlong (tree : FileTree) (place : Place) : List String → FileTree × Place
  | [] => (tree, place)
  | name :: rest => makeAlong (tree.makeDirectory (place.step name)) (place.step name) rest

/-- Writes a text to a path, over what stands there. A path that ends in a slash is that of a
directory. -/
def write (tree : FileTree) (path text : String) : FileTree :=
  let names := components path
  if path.endsWith "/" then (makeAlong tree (.start path) names).1
  else
    let (tree, place) := makeAlong tree (.start path) names.dropLast
    tree.put (place.step (names.getLastD "")) (.file text)

/-- The tree of texts that are written to paths, one after another. -/
def ofFiles (files : List (String × String)) : FileTree :=
  files.foldl (fun tree file => tree.write file.1 file.2) ⟨[]⟩

/-! ## Paths -/

/-- The place of the names along a path, from a place on. Every name but the last has to be that of
a directory. -/
def follow? (tree : FileTree) (place : Place) : List String → Option Place
  | [] => some place
  | name :: rest =>
    match tree.node? place with
    | some .directory => follow? tree (place.step name) rest
    | _ => none

/-- The place of a path, and what stands there. -/
def resolve? (tree : FileTree) (path : String) : Option (Place × Node) :=
  if path.isEmpty then none
  else do
    let place ← tree.follow? (.start path) (components path)
    let node ← tree.node? place
    pure (place, node)

/-- Whether something stands at a path. -/
def exists? (tree : FileTree) (path : String) : Bool := (tree.resolve? path).isSome

/-- The text of the file at a path. -/
def text? (tree : FileTree) (path : String) : Option String :=
  match tree.resolve? path with
  | some (_, .file text) => some text
  | _ => none

/-- A path and names below it. -/
def join (path : String) (names : List String) : String :=
  let below := "/".intercalate names
  if path.endsWith "/" then path ++ below else path ++ "/" ++ below

/-- The last name of a path. -/
def baseName (path : String) : String := (components path).getLastD ""

/-- A path with a null byte names nothing that could be looked up. -/
def isUnusablePath (path : String) : Bool := path.toList.contains '\x00'

/-- The message about a path with a null byte. -/
def unusablePathMessage : String := "embedded null byte"

end FileTree

end OperationTools
