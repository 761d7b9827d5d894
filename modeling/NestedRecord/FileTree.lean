import NestedRecord.Dotted
import NestedRecord.File

/-!
# File trees

The files below one directory, each under the names on the way to it. A path is written
with strokes between its names; it is followed name by name from the top.

* `pathBelow` writes the path of something below a directory.
* `FileTree.nodeAt` says what stands at a place.
* `FileTree.listing` follows a path to a directory. Only a directory can be passed
  through: a path that goes on behind a file leads nowhere, and so does one that goes on
  behind nothing. What it finds is all that loading is told about files, so results about
  loading are stated for any listing.
-/

namespace NestedRecord

/-- Whether a path starts at the root of all files. -/
def isAbsolutePath (path : String) : Bool := path.toList.head? = some '/'

/-- The path of something below a directory. A stroke at the end of the directory is not
doubled, and a path from the root stays what it is. -/
def pathBelow (directory path : String) : String :=
  if isAbsolutePath path then path
  else if directory.toList.getLast? = some '/' then directory ++ path
  else directory ++ "/" ++ path

/-- The names of a path; between two strokes that meet stands an empty one. -/
def pathNames (path : String) : List String := (splitAtChar '/' path.toList).map String.ofList

/-- The place that a name leads to. An empty name and a point stay, two points go back. -/
def enterPlace (place : List String) (name : String) : List String :=
  if name = "" ∨ name = "." then place
  else if name = ".." then place.dropLast
  else place ++ [name]

/-- Files and directories under their places, later ones over earlier ones. A directory
that something stands in need not be given itself. -/
abbrev FileTree := List (List String × FileNode)

namespace FileTree

/-- The tree of what stands at the given paths. -/
def ofPaths (files : List (String × FileNode)) : FileTree :=
  files.map fun (path, file) => ((pathNames path).foldl enterPlace [], file)

/-- What stands at a place. -/
def nodeAt (tree : FileTree) (place : List String) : FileNode :=
  match place, tree.reverse.find? fun entry => entry.1 = place with
  | [], _ => .directory
  | _, some (_, file) => file
  -- what is not given but has something below it is a directory
  | _, none => if tree.any fun entry => place.isPrefixOf entry.1 then .directory else .absent

/-- The names in a directory, each once. -/
def namesAt (tree : FileTree) (place : List String) : List String :=
  (tree.filterMap fun (path, _) =>
    if place.isPrefixOf path then path[place.length]? else none).eraseDups

/-- The names in a directory with what stands under them. -/
def entriesAt (tree : FileTree) (place : List String) : List (String × FileNode) :=
  (tree.namesAt place).map fun name => (name, tree.nodeAt (place ++ [name]))

/-- The greatest number of bytes in a name. -/
def longestName : Nat := 255

/-- Follows names from a place. -/
def follow (tree : FileTree) (place : List String) : List String → Listing
  | [] =>
    match tree.nodeAt place with
    | .directory => .directory (tree.entriesAt place)
    | .absent => .absent
    | _ => .file
  | name :: rest =>
    match tree.nodeAt place with
    | .directory =>
      if longestName < name.utf8ByteSize then .nameTooLong
      else tree.follow (enterPlace place name) rest
    | .absent => .absent
    | _ => .file

/-- The greatest number of bytes in a path from the root. -/
def longestPath : Nat := 4095

/-- What stands at a path that should be a directory. The path is followed from the top of
the tree, whose own path is given; nothing is known outside the tree. -/
def listing (tree : FileTree) (top path : String) : Listing :=
  if path.toList.contains '\x00' then .zeroCharacter
  else if longestPath < (pathBelow top path).utf8ByteSize then .nameTooLong
  else if isAbsolutePath path then .absent
  else tree.follow [] (pathNames path)

@[simp] theorem nodeAt_nil (tree : FileTree) : tree.nodeAt [] = .directory := by
  simp [nodeAt]

end FileTree

end NestedRecord
