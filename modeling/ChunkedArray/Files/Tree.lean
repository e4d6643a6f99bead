import ChunkedArray.Store.ByteRange
import ChunkedArray.Store.Entries

/-!
# ChunkedArray.Files.Tree

A tree of directories and files, and what reading, writing and removing a file
by its path does to it.

A path is followed one name after another from a directory: every name but the
last has to lead to a directory, `.` stays, and `..` goes to the directory above.
A path that is too long or holds the character that ends paths is refused before
anything is looked up. Writing creates the directories that are missing on the way
before it looks at the last name, and keeps them even where the last name cannot
be written.
-/

namespace ChunkedArray

/-- Why the file system refuses an operation. -/
inductive FileError
  | notFound
  /-- A file is where a directory was to be made. -/
  | alreadyExists
  | notDirectory
  | isDirectory
  | invalidArgument
  | nameTooLong
  /-- A path with the character that ends paths. -/
  | nulInName
  /-- The file ends before the bytes that were asked for. -/
  | endOfFile
  deriving DecidableEq, Repr

/-- The wording of a file error. -/
def FileError.message : FileError → String
  | notFound => "No such file or directory (os error 2)"
  | alreadyExists => "File exists (os error 17)"
  | notDirectory => "Not a directory (os error 20)"
  | isDirectory => "Is a directory (os error 21)"
  | invalidArgument => "Invalid argument (os error 22)"
  | nameTooLong => "File name too long (os error 36)"
  | nulInName => "file name contained an unexpected NUL byte"
  | endOfFile => "failed to fill whole buffer"

/-- The names that lead to a place, from the outermost directory inwards. -/
abbrev FilePath := List String

/-- What is found at a place. -/
inductive FileNode
  | directory
  | file (content : Bytes)
  deriving DecidableEq, Repr

/-- What is found where. The outermost directory is there without an entry. -/
structure FileTree where
  nodes : Entries FilePath FileNode := {}
  deriving Repr

namespace FileTree

/-- What is found at a place whose names are plain. -/
def node? (tree : FileTree) (place : FilePath) : Option FileNode :=
  if place = [] then some .directory else tree.nodes.get? place

/-- The tree with something put at a place. -/
def put (tree : FileTree) (place : FilePath) (node : FileNode) : FileTree :=
  ⟨tree.nodes.insert place node⟩

/-- The tree without what is found at a place. -/
def drop (tree : FileTree) (place : FilePath) : FileTree := ⟨tree.nodes.erase place⟩

/-- The most bytes that a name may have. -/
def longestName : Nat := 255

/-- The place that one name leads to from a place, which has to be a directory. -/
def step (tree : FileTree) (place : FilePath) (name : String) : Except FileError FilePath :=
  match tree.node? place with
  | none => .error .notFound
  | some (.file _) => .error .notDirectory
  | some .directory =>
    if name = "." then .ok place
    else if name = ".." then .ok place.dropLast
    else if longestName < name.utf8ByteSize then .error .nameTooLong
    else .ok (place ++ [name])

/-- The place that some names lead to. Nothing need be found there. -/
def follow (tree : FileTree) (start names : FilePath) : Except FileError FilePath :=
  names.foldlM tree.step start

/-- What some names lead to. -/
def find (tree : FileTree) (start names : FilePath) : Except FileError FileNode := do
  let place ← tree.follow start names
  (tree.node? place).elim (.error .notFound) .ok

/-- Does some name hold the character that ends paths? -/
def holdsNul (names : FilePath) : Bool := names.any fun name => name.toList.contains '\x00'

/-- The number of bytes of a path, with a slash in front of each name. -/
def pathSize (names : FilePath) : Nat :=
  names.foldl (fun size name => size + name.utf8ByteSize + 1) 0

/-- The most bytes that a path may have, counted from the outermost directory. -/
def longestPath : Nat := 4095

/-- Checks a path as it is written, before anything is looked up. -/
def checkPath (start names : FilePath) : Except FileError Unit :=
  if holdsNul names then .error .nulInName
  else if longestPath < pathSize (start ++ names) then .error .nameTooLong
  else .ok ()

/-! ### Reading -/

/-- The largest offset of a file. -/
def largestOffset : Nat := Int64.maxValue.toInt.toNat

/-- The bytes that a range reads from something opened. -/
def readRange (node : FileNode) (range : ByteRange) : Except FileError Bytes :=
  match node, range with
  | _, .fromStart offset (some 0) =>
    if largestOffset < offset.toNat then .error .invalidArgument else .ok []
  | _, .suffix 0 => .ok []
  | .directory, .fromStart offset _ =>
    if largestOffset < offset.toNat then .error .invalidArgument else .error .isDirectory
  | .directory, .suffix _ => .error .isDirectory
  | .file content, .fromStart offset none =>
    if largestOffset < offset.toNat then .error .invalidArgument
    else .ok (content.drop offset.toNat)
  | .file content, .fromStart offset (some length) =>
    if largestOffset < offset.toNat then .error .invalidArgument
    else if offset.toNat + length.toNat ≤ content.length then
      .ok ((content.drop offset.toNat).take length.toNat)
    else .error .endOfFile
  | .file content, .suffix length =>
    if content.length < length.toNat then .error .invalidArgument
    else .ok (content.drop (content.length - length.toNat))

/-- The bytes that some ranges read from the file at a path, or nothing where no
file is. -/
def read (tree : FileTree) (start names : FilePath) (ranges : List ByteRange) :
    Except FileError (Option (List Bytes)) := do
  checkPath start names
  match tree.find start names with
  | .error .notFound => return none
  | .error error => throw error
  | .ok node => return some (← ranges.mapM (readRange node))

/-! ### Writing and removing -/

/-- Makes the directory that one name leads to; one that is there will do. -/
def makeDirectory (tree : FileTree) (place : FilePath) (name : String) :
    Except FileError (FileTree × FilePath) := do
  let next ← tree.step place name
  match tree.node? next with
  | none => return (tree.put next .directory, next)
  | some .directory => return (tree, next)
  | some (.file _) => throw .alreadyExists

/-- Makes the directory of each of some names. -/
def makeDirectories (tree : FileTree) (place : FilePath) :
    FilePath → FileTree × Except FileError Unit
  | [] => (tree, .ok ())
  | name :: names =>
    match tree.makeDirectory place name with
    | .error error => (tree, .error error)
    | .ok (grown, next) => grown.makeDirectories next names

/-- Follows some names up to one that leads to nothing, and makes the directories
from there on. -/
def createDirectories (tree : FileTree) (place : FilePath) :
    FilePath → FileTree × Except FileError Unit
  | [] => (tree, .ok ())
  | name :: names =>
    match tree.step place name with
    | .error error => (tree, .error error)
    | .ok next =>
      if (tree.node? next).isSome then tree.createDirectories next names
      else tree.makeDirectories place (name :: names)

/-- A path without the dots at its end. -/
def withoutDots (names : FilePath) : FilePath := (names.reverse.dropWhile (· = ".")).reverse

/-- The names of the directory that a path lies in. -/
def parent (names : FilePath) : FilePath := withoutDots (withoutDots names).dropLast

/-- Creates the directory at a path where nothing is found there. -/
def prepare (tree : FileTree) (start names : FilePath) : FileTree × Except FileError Unit :=
  match checkPath start names with
  | .error error => (tree, .error error)
  | .ok () =>
    if (tree.find start names).isOk then (tree, .ok ()) else tree.createDirectories start names

/-- Writes the file at a path in a directory that is there. -/
def writeFile (tree : FileTree) (start names : FilePath) (content : Bytes) :
    FileTree × Except FileError Unit :=
  match checkPath start names *> tree.follow start names with
  | .error error => (tree, .error error)
  | .ok place =>
    if tree.node? place = some .directory then (tree, .error .isDirectory)
    else (tree.put place (.file content), .ok ())

/-- Writes the file at a path, creating it and its directories where they are
missing. -/
def write (tree : FileTree) (start names : FilePath) (content : Bytes) :
    FileTree × Except FileError Unit :=
  match tree.prepare start (parent names) with
  | (grown, .error error) => (grown, .error error)
  | (grown, .ok ()) => grown.writeFile start names content

/-- Removes the file at a path; that there is none is no error. -/
def remove (tree : FileTree) (start names : FilePath) : FileTree × Except FileError Unit :=
  match checkPath start names *> tree.follow start names with
  | .error .notFound => (tree, .ok ())
  | .error error => (tree, .error error)
  | .ok place =>
    match tree.node? place with
    | none => (tree, .ok ())
    | some .directory => (tree, .error .isDirectory)
    | some (.file _) => (tree.drop place, .ok ())

end FileTree

end ChunkedArray
