import SfcJsx.File.Path

/-!
A tree of files. Paths are followed name by name from the root: `..` leads back, and everything on
the way has to be a directory. A name has 255 bytes at most, and no NUL among them.
-/

namespace SfcJsx

inductive FileError where
  | missing
  | exists
  | notDirectory
  | isDirectory
  | nameTooLong
  | nulInName
  | notText
  deriving DecidableEq, Repr

def FileError.message : FileError → Text
  | .missing => "No such file or directory (os error 2)"
  | .exists => "File exists (os error 17)"
  | .notDirectory => "Not a directory (os error 20)"
  | .isDirectory => "Is a directory (os error 21)"
  | .nameTooLong => "File name too long (os error 36)"
  | .nulInName => "file name contained an unexpected NUL byte"
  | .notText => "stream did not contain valid UTF-8"

namespace FileTree

/-- The names that lead from the root to a place. -/
abbrev Location := List Text

/-- The content of a file is absent where it is not text. -/
inductive Entry where
  | directory
  | file (content : Option Text)
  deriving DecidableEq, Repr

end FileTree

/-- Everything below the root, which is a directory. -/
structure FileTree where
  entries : List (FileTree.Location × FileTree.Entry) := []
  deriving Repr

namespace FileTree

def entry? (tree : FileTree) (location : Location) : Option Entry :=
  if location = [] then some .directory else tree.entries.lookup location

def set (tree : FileTree) (location : Location) (entry : Entry) : FileTree :=
  ⟨(location, entry) :: tree.entries.filter fun e => e.1 ≠ location⟩

def remove (tree : FileTree) (location : Location) : FileTree :=
  ⟨tree.entries.filter fun e => !location.isPrefixOf e.1⟩

def maxNameWidth : Nat := 255

/-- The place of a name seen from a place. -/
def enter (tree : FileTree) (location : Location) (name : Text) : Except FileError Location :=
  match tree.entry? location with
  | some .directory =>
    if Path.isVoid name then .ok location
    else if name = ".." then .ok location.dropLast
    else if name.width > maxNameWidth then .error .nameTooLong
    else .ok (location ++ [name])
  | some (.file _) => .error .notDirectory
  | none => .error .missing

/-- The place that names lead to, whether there is anything or not. A NUL in one of the names is
seen before any of them is followed. -/
def follow (tree : FileTree) (names : List Text) : Except FileError Location :=
  if names.any (·.contains '\x00') then .error .nulInName else names.foldlM tree.enter []

def find (tree : FileTree) (names : List Text) : Except FileError (Location × Entry) := do
  let location ← tree.follow names
  match tree.entry? location with
  | some entry => .ok (location, entry)
  | none => .error .missing

def at? (tree : FileTree) (path : Text) : Option (Location × Entry) :=
  (tree.find (Path.segments path)).toOption

def isFile (tree : FileTree) (path : Text) : Bool :=
  match tree.at? path with
  | some (_, .file _) => true
  | _ => false

def isDirectoryAt (tree : FileTree) (names : List Text) : Bool :=
  match tree.find names with
  | .ok (_, .directory) => true
  | _ => false

def read (tree : FileTree) (path : Text) : Except FileError Text := do
  match ← tree.find (Path.segments path) with
  | (_, .directory) => .error .isDirectory
  | (_, .file none) => .error .notText
  | (_, .file (some content)) => .ok content

def write (tree : FileTree) (path content : Text) : Except FileError FileTree := do
  let location ← tree.follow (Path.segments path)
  match tree.entry? location with
  | some .directory => .error .isDirectory
  | _ => .ok (tree.set location (.file (some content)))

def makeDirectory (tree : FileTree) (names : List Text) : Except FileError FileTree := do
  let location ← tree.follow names
  match tree.entry? location with
  | some _ => .error .exists
  | none => .ok (tree.set location .directory)

/-- Makes a directory, and those on the way to it where something is missing. The names are given
last first. -/
def makeDirectories (tree : FileTree) : List Text → Except FileError FileTree
  | [] => .ok tree
  | name :: parents =>
    let names := (name :: parents).reverse
    let made (tree : FileTree) : Except FileError FileTree :=
      match tree.makeDirectory names with
      | .ok tree => .ok tree
      | .error e => if tree.isDirectoryAt names then .ok tree else .error e
    match tree.makeDirectory names with
    | .error .missing => do
      let tree ← makeDirectories tree parents
      made tree
    | _ => made tree

def makeDirectoryAll (tree : FileTree) (path : Text) : Except FileError FileTree :=
  tree.makeDirectories ((Path.segments path).filter (!Path.isVoid ·)).reverse

def filesBelow (tree : FileTree) (location : Location) : List (Location × Option Text) :=
  tree.entries.filterMap fun (place, entry) =>
    match entry with
    | .file content =>
      if location.isPrefixOf place then some (place.drop location.length, content) else none
    | .directory => none

def add (tree : FileTree) (location : Location) (entry : Entry) : FileTree :=
  let parents := (List.range location.length).map fun n => location.take n
  let missing := parents.filter fun parent => (tree.entry? parent).isNone
  (missing.foldl (fun tree parent => tree.set parent .directory) tree).set location entry

end FileTree

end SfcJsx
