import SfcJsx.Text.Basic

/-!
Paths of files. Slashes separate the names of a path; empty names count for nothing, and `.` only at
the start of a relative path. Two paths are the same when their components are.
-/

namespace SfcJsx.Path

inductive Component where
  | root
  | current
  | parent
  | normal (name : Text)
  deriving DecidableEq, Repr

def isAbsolute (path : Text) : Bool := path.head? = some '/'

def segments (path : Text) : List Text :=
  Text.fields (· == '/') (if isAbsolute path then path.tail else path)

def isVoid (segment : Text) : Bool := segment == [] || segment == ['.']

def componentOf (segment : Text) : Component :=
  if segment = ".." then .parent else .normal segment

def startComponent (path : Text) : List Component :=
  if isAbsolute path then [.root]
  else if (segments path).head? = some ['.'] then [.current]
  else []

def components (path : Text) : List Component :=
  startComponent path ++ ((segments path).filter (!isVoid ·)).map componentOf

def rank : Component → Nat
  | .root => 0
  | .current => 1
  | .parent => 2
  | .normal _ => 3

def compareComponents (a b : Component) : Ordering :=
  match a, b with
  | .normal s, .normal t => compare s t
  | a, b => compare (rank a) (rank b)

def compareLists : List Component → List Component → Ordering
  | [], [] => .eq
  | [], _ :: _ => .lt
  | _ :: _, [] => .gt
  | a :: as, b :: bs => (compareComponents a b).then (compareLists as bs)

def order (p q : Text) : Ordering := compareLists (components p) (components q)

def same (p q : Text) : Bool := components p == components q

/-- The part of a path in front of its names: the root, or the `.` it starts in. -/
def start (path : Text) : Text :=
  if isAbsolute path then "/"
  else if (segments path).head? = some ['.'] then "."
  else []

def body (path : Text) : List Text :=
  if !isAbsolute path && (segments path).head? = some ['.'] then (segments path).tail
  else segments path

def dropTrailing (segments : List Text) : List Text := (segments.reverse.dropWhile isVoid).reverse

def joinSegments (segments : List Text) : Text := List.intercalate "/" segments

def assemble (start : Text) (body : List Text) : Text :=
  if start = "." ∧ body ≠ [] then "./" ++ joinSegments body else start ++ joinSegments body

/-- The path without its last component; the root and the empty path have none. -/
def parent? (path : Text) : Option Text :=
  match dropTrailing (body path) with
  | [] => if start path = "." then some [] else none
  | first :: rest => some (assemble (start path) (dropTrailing (first :: rest).dropLast))

def fileName? (path : Text) : Option Text :=
  match (components path).getLast? with
  | some (.normal name) => some name
  | _ => none

/-- The parts of a file name before and after its last dot. A dot at the start separates nothing. -/
def splitName (name : Text) : Text × Option Text :=
  let after := (name.reverse.takeWhile (· != '.')).reverse
  match (name.reverse.dropWhile (· != '.')).tail.reverse with
  | [] => (name, none)
  | before => (before, some after)

def fileStem? (path : Text) : Option Text := (fileName? path).map fun name => (splitName name).1

def extension? (path : Text) : Option Text := (fileName? path).bind fun name => (splitName name).2

def join (base path : Text) : Text :=
  if isAbsolute path then path
  else if base.isEmpty || base.getLast? = some '/' then base ++ path
  else base ++ "/" ++ path

/-- Puts an extension after the stem of a path; a path without a file name stays as it is. -/
def setExtension (path extension : Text) : Text :=
  match fileStem? path with
  | some stem =>
    assemble (start path) ((dropTrailing (body path)).dropLast ++ [stem]) ++ "." ++ extension
  | none => path

/-- The path with another extension. Its own is taken off first, which may leave no file name. -/
def withExtension (path extension : Text) : Text :=
  let own := ((extension? path).getD []).length
  setExtension (path.take (path.length - own)) extension

/-- Drops the names of the given components, and the void names before and after each. -/
def dropComponents : List Component → List Text → Option (List Text)
  | [], segments => some (segments.dropWhile isVoid)
  | expected :: rest, segments =>
    match segments.dropWhile isVoid with
    | segment :: after =>
      if componentOf segment = expected then dropComponents rest after else none
    | [] => none

def below? (base path : Text) : Option Text :=
  let lead := startComponent base
  if lead = [] then
    if startComponent path = [] then
      (dropComponents (components base) (segments path)).map (joinSegments <| dropTrailing ·)
    else if components base = [] then some (assemble (start path) (dropTrailing (body path)))
    else none
  else if startComponent path = lead then
    (dropComponents ((components base).drop 1) (body path)).map (joinSegments <| dropTrailing ·)
  else none

def normalize (path : Text) : Text :=
  (if isAbsolute path then "/" else "") ++ joinSegments ((segments path).filter (!isVoid ·))

end SfcJsx.Path
