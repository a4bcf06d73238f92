import SfcJsx.File.Path
import SfcJsx.Text.Blank

/-!
What a run knows of the machine it runs on.
-/

namespace SfcJsx.Batch

structure Host where
  /-- The working directory. -/
  directory : Text
  /-- What `~` stands for. -/
  home : Text
  /-- Where programs are looked up. -/
  searchPath : List Text := []
  /-- The files that can be run. -/
  programs : List Text := []
  deriving Repr

namespace Host

/-- A `~` that is the whole first name of a path stands for the home directory. -/
def expand (host : Host) (path : Text) : Text :=
  match path with
  | ['~'] => host.home
  | '~' :: '/' :: rest => host.home ++ '/' :: rest
  | _ => path

def absolute (host : Host) (base path : Text) : Text :=
  Path.normalize (Path.join base (host.expand path))

def isProgram (host : Host) (path : Text) : Bool :=
  host.programs.any (Path.same path) && !((Path.segments path).getLast?.all Path.isVoid)

/-- A program named by a path is seen from the working directory; any other is looked up. -/
def program? (host : Host) (name : Text) : Option Text :=
  let candidates :=
    if (Path.components name).length > 1 then [Path.join host.directory name]
    else host.searchPath.map fun base => Path.join base name
  candidates.find? host.isProgram

end Host

end SfcJsx.Batch
