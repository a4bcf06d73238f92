import SfcJsx.Batch.Error
import SfcJsx.File.Glob

/-!
The component files that a run is about. A file that is named belongs to it; below a directory that
is named, those do that no ignore pattern matches.
-/

namespace SfcJsx.Batch

structure SourceFile where
  path : Text
  /-- The directory whose layout is kept in an output directory. -/
  root : Text
  deriving DecidableEq, Repr

def ignorePatterns (patterns : List Text) : Except RunError (List Glob) :=
  patterns.mapM fun pattern =>
    match Glob.parse? pattern with
    | some glob => .ok glob
    | none => .error (.badPattern pattern)

def isIgnored (patterns : List Glob) (path : Text) : Bool := patterns.any (·.isMatch path)

namespace SourceFile

def isComponent (path : Text) : Bool := Path.extension? path = some "vue".toList

def named (tree : FileTree) (patterns : List Glob) (path : Text) : List SourceFile :=
  match tree.at? path with
  | some (_, .file _) =>
    if isComponent path then [⟨path, (Path.parent? path).getD []⟩] else []
  | some (location, .directory) =>
    ((tree.filesBelow location).map fun (names, _) => Path.joinSegments names).filterMap
      fun (relative : Text) =>
        let file := Path.join path relative
        if isComponent file && !isIgnored patterns relative then some ⟨file, path⟩ else none
  | none => []

def dropRepeatsOf (kept : SourceFile) : List SourceFile → List SourceFile
  | [] => []
  | file :: rest =>
    if Path.same kept.path file.path then dropRepeatsOf kept rest
    else file :: dropRepeatsOf file rest

def dropRepeats : List SourceFile → List SourceFile
  | [] => []
  | file :: rest => file :: dropRepeatsOf file rest

/-- The components that paths name, in the order of their paths. A file that is named more than once
is the one that was named first. -/
def discover (tree : FileTree) (patterns : List Glob) (paths : List Text) : List SourceFile :=
  dropRepeats <| (paths.flatMap (named tree patterns)).mergeSort
    fun a b => (Path.order a.path b.path).isLE

/-- The module generated for a component. -/
def outputPath (file : SourceFile) (outDir : Option Text) (isTypescript : Bool) : Text :=
  let target := match outDir with
    | some base =>
      Path.join base <| (Path.below? file.root file.path).getD
        ((Path.fileName? file.path).getD "Component.vue")
    | none => file.path
  Path.withExtension target (if isTypescript then "tsx" else "jsx")

end SourceFile

end SfcJsx.Batch
