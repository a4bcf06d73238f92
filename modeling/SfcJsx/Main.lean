import SfcJsx.Batch.Run

/-!
The command line. What a run is about is read into a tree of files, the run is made on the tree, and
what is new in it is written back. No command is started: fragments stay as placeholders.
-/

namespace SfcJsx.CommandLine

open Batch

abbrev Entries := List (FileTree.Location × FileTree.Entry)

def pathOf (location : FileTree.Location) : String :=
  String.ofList ('/' :: Path.joinSegments location)

def locationOf (path : Text) : FileTree.Location := (Path.segments path).filter (!Path.isVoid ·)

/-- Files that a run reads; of all others it only matters that they are there. -/
def isRead (location : FileTree.Location) : Bool :=
  let path := Path.joinSegments location
  SourceFile.isComponent path || Path.extension? path = some "json".toList

def content? (path : String) : IO (Option Text) := do
  let bytes ← IO.FS.readBinFile path
  return (String.fromUTF8? bytes).map String.toList

/-- What is at a place and below it. -/
partial def entriesAt (location : FileTree.Location) : IO Entries := do
  let path := (← IO.currentDir) / pathOf location
  if ← path.isDir then
    let names := (← path.readDir).toList.map fun entry => entry.fileName.toList
    let below ← names.mapM fun name => entriesAt (location ++ [name])
    return (location, .directory) :: below.flatten
  else if ← path.pathExists then
    let content ← if isRead location then content? (pathOf location) else pure none
    return [(location, .file content)]
  else return []

def entriesAbove (location : FileTree.Location) : IO Entries := do
  let places := (List.range location.length).map fun n => location.take n
  let found ← places.filterM fun place => do ((← IO.currentDir) / pathOf place).isDir
  return found.map fun place => (place, .directory)

def treeAt (paths : List Text) : IO FileTree := do
  let entries ← paths.mapM fun path => do
    return (← entriesAbove (locationOf path)) ++ (← entriesAt (locationOf path))
  return ⟨entries.flatten⟩

def programsOf (host : Host) (commandLine : Text) : IO (List Text) := do
  match commandLine.words with
  | [] => return []
  | name :: _ =>
    let candidates := (host.directory :: host.searchPath).map fun base =>
      Path.join base (host.expand name)
    candidates.filterM fun path => do
      let path := (← IO.currentDir) / String.ofList path
      return (← path.pathExists) && !(← path.isDir)

/-- Makes directories and writes files that a tree does not have. -/
def writeBack (before after : FileTree) : IO Unit := do
  let new := after.entries.reverse.filter fun e => before.entry? e.1 ≠ some e.2
  for (location, entry) in new do
    match entry with
    | .directory => IO.FS.createDirAll (pathOf location)
    | .file (some content) => IO.FS.writeFile (pathOf location) (String.ofList content)
    | .file none => pure ()

def printText (t : Text) : IO Unit := IO.print (String.ofList t)

def fail (e : RunError) : IO UInt32 := do
  IO.eprintln (String.ofList e.message)
  return 1

def convertAll (host : Host) (words : List Text) : IO UInt32 := do
  let configPath (a : Arguments) : Text :=
    host.absolute host.directory (a.config.getD Config.fileName)
  match Arguments.parse words with
  | .error e => fail (.arguments e)
  | .ok a =>
    match Settings.resolve host (← treeAt [configPath a]) a with
    | .error e => fail e
    | .ok settings =>
      let programs ← programsOf host (settings.fallbackCommand.getD [])
      let tree ← treeAt (configPath a :: settings.outDir.toList ++ settings.paths)
      match run { host with programs } (fun _ => { exitCode := 127 }) tree words with
      | .error e => fail e
      | .ok outcome =>
        writeBack tree outcome.tree
        match outcome.summary, outcome.output with
        | .ok summary, .ok output =>
          printText output
          return summary.exitCode.toUInt32
        | _, _ => return 101

end SfcJsx.CommandLine

open SfcJsx in
def main (words : List String) : IO UInt32 := do
  let directory := (← IO.currentDir).toString.toList
  let home := ((← IO.getEnv "HOME").getD "").toList
  let searchPath := Text.fields (· == ':') ((← IO.getEnv "PATH").getD "").toList
  CommandLine.convertAll { directory, home, searchPath } (words.map String.toList)
