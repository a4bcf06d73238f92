import SfcJsx.Batch.Cache
import SfcJsx.Batch.Discovery
import SfcJsx.Batch.Report
import SfcJsx.Batch.Resolver
import SfcJsx.Batch.Settings
import SfcJsx.Conversion

/-!
One pass over component files: all of them are read and converted before the first module is
written.
-/

namespace SfcJsx.Batch

/-- A path as it is reported: seen from the working directory, when it is below it. -/
def Settings.display (s : Settings) (path : Text) : Text := (Path.below? s.directory path).getD path

/-- A component that has been read. -/
structure Draft where
  file : SourceFile
  content : Text

structure Draft.Result where
  file : SourceFile
  conversion : Conversion

/-! Reading. -/

/-- The components to convert, and the reports of the others, after some of the files. -/
structure Intake where
  cache : Option Cache
  drafts : List Draft := []
  reports : List FileReport := []

namespace Intake

def add (s : Settings) (tree : FileTree) (intake : Intake) (file : SourceFile) : Intake :=
  let report (status : FileStatus) (errors : List FileProblem) : List FileReport :=
    intake.reports ++ [{ source := s.display file.path, status, errors }]
  match tree.read file.path with
  | .error e =>
    let message := "failed to read file: " ++ e.message
    { intake with reports := report .failed [{ message }] }
  | .ok content =>
    match intake.cache.map (·.check file.path content) with
    | some (true, cache) => { intake with cache := some cache, reports := report .unchanged [] }
    | some (false, cache) =>
      { intake with cache := some cache, drafts := intake.drafts ++ [⟨file, content⟩] }
    | none => { intake with drafts := intake.drafts ++ [⟨file, content⟩] }

end Intake

/-! Converting. -/

def faultProblems (content : Text) (faults : List Markup.Fault) : List FileProblem :=
  let index := LineIndex.ofText content
  faults.map fun fault =>
    let place := (index.position? fault.span.start).map (·.oneBased)
    { message := fault.kind.message, line := place.map (·.line), column := place.map (·.column) }

def Draft.convert (s : Settings) (draft : Draft) : Except FileReport Draft.Result :=
  let options : ConversionOptions :=
    { filename := some draft.file.path, tool := s.tool, adaptImports := s.adaptImports }
  match SfcJsx.convert draft.content options with
  | .ok conversion => .ok ⟨draft.file, conversion⟩
  | .error faults =>
    .error { source := s.display draft.file.path, status := .failed,
             errors := faultProblems draft.content faults }

/-! Resolving fragments. -/

def requestFor (s : Settings) (c : Conversion) : Request :=
  { tool := s.tool
    component := c.componentName
    items := c.fallbackItems.map fun item => ⟨item.snippet, item.reason, item.line, item.column⟩ }

/-- Puts replacements for the fragments of a conversion; what has none stays. -/
def replaceFragments (c : Conversion) (replacements : OrderedMap Text) : Conversion :=
  if replacements.isEmpty then c
  else { c with
    code := Placeholder.resolve c.code c.fallbackItems replacements
    fallbackItems := c.fallbackItems.filter fun item => !replacements.contains item.snippet }

/-! Writing. -/

structure Outputs where
  directory : Text
  modulePath : Text
  code : Text
  sheets : List (Text × Text)

def Outputs.of (s : Settings) (file : SourceFile) (c : Conversion) : Outputs :=
  let path := file.outputPath s.outDir c.isTypescript
  let directory := (Path.parent? path).getD "."
  { directory
    modulePath := path
    code := c.code
    sheets := c.sheets.map fun sheet => (Path.join directory sheet.filename, sheet.content) }

/-- Goes on with what could be done to a tree, or stops with a message about a path. -/
def orFail (path : Text) : Except FileError FileTree → Except Text FileTree
  | .ok tree => .ok tree
  | .error e => .error ("failed to write " ++ path ++ ": " ++ e.message)

/-- Writes files one after another, and gives the tree as far as they could be written. -/
def writeAll (tree : FileTree) : List (Text × Text) → FileTree × Option Text
  | [] => (tree, none)
  | (path, content) :: rest =>
    match orFail path (tree.write path content) with
    | .ok tree => writeAll tree rest
    | .error message => (tree, some message)

def Outputs.write (outputs : Outputs) (tree : FileTree) : FileTree × Option Text :=
  match orFail outputs.directory (tree.makeDirectoryAll outputs.directory) with
  | .ok tree => writeAll tree ((outputs.modulePath, outputs.code) :: outputs.sheets)
  | .error message => (tree, some message)

/-- A pass under way. -/
structure Progress where
  tree : FileTree
  /-- The requests sent, in order. -/
  requests : List Request := []
  reports : List FileReport := []

namespace Progress

/-- Resolves the fragments of a component, writes its module and reports it. -/
def finish (s : Settings) (command : Option Command) (p : Progress) (r : Draft.Result) : Progress :=
  let request := requestFor s r.conversion
  let c := match command with
    | some command => replaceFragments r.conversion (request.resolve command)
    | none => r.conversion
  let requests := if command.isSome then p.requests ++ request.sent else p.requests
  let outputs := Outputs.of s r.file c
  let (tree, failure) := if s.dryRun then (p.tree, none) else outputs.write p.tree
  let report : FileReport :=
    { source := s.display r.file.path
      status := if failure.isNone then .converted else .failed
      output := if failure.isNone then some (s.display outputs.modulePath) else none
      sheets := if failure.isNone then outputs.sheets.map fun (path, _) => s.display path else []
      errors := failure.toList.map fun message => { message }
      diagnostics := c.diagnostics
      unresolved := c.fallbackItems
      resolved := r.conversion.fallbackItems.length - c.fallbackItems.length }
  { tree, requests, reports := p.reports ++ [report] }

def step (s : Settings) (command : Option Command) (p : Progress)
    (draft : Except FileReport Draft.Result) : Progress :=
  match draft with
  | .ok result => p.finish s command result
  | .error report => { p with reports := p.reports ++ [report] }

end Progress

structure Pass where
  tree : FileTree
  cache : Option Cache
  requests : List Request
  /-- By source. -/
  reports : List FileReport
  deriving Repr

namespace Pass

/-- Converts files once. With a cache, files with the content of the last pass are left alone. -/
def run (s : Settings) (command : Option Command) (files : List SourceFile) (cache : Option Cache)
    (tree : FileTree) : Pass :=
  let intake := files.foldl (Intake.add s tree) { cache }
  let drafts := intake.drafts.map (·.convert s)
  let done := drafts.foldl (Progress.step s command) { tree, reports := intake.reports }
  { tree := done.tree
    cache := intake.cache
    requests := done.requests
    reports := done.reports.mergeSort fun a b => (compare a.source b.source).isLE }

def summary (pass : Pass) (s : Settings) : Except WordError Summary :=
  Summary.ofReports pass.reports s.dryRun

def output (pass : Pass) (s : Settings) : Except WordError Text :=
  (pass.summary s).map (s.output.render (pass.reports.filter (·.status ≠ .unchanged)))

end Pass

end SfcJsx.Batch
