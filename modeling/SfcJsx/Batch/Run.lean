import SfcJsx.Batch.Pass

/-!
Runs: what the words of a command line do to a tree of files.
-/

namespace SfcJsx.Batch

/-- Settings with all they need to be put to work. -/
structure Plan where
  settings : Settings
  ignore : List Glob
  /-- The program that resolves fragments. -/
  program : Option Text

namespace Plan

def make (host : Host) (tree : FileTree) (words : List Text) : Except RunError Plan := do
  let settings ← Settings.ofWords host tree words
  let program ← settings.fallbackCommand.mapM host.commandProgram
  let ignore ← ignorePatterns settings.ignore
  return { settings, ignore, program }

/-- One pass over the components that are there. A command is used when the settings name one. -/
def pass (plan : Plan) (command : Command) (cache : Option Cache) (tree : FileTree) : Pass :=
  let files := SourceFile.discover tree plan.ignore plan.settings.paths
  Pass.run plan.settings (plan.program.map fun _ => command) files cache tree

end Plan

structure Outcome where
  tree : FileTree
  requests : List Request
  summary : Except WordError Summary
  output : Except WordError Text
  deriving Repr

def Summary.exitCode (summary : Summary) : Nat := if summary.failed = 0 then 0 else 1

def run (host : Host) (command : Command) (tree : FileTree) (words : List Text) :
    Except RunError Outcome := do
  let plan ← Plan.make host tree words
  let pass := plan.pass command none tree
  return { tree := pass.tree, requests := pass.requests
           summary := pass.summary plan.settings, output := pass.output plan.settings }

end SfcJsx.Batch
