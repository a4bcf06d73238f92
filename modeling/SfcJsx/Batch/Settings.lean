import SfcJsx.Batch.Error
import SfcJsx.Batch.Host
import SfcJsx.Json.Reader

/-!
The settings of a run: those of a configuration file, with the command line over them.
-/

namespace SfcJsx.Batch

structure Config where
  outDir : Option Text := none
  ignore : List Text := []
  fallbackCommand : Option Text := none
  /-- In seconds. -/
  fallbackTimeout : Option Nat := none
  adaptImports : Option Bool := none
  tool : Option Text := none
  deriving DecidableEq, Repr

namespace Config

def keys : List Text :=
  ["outDir", "ignore", "fallbackCommand", "fallbackTimeoutSecs", "rewriteVueImports", "toolName"]

def seconds? : Json → Option Nat
  | .number literal => if literal.all Char.isDigit then number? literal else none
  | _ => none

def assign? (config : Config) (field : Text × Json) : Option Config :=
  let (key, value) := field
  if key = "outDir" then (value.optional Json.text?).map fun v => { config with outDir := v }
  else if key = "ignore" then value.texts?.map fun v => { config with ignore := v }
  else if key = "fallbackCommand" then
    (value.optional Json.text?).map fun v => { config with fallbackCommand := v }
  else if key = "fallbackTimeoutSecs" then
    (value.optional seconds?).map fun v => { config with fallbackTimeout := v }
  else if key = "rewriteVueImports" then
    (value.optional Json.bool?).map fun v => { config with adaptImports := v }
  else if key = "toolName" then (value.optional Json.text?).map fun v => { config with tool := v }
  else none

def ofFields? (fields : List (Text × Json)) : Option Config :=
  if (fields.map (·.1)).Nodup then fields.foldlM assign? {} else none

/-- An object has each key once at most; an array has the values of the keys in order, and may end
early. -/
def ofJson? : Json → Option Config
  | .array values => if values.length ≤ keys.length then ofFields? (keys.zip values) else none
  | document => document.fields?.bind ofFields?

def parse? (source : Text) : Option Config := (Json.parse? source).bind ofJson?

def load (tree : FileTree) (path : Text) : Except RunError Config :=
  match tree.read path with
  | .error cause => .error (.unreadable path cause)
  | .ok source =>
    match parse? source with
    | some config => .ok config
    | none => .error (.badConfig path)

def fileName : Text := "vue-jsx.config.json"

end Config

structure Settings where
  /-- Absolute paths of files and directories to convert. -/
  paths : List Text
  /-- Where modules go, when not beside their components. -/
  outDir : Option Text
  ignore : List Text
  watch : Bool
  dryRun : Bool
  fallbackCommand : Option Text
  /-- In seconds. -/
  fallbackTimeout : Nat
  adaptImports : Bool
  tool : Text
  output : OutputFormat
  /-- The directory that reported paths are relative to. -/
  directory : Text
  deriving DecidableEq, Repr

namespace Settings

def defaultIgnore : List Text := ["**/node_modules/**", "**/dist/**"]

def defaultTimeout : Nat := 60

def defaultTool : Text := "vue-jsx-rs"

/-- Combines a command line with a configuration file from a directory; the command line wins. -/
def layer (host : Host) (a : Arguments) (config : Config) (base : Text) : Settings :=
  { paths := a.paths.map (host.absolute host.directory)
    outDir := (a.outDir.map (host.absolute host.directory)).orElse fun _ =>
      config.outDir.map (host.absolute base)
    ignore := config.ignore ++ a.ignore ++ defaultIgnore
    watch := a.watch
    dryRun := a.dryRun
    fallbackCommand := a.fallbackCommand.orElse fun _ => config.fallbackCommand
    fallbackTimeout :=
      (a.fallbackTimeout.orElse fun _ => config.fallbackTimeout).getD defaultTimeout
    adaptImports := config.adaptImports.getD true
    tool := config.tool.getD defaultTool
    output := a.output.getD .human
    directory := host.directory }

/-- The settings of a command line, with the configuration file that it names, or the one in the
working directory. -/
def resolve (host : Host) (tree : FileTree) (a : Arguments) : Except RunError Settings :=
  match a.config with
  | some path => do
    let path := host.absolute host.directory path
    let config ← Config.load tree path
    return layer host a config ((Path.parent? path).getD host.directory)
  | none =>
    let path := Path.join host.directory Config.fileName
    if tree.isFile path then do
      return layer host a (← Config.load tree path) host.directory
    else .ok (layer host a {} host.directory)

def ofWords (host : Host) (tree : FileTree) (words : List Text) : Except RunError Settings :=
  match Arguments.parse words with
  | .ok a => resolve host tree a
  | .error e => .error (.arguments e)

end Settings

end SfcJsx.Batch
