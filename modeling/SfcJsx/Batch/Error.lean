import SfcJsx.Batch.Arguments
import SfcJsx.File.Tree

/-!
Why a run stops before its first file.
-/

namespace SfcJsx.Batch

inductive RunError where
  | arguments (error : ArgumentError)
  | unreadable (path : Text) (cause : FileError)
  | badConfig (path : Text)
  | badPattern (pattern : Text)
  /-- The command that resolves fragments is not there. -/
  | commandMissing (command : Text)
  deriving DecidableEq, Repr

def ArgumentError.message : ArgumentError → Text
  | .unknownOption => "unexpected argument"
  | .badValue => "an option has no value or one it does not know"
  | .badNumber => "not a number of seconds"
  | .repeated => "an option is given twice"
  | .unwantedValue => "a value for an option that takes none"
  | .helpRequested => "usage: vue-jsx-rs [OPTIONS] [PATHS]..."
  | .versionRequested => "vue-jsx-rs"

def RunError.message : RunError → Text
  | .arguments error => error.message
  | .unreadable path cause => "failed to read " ++ path ++ ": " ++ cause.message
  | .badConfig path => "invalid config " ++ path
  | .badPattern pattern => "invalid glob pattern: " ++ pattern
  | .commandMissing command => "fallback command not found: " ++ command

end SfcJsx.Batch
