import SfcJsx.Text.Basic

/-!
The words of a command line. Options and paths may be mixed; after `--` every word is a path. An
option takes the next word as its value, unless that looks like an option itself, or the text after
`=` in its own word.
-/

namespace SfcJsx.Batch

inductive OutputFormat where
  | human
  | json
  deriving DecidableEq, Repr

def OutputFormat.ofText? (t : Text) : Option OutputFormat :=
  if t = "human" then some .human
  else if t = "json" then some .json
  else none

inductive ArgumentError where
  | unknownOption
  /-- A value that the option does not know, or no value. -/
  | badValue
  | badNumber
  /-- An option that stands for one value, twice. -/
  | repeated
  /-- A value for an option that takes none. -/
  | unwantedValue
  | helpRequested
  | versionRequested
  deriving DecidableEq, Repr

/-- Options without a value. -/
inductive Switch where
  | watch
  | dryRun
  | verbose
  | help
  | version
  deriving DecidableEq, Repr

/-- Options with a value. -/
inductive Parameter where
  | outDir
  | ignore
  | fallbackCommand
  | fallbackTimeout
  | output
  | config
  deriving DecidableEq, Repr

def switches : List (Text × Switch) :=
  [("watch", .watch), ("dry-run", .dryRun), ("verbose", .verbose), ("help", .help),
   ("version", .version)]

def switchLetters : List (Char × Switch) := [('v', .verbose), ('h', .help), ('V', .version)]

def parameters : List (Text × Parameter) :=
  [("out-dir", .outDir), ("ignore", .ignore), ("fallback-command", .fallbackCommand),
   ("fallback-timeout", .fallbackTimeout), ("output", .output), ("config", .config)]

structure Arguments where
  paths : List Text := []
  outDir : Option Text := none
  ignore : List Text := []
  watch : Bool := false
  dryRun : Bool := false
  fallbackCommand : Option Text := none
  /-- In seconds. -/
  fallbackTimeout : Option Nat := none
  output : Option OutputFormat := none
  config : Option Text := none
  verbose : Bool := false
  deriving DecidableEq, Repr

/-- Digits with an optional plus sign, below 2^64. -/
def number? (t : Text) : Option Nat :=
  let digits : Text := match t with
    | '+' :: rest => rest
    | t => t
  if digits.isEmpty || !digits.all Char.isDigit then none
  else
    let value := digits.foldl (fun n c => 10 * n + (c.toNat - '0'.toNat)) 0
    if value < UInt64.size then some value else none

namespace Arguments

def flip (a : Arguments) : Switch → Except ArgumentError Arguments
  | .watch => if a.watch then .error .repeated else .ok { a with watch := true }
  | .dryRun => if a.dryRun then .error .repeated else .ok { a with dryRun := true }
  | .verbose => if a.verbose then .error .repeated else .ok { a with verbose := true }
  | .help => .error .helpRequested
  | .version => .error .versionRequested

def once {α β : Type} (current : Option α) (next : Except ArgumentError β) :
    Except ArgumentError β :=
  if current.isSome then .error .repeated else next

def assign (a : Arguments) (parameter : Parameter) (value : Text) :
    Except ArgumentError Arguments :=
  match parameter with
  | .outDir => once a.outDir (.ok { a with outDir := some value })
  | .ignore => .ok { a with ignore := a.ignore ++ [value] }
  | .fallbackCommand => once a.fallbackCommand (.ok { a with fallbackCommand := some value })
  | .fallbackTimeout => once a.fallbackTimeout <|
    match number? value with
    | some seconds => .ok { a with fallbackTimeout := some seconds }
    | none => .error .badNumber
  | .output => once a.output <|
    match OutputFormat.ofText? value with
    | some format => .ok { a with output := some format }
    | none => .error .badValue
  | .config => once a.config (.ok { a with config := some value })

end Arguments

/-- Words by their shape. -/
inductive Word where
  | separator
  | named (name : Text) (value : Option Text)
  | letters (letters : List Char)
  | plain

def Word.ofText (t : Text) : Word :=
  match t with
  | ['-', '-'] => .separator
  | '-' :: '-' :: rest =>
    match Text.cut? "=" rest with
    | some (name, value) => .named name (some value)
    | none => .named rest none
  | '-' :: c :: rest => .letters (c :: rest)
  | _ => .plain

/-- The arguments so far and the option that has been read last, which takes effect when the next
one is met: it may be without its value yet. -/
structure Reading where
  arguments : Arguments := {}
  pending : Option (Parameter × Option Text) := none

namespace Reading

def settle (r : Reading) : Except ArgumentError Arguments :=
  match r.pending with
  | none => .ok r.arguments
  | some (_, none) => .error .badValue
  | some (parameter, some value) => r.arguments.assign parameter value

def flip (r : Reading) (switch : Switch) : Except ArgumentError Reading := do
  return { arguments := ← (← r.settle).flip switch }

def flipLetter (r : Reading) (letter : Char) : Except ArgumentError Reading :=
  match switchLetters.lookup letter with
  | some switch => r.flip switch
  | none => .error .unknownOption

def named (r : Reading) (name : Text) (value : Option Text) : Except ArgumentError Reading :=
  match switches.lookup name, parameters.lookup name, value with
  | some _, _, some _ => .error .unwantedValue
  | some switch, _, none => r.flip switch
  | none, some parameter, some value => do
    return { arguments := ← (← r.settle).assign parameter value }
  | none, some parameter, none => do
    return { arguments := ← r.settle, pending := some (parameter, none) }
  | none, none, _ => .error .unknownOption

def addPaths (r : Reading) (paths : List Text) : Except ArgumentError Reading := do
  let arguments ← r.settle
  return { arguments := { arguments with paths := arguments.paths ++ paths } }

def plain (r : Reading) (word : Text) : Except ArgumentError Reading :=
  match r.pending with
  | some (parameter, none) => .ok { r with pending := some (parameter, some word) }
  | _ => r.addPaths [word]

def words (r : Reading) : List Text → Except ArgumentError Reading
  | [] => .ok r
  | word :: rest =>
    match Word.ofText word with
    | .separator => r.addPaths rest
    | .named name value => do words (← r.named name value) rest
    | .letters letters => do words (← letters.foldlM flipLetter r) rest
    | .plain => do words (← r.plain word) rest

end Reading

/-- Reads the words of a command line; without paths it is about the current directory. -/
def Arguments.parse (words : List Text) : Except ArgumentError Arguments := do
  let arguments ← (← Reading.words {} words).settle
  return { arguments with paths := if arguments.paths.isEmpty then ["."] else arguments.paths }

end SfcJsx.Batch
