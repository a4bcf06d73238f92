import SfcJsx.Batch.Error
import SfcJsx.Batch.Host
import SfcJsx.Json.Reader
import SfcJsx.Json.Writer
import SfcJsx.OrderedMap

/-!
An outside command resolves fragments that have no fixed rendering: it is given a request as a JSON
document and answers with replacements, by fragment.
-/

namespace SfcJsx.Batch

structure RequestItem where
  snippet : Text
  reason : Text
  line : Option Nat := none
  column : Option Nat := none
  deriving DecidableEq, Repr

structure Request where
  tool : Text
  component : Text
  items : List RequestItem
  deriving DecidableEq, Repr

/-- What a command that has ended left behind. -/
structure Reply where
  output : Text := []
  errors : Text := []
  exitCode : UInt8 := 0
  deriving DecidableEq, Repr

abbrev Command := Request → Reply

inductive ResolverError where
  | failed (exitCode : UInt8) (errors : Text)
  /-- The answer is not what was asked for. -/
  | malformed
  deriving DecidableEq, Repr

def ResolverError.message : ResolverError → Text
  | .failed exitCode errors =>
    "fallback command exited with code " ++ Text.ofNat exitCode.toNat ++ ": " ++ errors
  | .malformed => "failed to parse fallback response"

def RequestItem.toJson (item : RequestItem) : Json :=
  let position (name : Text) (value : Option Nat) : List (Text × Json) :=
    value.toList.map fun n => (name, Json.ofNat n)
  Json.ofFields <| ("snippet", Json.ofText item.snippet) :: ("reason", Json.ofText item.reason) ::
    (position "line" item.line ++ position "column" item.column)

def Request.toJson (request : Request) : Json :=
  Json.ofFields [("tool", Json.ofText request.tool), ("component", Json.ofText request.component),
    ("items", Json.ofList RequestItem.toJson request.items)]

def Request.render (request : Request) : Text := request.toJson.compact

namespace Reply

def replacements? (value : Json) : Option (OrderedMap Text) := do
  let fields ← value.fields?
  return OrderedMap.ofList (← fields.mapM fun (name, value) => value.text?.map (name, ·))

/-- The replacements in an answer: a member of an object that may have others, or the one element of
an array. They may be missing. -/
def ofJson? : Json → Option (OrderedMap Text)
  | .array [] => some {}
  | .array [value] => replacements? value
  | .array _ => none
  | document => do
    let fields ← document.fields?
    match fields.filter fun (name, _) => name = "replacements" with
    | [] => return {}
    | [(_, value)] => replacements? value
    | _ => none

def read (reply : Reply) : Except ResolverError (OrderedMap Text) :=
  if reply.exitCode ≠ 0 then .error (.failed reply.exitCode reply.errors.trim)
  else
    match (Json.parse? reply.output.trim).bind ofJson? with
    | some replacements => .ok replacements
    | none => .error .malformed

end Reply

namespace Request

def send (request : Request) (command : Command) : Except ResolverError (OrderedMap Text) :=
  if request.items.isEmpty then .ok {} else (command request).read

def sent (request : Request) : List Request := if request.items.isEmpty then [] else [request]

def resolve (request : Request) (command : Command) : OrderedMap Text :=
  match request.send command with
  | .ok replacements => replacements
  | .error _ => {}

end Request

def Host.commandProgram (host : Host) (commandLine : Text) : Except RunError Text :=
  match commandLine.words with
  | [] => .error (.commandMissing "empty command")
  | name :: _ =>
    match host.program? (host.expand name) with
    | some path => .ok path
    | none => .error (.commandMissing (host.expand name))

end SfcJsx.Batch
