import SfcJsx.Batch.Arguments
import SfcJsx.Json.Writer
import SfcJsx.Session.Findings
import SfcJsx.Word

/-!
What a pass tells about its files, as text for people or as a JSON document.
-/

namespace SfcJsx.Batch

inductive FileStatus where
  | converted
  | unchanged
  | failed
  deriving DecidableEq, Repr

structure FileProblem where
  message : Text
  line : Option Nat := none
  column : Option Nat := none
  deriving DecidableEq, Repr

structure FileReport where
  source : Text
  status : FileStatus
  /-- The module, when it has been written. -/
  output : Option Text := none
  sheets : List Text := []
  errors : List FileProblem := []
  diagnostics : List Diagnostic := []
  /-- The fragments that are left as placeholders. -/
  unresolved : List FallbackItem := []
  resolved : Nat := 0
  deriving DecidableEq, Repr

structure Summary where
  files : Nat
  converted : Nat
  unchanged : Nat
  failed : Nat
  warnings : Nat
  resolved : Nat
  unresolved : Nat
  dryRun : Bool
  deriving DecidableEq, Repr

namespace Summary

def countResolved (reports : List FileReport) : Except WordError Nat :=
  reports.foldlM (fun n r => addWords UInt64.size n r.resolved) 0

/-- There is no summary where the resolved fragments are too many for a word of 64 bits. -/
def ofReports (reports : List FileReport) (dryRun : Bool) : Except WordError Summary := do
  let count (status : FileStatus) : Nat := reports.countP (·.status = status)
  return {
    files := reports.length
    converted := count .converted
    unchanged := count .unchanged
    failed := count .failed
    warnings := (reports.flatMap (·.diagnostics)).countP (·.severity = .warning)
    resolved := ← countResolved reports
    unresolved := (reports.flatMap (·.unresolved)).length
    dryRun }

def counted (n : Nat) (noun : Text) : Text :=
  Text.ofNat n ++ " " ++ noun ++ (if n = 1 then "" else "s")

def unchangedPart (n : Nat) : Text :=
  match n with
  | 0 => []
  | n => ", " ++ Text.ofNat n ++ " unchanged"

def render (s : Summary) : Text :=
  "====================================\nvue-jsx-rs " ++
    (if s.dryRun then "would convert " else "converted ") ++
    Text.ofNat s.converted ++ " of " ++ counted s.files "file" ++
    unchangedPart s.unchanged ++ " (" ++ Text.ofNat s.failed ++ " failed, " ++
    counted s.warnings "warning" ++ ", " ++ counted s.unresolved "unresolved fallback" ++ ")"

def toJson (s : Summary) : Json :=
  Json.ofFields [("fileCount", Json.ofNat s.files), ("converted", Json.ofNat s.converted),
    ("unchanged", Json.ofNat s.unchanged), ("failed", Json.ofNat s.failed),
    ("warnings", Json.ofNat s.warnings), ("resolved", Json.ofNat s.resolved),
    ("unresolved", Json.ofNat s.unresolved), ("dryRun", .bool s.dryRun)]

end Summary

namespace FileReport

def place (source : Text) (line column : Option Nat) : Text :=
  match line, column with
  | some line, some column => source ++ ":" ++ Text.ofNat line ++ ":" ++ Text.ofNat column
  | some line, none => source ++ ":" ++ Text.ofNat line
  | none, _ => source

def note (source : Text) (line column : Option Nat) (label message : Text) : Text :=
  place source line column ++ "\n" ++ label ++ ": " ++ message ++ "\n\n"

def severityLabel : Severity → Text
  | .warning => "Warning"
  | .info => "Info"

def notes (r : FileReport) : Text :=
  (r.errors.flatMap fun e => note r.source e.line e.column "Error" e.message) ++
  (r.diagnostics.flatMap fun d =>
    note r.source d.line d.column (severityLabel d.severity) d.message) ++
  (r.unresolved.flatMap fun item =>
    note r.source item.line item.column "Fallback" (item.reason ++ " (" ++ item.snippet ++ ")"))

def arrow (r : FileReport) : Text :=
  match r.status, r.output with
  | .converted, some output => r.source ++ " -> " ++ output ++ "\n"
  | _, _ => []

def statusName : FileStatus → Text
  | .converted => "converted"
  | .unchanged => "unchanged"
  | .failed => "failed"

def severityName : Severity → Text
  | .warning => "warning"
  | .info => "info"

def problemJson (e : FileProblem) : Json :=
  Json.ofFields [("message", Json.ofText e.message), ("line", Json.ofOption Json.ofNat e.line),
    ("column", Json.ofOption Json.ofNat e.column)]

def diagnosticJson (d : Diagnostic) : Json :=
  Json.ofFields [("severity", Json.ofText (severityName d.severity)),
    ("message", Json.ofText d.message), ("line", Json.ofOption Json.ofNat d.line),
    ("column", Json.ofOption Json.ofNat d.column)]

def itemJson (item : FallbackItem) : Json :=
  Json.ofFields [("snippet", Json.ofText item.snippet), ("reason", Json.ofText item.reason),
    ("line", Json.ofOption Json.ofNat item.line), ("column", Json.ofOption Json.ofNat item.column),
    ("placeholder", Json.ofText item.placeholder)]

def toJson (r : FileReport) : Json :=
  Json.ofFields [("source", Json.ofText r.source), ("output", Json.ofOption Json.ofText r.output),
    ("stylesheets", Json.ofList Json.ofText r.sheets),
    ("status", Json.ofText (statusName r.status)), ("errors", Json.ofList problemJson r.errors),
    ("diagnostics", Json.ofList diagnosticJson r.diagnostics),
    ("unresolved", Json.ofList itemJson r.unresolved), ("resolved", Json.ofNat r.resolved)]

end FileReport

namespace OutputFormat

def render (reports : List FileReport) (summary : Summary) : OutputFormat → Text
  | .human =>
    reports.flatMap FileReport.notes ++ reports.flatMap FileReport.arrow ++ summary.render ++ "\n"
  | .json =>
    Json.pretty 0 <| Json.ofFields
      [("files", Json.ofList FileReport.toJson reports), ("summary", summary.toJson)]

end OutputFormat

end SfcJsx.Batch
