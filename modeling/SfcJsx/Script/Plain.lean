import SfcJsx.Options.Entry
import SfcJsx.Script.Statement

/-!
A plain script, whose statements stay at module level and whose default export gives options of the
component.
-/

namespace SfcJsx.Script

open Options

inductive DefaultExport where
  | missing
  /-- An object literal, with the script that is left without it. -/
  | object (members : List Entry) (rest : Text)
  /-- Any other value, which stays where it is. -/
  | other
  deriving DecidableEq, Repr

namespace DefaultExport

/-- The default export whose keyword `export` stands at an index; none if it is another export. -/
def at? (body : Text) (index : Nat) : Option DefaultExport := do
  let value ← Text.after? "default" (Text.trimStart (body.drop (index + 6)))
  match Code.balanced? '{' '}' value.trimStart with
  | some (content, after) =>
    some (.object (Entry.ofObject ("\x7b" ++ content ++ "\x7d"))
      (body.take index ++ Code.afterStatement after))
  | none => some .other

def find (body : Text) : DefaultExport :=
  ((Code.occurrences body (Code.mask body) "export" 0).findSome? (at? body)).getD .missing

end DefaultExport

structure Plain where
  statements : ModuleStatements
  /-- Members of the default export. -/
  options : List Entry
  warnings : List Text
  deriving DecidableEq, Repr

namespace Plain

def leftInPlace : Text :=
  "the plain <script> default export is not an object literal and was left in place"

def read (content : Text) : Plain :=
  let statements := ModuleStatements.split false content
  match DefaultExport.find statements.body with
  | .object members rest => ⟨{ statements with body := rest }, members, []⟩
  | .other => ⟨statements, [], [leftInPlace]⟩
  | .missing => ⟨statements, [], []⟩

end Plain

end SfcJsx.Script
