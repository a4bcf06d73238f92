import SfcJsx.Code.ObjectKey
import SfcJsx.Code.Word
import SfcJsx.Markup.Node
import SfcJsx.Session.Qualify

/-!
The class of an element. A written and a bound class become one attribute, and class names of the
module stylesheet become references to it.
-/

namespace SfcJsx.Jsx

open Markup

/-- A written class: plain names, or an expression once a name is mapped. -/
inductive WrittenClass where
  | literal (names : Text)
  | expression (code : Text)
  deriving DecidableEq, Repr

/-- A single mapped name is its reference; several names make a template literal. -/
def WrittenClass.ofText (env : Environment) (value : Text) : WrittenClass :=
  let names := value.words
  if names.all fun name => (env.classReference? name).isNone then
    .literal (List.intercalate " " names)
  else
    let part (name : Text) : Text := match env.classReference? name with
      | some reference => "$\x7b" ++ reference ++ "\x7d"
      | none => name
    match names with
    | [name] => .expression ((env.classReference? name).getD [])
    | _ => .expression ("`" ++ List.intercalate " " (names.map part) ++ "`")

/-- A member of a class object, with a mapped key computed. -/
def classMember (env : Environment) (member : Text) : Text :=
  let (key, value) : Text × Option Text := match Text.cut? ":" member with
    | some (key, value) => (key.trim, some value.trim)
    | none => (member, none)
  let name := (Code.unquote? key).getD key
  match env.classReference? name with
  | some reference => "[" ++ reference ++ "]: " ++ value.getD name
  | none => member

/-- A bound class; the keys of an object literal go through the class map. -/
def boundClass (expression : Text) : Render Text := do
  let env ← read
  let qualified ← Expression.qualify expression
  match (Text.after? "\x7b" qualified.trim).bind (Text.before? "\x7d") with
  | none => return qualified
  | some inner =>
    if env.classes.isEmpty then return qualified
    else
      let members := (Code.splitTop [','] false inner).map (classMember env)
      return "\x7b " ++ List.intercalate ", " members ++ " \x7d"

def notBlank? (t : Text) : Option Text := if t.isBlankText then none else some t

def renderClass (tag : Tag) : Render (Option Text) := do
  let written := ((tag.plain? "class").bind (·.value)).bind notBlank?
  let bound ← (((tag.bound? "class").bind Directive.expressionText?).bind notBlank?).mapM boundClass
  let written := written.map (WrittenClass.ofText (← read))
  match written, bound with
  | none, none => return none
  | some (.literal names), none => return some ("class=\"" ++ names ++ "\"")
  | some (.expression code), none => return some ("class=\x7b" ++ code ++ "\x7d")
  | none, some bound => return some ("class=\x7b" ++ bound ++ "\x7d")
  | some written, some bound =>
    let first : Text := match written with
      | .literal names => "'" ++ Code.escapeQuotes names ++ "'"
      | .expression code => code
    return some ("class=\x7b[" ++ first ++ ", " ++ bound ++ "]\x7d")

end SfcJsx.Jsx
