import SfcJsx.Options.RuntimeType
import SfcJsx.Options.TypeMember

/-!
Props as a component declares them at run time.
-/

namespace SfcJsx.Options

structure Props where
  entries : List Entry := []
  needsPropType : Bool := false
  deriving DecidableEq, Repr

namespace Props

def isEmpty (props : Props) : Bool := props.entries.isEmpty

def names (props : Props) : List Text := props.entries.map (·.name)

def render (props : Props) (indent : Text) : Text := Entry.renderObject props.entries indent

def entryOf (defaults : List Entry) (member : TypeMember) : Entry :=
  let required : Text := if member.isOptional then "false" else "true"
  let default : Text := match defaults.find? (·.name = member.name) with
    | some entry => ", default: " ++ entry.value
    | none => []
  ⟨member.name, "\x7b type: " ++ (RuntimeType.ofType member.type).expression ++ ", required: " ++
    required ++ default ++ " \x7d"⟩

def ofType (literal : Text) (defaults : Option Text) : Props :=
  let members := TypeMember.ofLiteral literal
  let defaults := (defaults.map Entry.ofObject).getD []
  { entries := members.map (entryOf defaults)
    needsPropType := members.any fun member => (RuntimeType.ofType member.type).needsPropType }

def ofValue (literal : Text) : Props :=
  let literal := literal.trim
  { entries := if literal.startsWith "[" then (Entry.namesOfArray literal).map (⟨·, "null"⟩)
      else Entry.ofObject literal
    needsPropType := literal.containsText "PropType" }

end Props

end SfcJsx.Options
