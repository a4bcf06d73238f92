import SfcJsx.Options.Emits
import SfcJsx.Options.Props
import SfcJsx.Script.Setup

/-!
The options of a component that follow from the declarations of its setup script.
-/

namespace SfcJsx.Options

open Script

structure Declared where
  props : Props := {}
  emits : Emits := .listed []
  /-- The type given to `defineSlots`. -/
  slotsType : Option Text := none
  needsPropType : Bool := false
  warnings : List Text := []
  deriving DecidableEq, Repr

/-- The body of an interface or type alias whose name stands at an index. -/
def bodyAt? (source name : Text) (index : Nat) : Option Text := do
  let before := Text.trimEnd (source.take index)
  let after : Text := source.drop (index + name.length)
  let body ← if before.endsWith "interface" then some (after.dropWhile (· != '{'))
    else if before.endsWith "type" then (Text.after? "=" after.trimStart).map Text.trimStart
    else none
  let (content, _) ← Code.balanced? '{' '}' body
  some ("\x7b" ++ content ++ "\x7d")

def typeBody? (name : Text) (sources : List Text) : Option Text :=
  if name.isIdentifier then
    sources.findSome? fun source =>
      (Code.occurrences source (Code.mask source) name 0).findSome? (bodyAt? source name)
  else none

def typeLiteral? (type : Text) (sources : List Text) : Option Text :=
  if type.trim.startsWith "\x7b" then some type.trim else typeBody? type.trim sources

def unresolved (kind type : Text) : Text :=
  kind ++ " type `" ++ type.trim ++ "` could not be resolved in this component; no runtime " ++
    kind ++ " were generated"

def declareProps (setup : Setup) (sources : List Text) : Declared :=
  match setup.props.bind Declaration.form with
  | some (.byType type) =>
    match typeLiteral? type sources with
    | some literal => { props := .ofType literal setup.propsDefaults }
    | none => { warnings := [unresolved "props" type] }
  | some (.byValue value) => { props := .ofValue value }
  | none => {}

def declareEmits (setup : Setup) (sources : List Text) (d : Declared) : Declared :=
  match setup.emits.bind Declaration.form with
  | some (.byType type) =>
    match typeLiteral? type sources with
    | some literal => { d with emits := .ofType literal }
    | none => { d with warnings := d.warnings ++ [unresolved "emits" type] }
  | some (.byValue value) => { d with emits := .ofValue value }
  | none => d

def variableOptions : List Text := ["get", "set", "local"]

def modelEntry (model : Model) : Entry × Bool :=
  let options := (model.options.map Entry.ofObject).getD []
  let type := if options.any (·.name = "type") then none
    else model.typeArgument.map RuntimeType.ofType
  let members := (type.map fun t => (⟨"type", t.expression⟩ : Entry)).toList ++
    options.filter fun option => !variableOptions.contains option.name
  let value : Text := if members.isEmpty then "null"
    else "\x7b " ++ List.intercalate ", " (members.map Entry.inline) ++ " \x7d"
  (⟨model.publicName, value⟩, type.any (·.needsPropType))

def declareModel (d : Declared) (model : Model) : Declared :=
  let (entry, needsPropType) := modelEntry model
  let d := { d with
    needsPropType := d.needsPropType || needsPropType
    emits := d.emits.add ("update:" ++ model.publicName) }
  if d.props.names.contains entry.name then
    { d with warnings := d.warnings ++ ["model `" ++ entry.name ++ "` is also declared as a prop"] }
  else { d with props := { d.props with entries := d.props.entries ++ [entry] } }

namespace Declared

def ofSetup (setup : Setup) (sources : List Text) : Declared :=
  let d := declareEmits setup sources (declareProps setup sources)
  let d := setup.models.foldl declareModel d
  { d with
    needsPropType := d.needsPropType || d.props.needsPropType
    slotsType := (setup.slots.bind Declaration.type?).map Text.trim }

def dropAnnotation (e : Entry) : Entry := { e with value := RuntimeType.dropAnnotations e.value }

/-- Without type annotations, for output that has no types. -/
def untyped (d : Declared) : Declared :=
  { d with
    props := { d.props with entries := d.props.entries.map dropAnnotation }
    emits := match d.emits with
      | .listed events => .listed events
      | .validators entries => .validators (entries.map dropAnnotation)
    needsPropType := false
    slotsType := none }

end Declared

end SfcJsx.Options
