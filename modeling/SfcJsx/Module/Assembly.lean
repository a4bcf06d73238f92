import SfcJsx.Jsx.Loop
import SfcJsx.Module.Indent
import SfcJsx.Options.Declared
import SfcJsx.Script.Plain
import SfcJsx.Session.Findings
import SfcJsx.Style.Sheet

/-!
The text of a generated module: imports, the plain script, the list helper, the component with its
setup function, and the exports of the setup script.
-/

namespace SfcJsx.Module

open Script Options

structure Parts where
  componentName : Text
  isTypescript : Bool
  /-- Whether component files are imported as the modules generated for them. -/
  adaptImports : Bool
  setup : Setup
  plain : Option Plain
  declared : Declared
  styles : Style.Sheets
  jsx : Text

def declarationNames : List Text :=
  ["defineProps", "defineEmits", "defineSlots", "defineExpose", "defineOptions", "defineModel",
   "withDefaults"]

def setupIndent : Text := "    "

/-- `const pattern = target;` where a declaration binds another name than the setup function. -/
def aliasLine (declaration : Option Declaration) (target : Text) : List Text :=
  match declaration.bind Declaration.binding with
  | some binding =>
    if binding = target then [] else ["const " ++ binding ++ " = " ++ target ++ ";"]
  | none => []

def propAccess (name : Text) : Text :=
  if name.isIdentifier then "props." ++ name else "props['" ++ name ++ "']"

def modelAccessor? (model : Model) : Option Text := do
  let holder ← model.holder
  guard holder.isIdentifier
  let name := model.publicName
  some ("const " ++ holder ++ " = computed(\x7b\n  get: () => " ++ propAccess name ++
    ",\n  set: (value) => emit('update:" ++ name ++ "', value),\n\x7d);")

def setupLines (setup : Setup) : List Text :=
  aliasLine setup.props "props" ++ aliasLine setup.emits "emit" ++ aliasLine setup.slots "slots" ++
    setup.models.filterMap modelAccessor?

def indentLine (line : Text) : Text := setupIndent ++ line ++ "\n"

def setupBody (setup : Setup) : Text :=
  let lead := ((setupLines setup).flatMap Text.lines).flatMap indentLine
  let body := reindent setup.body setupIndent
  let gap : Text := if body.isEmpty || lead.isEmpty then [] else "\n"
  let expose : Text := match setup.expose with
    | some declaration =>
      setupIndent ++ "expose(" ++ (declaration.value?.getD []).trim ++ ");\n"
    | none => []
  let whole := lead ++ gap ++ body ++ expose
  if whole.isEmpty then [] else whole ++ "\n"

def usedMembers (setup : Setup) (used : UsedMembers) : UsedMembers :=
  { emit := used.emit || setup.emits.isSome || setup.models.any (·.holder.isSome)
    slots := used.slots || setup.slots.isSome
    attrs := used.attrs
    expose := used.expose || setup.expose.isSome }

def memberNames (used : UsedMembers) : List Text :=
  ([(used.emit, "emit"), (used.slots, "slots"), (used.attrs, "attrs"), (used.expose, "expose")]
    : List (Bool × Text)).filterMap fun (isUsed, name) => if isUsed then some name else none

/-- Adds what the module around the template uses to what the template uses. -/
def complete (parts : Parts) (f : Findings) : Findings :=
  let accessors := parts.setup.models.filterMap modelAccessor?
  let f := accessors.foldl (fun f _ => f.useFramework "computed") f
  let f := { f with used := usedMembers parts.setup f.used }
  let f := f.useFramework "defineComponent"
  let f := if parts.isTypescript && parts.declared.needsPropType then f.useFrameworkType "PropType"
    else f
  if parts.isTypescript && parts.declared.slotsType.isSome then f.useFrameworkType "SlotsType"
  else f

/-- An import of the component's scripts in the module; declaration calls are not imported. -/
def adaptImport? (parts : Parts) (i : Import) : Option Import :=
  let i := if parts.adaptImports then { i with source := Import.componentSource i.source } else i
  if i.source = Import.frameworkModule then
    let i := { i with named := i.named.filter fun item => !declarationNames.contains item.imported }
    if i.localNames.isEmpty then none else some i
  else some i

def frameworkImport (parts : Parts) (f : Findings) : Import :=
  { source := Import.frameworkModule
    named := f.frameworkImports.map (⟨·, none, false⟩) ++
      if parts.isTypescript then f.frameworkTypes.map (⟨·, none, true⟩) else [] }

def styleImport? (parts : Parts) : Option Import :=
  parts.styles.module?.map fun sheet =>
    { source := "./" ++ sheet.filename, defaultName := some Style.binding }

def plainStatements (parts : Parts) : ModuleStatements :=
  (parts.plain.map (·.statements)).getD ⟨[], [], [], []⟩

def dropTypes (imports : List Import) : List Import :=
  (imports.filter (!·.typeOnly)).map fun i => { i with named := i.named.filter (!·.typeOnly) }

def moduleImports (parts : Parts) (f : Findings) : List Import :=
  let written := ((plainStatements parts).imports ++ parts.setup.imports).filterMap
    (adaptImport? parts)
  let merged := Import.merge ([frameworkImport parts f] ++ written ++ (styleImport? parts).toList)
  if parts.isTypescript then merged else dropTypes merged

def sideEffects (parts : Parts) : List Text :=
  let written := ((plainStatements parts).sideEffects ++ parts.setup.sideEffects).map Text.trim
  let sheet := parts.styles.global?.map fun sheet =>
    ("import './".toList ++ sheet.filename ++ "';" : Text)
  written.eraseDups ++ sheet.toList

def putOption (entry : Entry) : List Entry → List Entry
  | [] => [entry]
  | other :: rest =>
    if other.name = entry.name then { other with value := entry.value } :: rest
    else other :: putOption entry rest

/-- Options of the plain script's default export, then those of `defineOptions`. -/
def componentOptions (parts : Parts) : List Entry :=
  let declared := (parts.setup.options.bind Declaration.value?).map Entry.ofObject
  ((parts.plain.map (·.options)).getD [] ++ declared.getD []).foldl
    (fun options entry => putOption entry options) []

def optionLine (e : Entry) : Text := "  " ++ Code.objectKey e.name ++ ": " ++ e.value ++ ",\n"

def optionLines (parts : Parts) : Text :=
  let options := componentOptions parts
  let declared := parts.declared
  let name : Text := if options.any (·.name = "name") then []
    else "  name: '" ++ parts.componentName ++ "',\n"
  let props : Text := if declared.props.isEmpty then []
    else "  props: " ++ declared.props.render "  " ++ ",\n"
  let emits : Text := if declared.emits.isEmpty then []
    else "  emits: " ++ declared.emits.render "  " ++ ",\n"
  let slots : Text := match declared.slotsType with
    | some type => "  slots: Object as SlotsType<" ++ type ++ ">,\n"
    | none => []
  name ++ options.flatMap optionLine ++ props ++ emits ++ slots

def setupHead (used : UsedMembers) : Text :=
  match memberNames used with
  | [] => "  setup(props) \x7b\n"
  | names => "  setup(props, \x7b " ++ List.intercalate ", " names ++ " \x7d) \x7b\n"

/-- What the render function returns. JSX that is a braced expression needs an element around it. -/
def returned (jsx : Text) : Text :=
  if jsx.head? = some '{' then "<>" ++ jsx ++ "</>" else jsx

def renderFunction (jsx : Text) : Text :=
  "    return () => (\n      " ++ returned jsx ++ "\n    );\n"

def exportLines (exports : List Text) : Text :=
  if exports.isEmpty then [] else "\n" ++ exports.flatMap fun statement => statement.trim ++ ['\n']

def plainBody (parts : Parts) : Text :=
  match reindent (plainStatements parts).body [] with
  | [] => []
  | body => "\n" ++ body

def moduleStart (parts : Parts) (f : Findings) : Text :=
  (moduleImports parts f).flatMap Import.render ++
  (sideEffects parts).flatMap (· ++ ['\n']) ++
  plainBody parts ++
  (if f.usesListHelper then "\n" ++ Jsx.listHelper parts.isTypescript else []) ++
  "\nexport default defineComponent(\x7b\n" ++
  optionLines parts ++
  setupHead f.used ++ setupBody parts.setup

def assemble (parts : Parts) (f : Findings) : Text :=
  moduleStart parts f ++ renderFunction parts.jsx ++ "  \x7d,\n\x7d);\n" ++
    exportLines parts.setup.exports

end SfcJsx.Module
