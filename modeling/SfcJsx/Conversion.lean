import SfcJsx.ComponentName
import SfcJsx.Jsx.Element
import SfcJsx.Markup.Parser
import SfcJsx.Module.Assembly
import SfcJsx.Script.Local

/-!
Conversion of a single-file component into a module with its stylesheets.
-/

namespace SfcJsx

open Markup Script Options SfcJsx.Module

structure ConversionOptions where
  /-- The file the component was read from. -/
  filename : Option Text := none
  /-- The component's name, which otherwise follows from the file. -/
  componentName : Option Text := none
  /-- The name that placeholders give. -/
  tool : Text := "vue-jsx-rs"
  /-- Whether component files are imported as the modules generated for them. -/
  adaptImports : Bool := true
  /-- The class map, which otherwise follows from the stylesheets. -/
  classes : Option ClassMap := none

def ConversionOptions.name (o : ConversionOptions) : Text :=
  (o.componentName.orElse fun _ => o.filename.map ComponentName.ofPath).getD ComponentName.default

/-- A converted component. -/
structure Conversion where
  code : Text
  sheets : List Style.Sheet
  diagnostics : List Diagnostic
  fallbackItems : List FallbackItem
  usesListHelper : Bool
  isTypescript : Bool
  componentName : Text
  deriving Repr

def noSetup : Text :=
  "component has no <script setup>; only its template and options were converted"

/-- The names of a component that its template may use. Those of the plain script hide props as
well. -/
def componentNames (setup : Setup) (plain : Option Plain) (props : List Text) : Names :=
  let plainBody : Text := match plain with
    | some p => p.statements.body ++ "\n"
    | none => []
  let plainImports := (plain.map fun p => p.statements.imports).getD []
  classify (plainBody ++ setup.body) props setup.models (setup.imports ++ plainImports)

/-- What the blocks around the template of a component say. -/
structure Blocks where
  styles : Style.Sheets
  setup : Setup
  plain : Option Plain
  declared : Declared
  warnings : List Text

namespace Blocks

def ofComponent (c : Component) (o : ConversionOptions) : Blocks :=
  let script := (c.setupScript?.map (·.content)).getD []
  let plainSource := c.plainScript?.map (·.content)
  let setup := Setup.read script
  let plain := plainSource.map Plain.read
  let declared := Declared.ofSetup setup (script :: plainSource.toList)
  let declared := if c.isTypescript then declared else declared.untyped
  { styles := Style.Sheets.ofBlocks o.name c.styles
    setup, plain, declared
    warnings := (plain.map (·.warnings)).getD [] ++
      (if c.setupScript?.isNone && c.plainScript?.isSome then [noSetup] else []) ++
      declared.warnings }

def environment (b : Blocks) (c : Component) (o : ConversionOptions) : Environment :=
  { source := c.source
    names := componentNames b.setup b.plain b.declared.props.names
    classes := o.classes.getD b.styles.classes
    tool := o.tool }

def findings (b : Blocks) : Findings :=
  b.warnings.foldl (fun f warning => f.warnAt warning none none) {}

def renderTemplate (b : Blocks) (c : Component) (o : ConversionOptions) : Text × Findings :=
  Jsx.renderTemplate c.templateNodes (b.environment c o) b.findings

def parts (b : Blocks) (c : Component) (o : ConversionOptions) (jsx : Text) : Parts :=
  { componentName := o.name
    isTypescript := c.isTypescript
    adaptImports := o.adaptImports
    setup := b.setup
    plain := b.plain
    declared := b.declared
    styles := b.styles
    jsx }

end Blocks

/-- Converts a component that has been read, as far as it could be. -/
def convertComponent (c : Component) (o : ConversionOptions) : Conversion :=
  let blocks := Blocks.ofComponent c o
  let (jsx, f) := blocks.renderTemplate c o
  let parts := blocks.parts c o jsx
  let f := complete parts f
  { code := assemble parts f
    sheets := parts.styles.sheets
    diagnostics := f.diagnostics
    fallbackItems := f.fallbackItems
    usesListHelper := f.usesListHelper
    isTypescript := c.isTypescript
    componentName := o.name }

/-- Reads and converts a component; faults in its markup stop the conversion. -/
def convert (source : Text) (o : ConversionOptions) : Except (List Fault) Conversion :=
  match Component.parse source with
  | (c, []) => .ok (convertComponent c o)
  | (_, faults) => .error faults

end SfcJsx
