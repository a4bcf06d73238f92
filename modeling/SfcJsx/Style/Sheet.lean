import SfcJsx.Markup.Component
import SfcJsx.Session.Environment
import SfcJsx.Style.Selector

/-!
Stylesheets beside a generated module. Scoped and module blocks make a sheet whose classes are
reached through `styles`; all other blocks make a sheet that applies everywhere.
-/

namespace SfcJsx.Style

open Markup

structure Sheet where
  /-- Relative to the generated module. -/
  filename : Text
  content : Text
  isModule : Bool
  deriving DecidableEq, Repr

/-- The sheets of a component, and the classes of the module sheet. -/
structure Sheets where
  sheets : List Sheet := []
  classes : ClassMap := {}
  deriving Repr

namespace Sheets

def module? (s : Sheets) : Option Sheet := s.sheets.find? (·.isModule)

def global? (s : Sheets) : Option Sheet := s.sheets.find? (!·.isModule)

end Sheets

def binding : Text := "styles"

def classReference (name : Text) : Text :=
  if name.isIdentifier then binding ++ "." ++ name else binding ++ "['" ++ name ++ "']"

/-- Selectors that reach into children have another spelling in module sheets. -/
def globalSelectors (css : Text) : Text :=
  Text.replace ":deep(" ":global(" (Text.replace ":v-deep(" ":global("
    (Text.replace "::v-deep(" ":global(" css))

def dropLineBreaks (t : Text) : Text :=
  ((t.dropWhile (· == '\n')).reverse.dropWhile (· == '\n')).reverse

/-- The contents of blocks that are not blank, with an empty line between them. -/
def joinBlocks (blocks : List StyleBlock) (change : Text → Text) : Text :=
  let contents := (blocks.map fun block => dropLineBreaks block.content).filter (!·.isBlankText)
  List.intercalate "\n\n" (contents.map change) ++ "\n"

def extension (blocks : List StyleBlock) : Text :=
  (blocks.findSome? StyleBlock.language).getD "css"

def moduleSheet (component : Text) (blocks : List StyleBlock) : Sheet :=
  ⟨component ++ ".module." ++ extension blocks, joinBlocks blocks globalSelectors, true⟩

def globalSheet (component : Text) (blocks : List StyleBlock) : Sheet :=
  ⟨component ++ "." ++ extension blocks, joinBlocks blocks id, false⟩

def Sheets.ofBlocks (component : Text) (blocks : List StyleBlock) : Sheets :=
  let (scopedBlocks, others) := blocks.partition fun block => block.isScoped || block.isModule
  let scopedSheets := if scopedBlocks.isEmpty then [] else [moduleSheet component scopedBlocks]
  let otherSheets := if others.isEmpty then [] else [globalSheet component others]
  { sheets := scopedSheets ++ otherSheets
    classes := .ofList ((scopedSheets.flatMap fun sheet => Style.classes sheet.content).map
      fun name => (name, some (classReference name))) }

end SfcJsx.Style
