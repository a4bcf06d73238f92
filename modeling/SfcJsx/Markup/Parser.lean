import SfcJsx.Markup.Component
import SfcJsx.Markup.TreeReader

/-!
Reading a whole component. At the top level only blocks count: the template, scripts and styles; an
unknown block is skipped, and so is everything between blocks. Scripts and styles are taken as they
are, up to their closing tag.
-/

namespace SfcJsx.Markup

namespace Reader

/-- The opening tag of a top-level block, whose attributes are never directives. -/
structure BlockTag where
  name : Text
  attributes : List Attribute
  selfClosing : Bool

namespace BlockTag

def has (block : BlockTag) (name : Text) : Bool :=
  block.attributes.any fun attr => attr.plain?.any (·.name = name)

def value? (block : BlockTag) (name : Text) : Option Text :=
  block.attributes.findSome? fun attr =>
    attr.plain?.bind fun plain => if plain.name = name then plain.value else none

end BlockTag

def readBlockTag (r : Reader) : BlockTag × Reader :=
  let name := r.advance.currentText
  let (attributes, after) := r.advance.advance.readAttributes true
  if after.kind = .selfClose then (⟨name, attributes, true⟩, after.advance)
  else (⟨name, attributes, false⟩, after.expect .tagClose)

/-- Reads a block as it is up to `</name`, and passes the closing tag. Gives the content's span. -/
def readRawBlock (r : Reader) (name : Text) : Span × Reader :=
  let start := r.tokenEnd
  let (stop, r) :=
    match Text.cut? ("</" ++ name) (r.ahead start) with
    | some (content, _) => (start + content.width, r)
    | none => (r.source.width, r.reportAt (.unclosedTag name) (.emptyAt start))
  let r := r.seek stop
  let r := if r.kind = .closingOpen then r.advance.advance.expect .tagClose else r
  (⟨start, stop⟩, r)

def checkLanguage (r : Reader) (block : BlockTag) (start : Nat) : Reader :=
  match block.value? "lang" with
  | some language =>
    if language = "html" then r
    else r.reportAt (.unsupportedTemplateLanguage language) ⟨start, r.offset⟩
  | none => r

def readTemplate (r : Reader) : Template × Reader :=
  let start := r.offset
  let (block, r) := r.readBlockTag
  let r := r.checkLanguage block start
  let (children, r) :=
    if block.selfClosing then ([], r)
    else Walk.run ⟨r, { start, name := block.name, attributes := [], literal := false }, []⟩
  (⟨⟨start, r.tokenEnd⟩, children⟩, r)

def readScript (r : Reader) : Option ScriptBlock × Reader :=
  let start := r.offset
  let (block, r) := r.readBlockTag
  if block.selfClosing then (none, r)
  else
    let (content, r) := r.readRawBlock "script"
    let language := block.value? "lang"
    (some {
      span := ⟨start, r.tokenEnd⟩
      contentSpan := content
      content := content.slice r.source
      isSetup := block.has "setup"
      isTypescript := language = some ("ts" : Text) || language = some ("tsx" : Text) }, r)

def readStyle (r : Reader) : Option StyleBlock × Reader :=
  let start := r.offset
  let (block, r) := r.readBlockTag
  if block.selfClosing then (none, r)
  else
    let (content, r) := r.readRawBlock "style"
    (some {
      span := ⟨start, r.tokenEnd⟩
      contentSpan := content
      content := content.slice r.source
      isScoped := block.has "scoped"
      isModule := block.has "module"
      language := block.value? "lang" }, r)

def skipBlock (r : Reader) : Reader :=
  let (block, r) := r.readBlockTag
  if block.selfClosing then r else (r.readRawBlock block.name).2

end Reader

namespace Component

def addTemplate (component : Component) (r : Reader) : Component × Reader :=
  let (template, after) := r.readTemplate
  if component.template.isSome then
    (component, after.reportAt (.duplicateBlock .template) ⟨r.offset, r.offset + 1⟩)
  else ({ component with template := some template }, after)

/-- There is room for one setup script and one plain script. -/
def addScript (component : Component) (r : Reader) : Component × Reader :=
  match r.readScript with
  | (none, after) => (component, after)
  | (some script, after) =>
    if component.scripts.any (·.isSetup = script.isSetup) then
      let block := if script.isSetup then UniqueBlock.setupScript else .plainScript
      (component, after.reportAt (.duplicateBlock block) script.span)
    else ({ component with scripts := component.scripts ++ [script] }, after)

def addStyle (component : Component) (r : Reader) : Component × Reader :=
  let (style, after) := r.readStyle
  ({ component with styles := component.styles ++ style.toList }, after)

def readNext (component : Component) (r : Reader) : Component × Reader :=
  match r.kind with
  | .tagOpen =>
    let name := r.nextName
    if name = "template" then component.addTemplate r
    else if name = "script" then component.addScript r
    else if name = "style" then component.addStyle r
    else if name = [] then (component, r.advance)
    else (component, r.skipBlock)
  | .commentOpen => (component, r.readComment.2)
  | _ => (component, r.advance)

theorem readNext_cases {component : Component} {r : Reader} {P : Component × Reader → Prop}
    (template : r.kind = .tagOpen → r.nextName = "template" → P (component.addTemplate r))
    (script : r.kind = .tagOpen → r.nextName = "script" → P (component.addScript r))
    (style : r.kind = .tagOpen → r.nextName = "style" → P (component.addStyle r))
    (other : P (component, r.advance)) (block : r.kind = .tagOpen → P (component, r.skipBlock))
    (comment : r.kind = .commentOpen → P (component, r.readComment.2)) :
    P (component.readNext r) := by
  unfold readNext
  split
  · next opens =>
    dsimp only
    split
    · next named => exact template opens named
    · split
      · next named => exact script opens named
      · split
        · next named => exact style opens named
        · split
          · exact other
          · exact block opens
  · next opens => exact comment opens
  · exact other

end Component

namespace Reader

variable (r : Reader)

theorem passes_readBlockTag : r.advance.Passes r.readBlockTag.2 := by
  have tag := (passes_readAttributes r.advance.advance true).of_advance
  unfold readBlockTag
  dsimp only
  split
  · exact tag.trans (passes_advance _)
  · exact tag.trans (passes_expect _ _)

theorem passes_seek_closing (stop : Nat) : r.Passes
    (if (r.seek stop).kind = .closingOpen then (r.seek stop).advance.advance.expect .tagClose
      else r.seek stop) := by
  have seeks := passes_seek r stop
  split
  · exact seeks.trans (passes_expect _ _).of_advance.of_advance
  · exact seeks

theorem passes_readRawBlock (name : Text) : r.Passes (r.readRawBlock name).2 := by
  unfold readRawBlock
  dsimp only
  split
  · exact passes_seek_closing r _
  · exact (passes_reportAt r _ _).trans (passes_seek_closing _ _)

theorem passes_checkLanguage (block : BlockTag) (start : Nat) :
    r.Passes (r.checkLanguage block start) := by
  unfold checkLanguage
  split
  · split
    · exact .refl r
    · exact passes_reportAt r _ _
  · exact .refl r

theorem goesOn_readTemplate : r.advance.GoesOn r.readTemplate.2 := by
  have tag := (passes_readBlockTag r).trans (passes_checkLanguage _ r.readBlockTag.1 r.offset)
  unfold readTemplate
  dsimp only
  split
  · exact tag.goesOn
  · exact tag.goesOn.trans (Walk.goesOn_run ⟨_, _, []⟩)

theorem passes_readScript : r.advance.Passes r.readScript.2 := by
  unfold readScript
  dsimp only
  split
  · exact passes_readBlockTag r
  · exact (passes_readBlockTag r).trans (passes_readRawBlock _ _)

theorem passes_readStyle : r.advance.Passes r.readStyle.2 := by
  unfold readStyle
  dsimp only
  split
  · exact passes_readBlockTag r
  · exact (passes_readBlockTag r).trans (passes_readRawBlock _ _)

theorem passes_skipBlock : r.advance.Passes r.skipBlock := by
  unfold skipBlock
  dsimp only
  split
  · exact passes_readBlockTag r
  · exact (passes_readBlockTag r).trans (passes_readRawBlock _ _)

end Reader

namespace Component

open Reader

theorem passes_addScript (component : Component) (r : Reader) :
    r.advance.Passes (component.addScript r).2 := by
  have passes := passes_readScript r
  unfold addScript
  split
  · next found => rwa [found] at passes
  · next found =>
    rw [found] at passes
    split
    · exact passes.trans (passes_reportAt _ _ _)
    · exact passes

theorem goesOn_readNext (component : Component) (r : Reader) :
    r.advance.GoesOn (component.readNext r).2 := by
  refine readNext_cases (P := fun last => r.advance.GoesOn last.2) (fun _ _ => ?_)
    (fun _ _ => (passes_addScript component r).goesOn) (fun _ _ => (passes_readStyle r).goesOn)
    (.refl _) (fun _ => (passes_skipBlock r).goesOn) fun _ => (passes_readComment r).goesOn
  unfold addTemplate
  dsimp only
  split
  · exact (goesOn_readTemplate r).trans (passes_reportAt _ _ _).goesOn
  · exact goesOn_readTemplate r

def readAll (component : Component) (r : Reader) : Component × Reader :=
  if _atEnd : r.kind = .endOfFile then (component, r)
  else
    let next := component.readNext r
    next.1.readAll next.2
termination_by r.tokens.length
decreasing_by exact (goesOn_readNext component r).length_lt _atEnd

theorem goesOn_readAll (component : Component) (r : Reader) : r.GoesOn (component.readAll r).2 := by
  fun_induction readAll component r with
  | case1 component r => exact .refl r
  | case2 component r atEnd next ih => exact (goesOn_readNext component r).of_advance.trans ih

def parse (source : Text) : Component × List Fault :=
  let (component, r) := readAll { source } (.ofSource source)
  (component, r.faults)

end Component

end SfcJsx.Markup
