import SfcJsx.Jsx.Sibling
import SfcJsx.Jsx.TextNode
import SfcJsx.Session.Qualify

/-!
Children in JSX, given how elements are rendered. Elements stand as they are, text is escaped, and
everything else goes into braces.
-/

namespace SfcJsx.Jsx

open Markup

/-- Renders an element, without regard to its siblings, as an expression. -/
abbrev ElementRenderer := Tag → List Node → Render Text

def asChild (expression : Text) : Text :=
  if expression.head? = some '<' then expression else "\x7b" ++ expression ++ "\x7d"

def asExpression : List Text → Text
  | [] => "null"
  | [only] => if only.head? = some '<' then only else "<>" ++ only ++ "</>"
  | units => "<>" ++ units.flatten ++ "</>"

def renderComment (data : Text) : Text :=
  "\x7b/* " ++ Text.replace "*/" "*\\/" data.trim ++ " */\x7d"

def renderNode (element : ElementRenderer) : Node → Render (Option Text)
  | .element tag children => do return some (asChild (← element tag children))
  | .text _ data => pure (renderText data)
  | .interpolation _ expression => do
    return some ("\x7b" ++ (← Expression.qualify expression) ++ "\x7d")
  | .comment _ data => pure (some (renderComment data))

/-- A branch: a `v-else` ends the chain, any other is followed by the branches after it. -/
def renderBranches (element : ElementRenderer) : List Branch → Render Text
  | [] => pure "null"
  | branch :: rest => do
    let body ← element branch.tag branch.children
    match branch.condition with
    | some condition =>
      let condition ← Expression.qualify condition
      return condition ++ " ? " ++ body ++ " : " ++ (← renderBranches element rest)
    | none => return body

def warnStray (tag : Tag) : Render Unit :=
  if tag.has .vElseIf || tag.has .vElse then
    Render.warn ("`v-else` on <" ++ tag.name ++ "> has no preceding `v-if`") tag.span
  else pure ()

def renderGroup (element : ElementRenderer) : Group → Render (Option Text)
  | .chain first links => do
    return some ("\x7b" ++ (← renderBranches element (first :: links.map (·.branch))) ++ "\x7d")
  | .single node => do
    if let .element tag _ := node then warnStray tag
    renderNode element node

def renderUnits (element : ElementRenderer) (nodes : List Node) : Render (List Text) :=
  (Group.ofNodes nodes).filterMapM (renderGroup element)

end SfcJsx.Jsx
