import SfcJsx.Jsx.Loop
import SfcJsx.Jsx.Slot

/-!
Elements. A slot outlet is a call, `v-for` a call of the list helper, and any other element a JSX
element. Elements are rendered by nesting depth, so that the renderer for children is given.
-/

namespace SfcJsx.Jsx

open Markup

def builtInComponents : List (Text × Text) :=
  [("transition", "Transition"), ("transition-group", "TransitionGroup"),
   ("keep-alive", "KeepAlive"), ("teleport", "Teleport"), ("suspense", "Suspense")]

/-- The JSX name of an element; using a built-in component imports it. -/
def tagName (tag : Tag) : Render Text := do
  match builtInComponents.lookup (kebabCase tag.name) with
  | some name =>
    Render.useFramework name
    return name
  | none =>
    if tag.name.contains '-' && !tag.name.contains '.' then return pascalCase tag.name
    else return tag.name

def isDynamicComponent (tag : Tag) : Bool :=
  tag.name == "component".toList && ((tag.plain? "is").isSome || (tag.bound? "is").isSome)

def isFragment (tag : Tag) : Bool := tag.name == "template".toList && !tag.has .vSlot

def guarded (condition body : Text) : Text := condition ++ " ? " ++ body ++ " : null"

def renderContent (element : ElementRenderer) (tag : Tag) (children : List Node) :
    Render (List Text) :=
  if tag.has .vHtml || tag.has .vText then pure []
  else if tag.isComponent then renderComponentChildren element tag children
  else renderUnits element children

def renderPlainElement (element : ElementRenderer) (tag : Tag) (children : List Node) :
    Render Text := do
  if isDynamicComponent tag then
    let placeholder ← Render.leaveAsChild ((← read).snippet tag.span) "dynamic component" tag.span
    return "<>" ++ placeholder ++ "</>"
  let content := nonEmpty (← renderContent element tag children)
  if isFragment tag then
    match content with
    | [only] => return if only.head? = some '<' then only else "<>" ++ only ++ "</>"
    | _ => return "<>" ++ content.flatten ++ "</>"
  let name ← tagName tag
  let attributes ← renderAttributes tag
  let start : Text := "<" ++ name ++ attributes.flatMap (' ' :: ·)
  if content.isEmpty then return start ++ " />"
  else return start ++ ">" ++ content.flatten ++ "</" ++ name ++ ">"

/-- An element repeated by a loop; a condition on it is tested inside the loop. -/
def renderLoop (element : ElementRenderer) (loop : ForExpression) (tag : Tag)
    (children : List Node) : Render Text := do
  let source ← Expression.qualify loop.source
  let body ← Render.withScope loop.names do
    let body ← renderPlainElement element tag children
    if tag.has .vIf then
      return guarded (← Expression.qualify (Group.condition tag .vIf)) body
    else return body
  modify fun f => { f with usesListHelper := true }
  return listHelperName ++ "(" ++ source ++ ", " ++ loop.parameters ++ " => " ++ body ++ ")"

/-- An element whose loop cannot be read: it is rendered once, under its condition. -/
def renderUnlooped (element : ElementRenderer) (d : Directive) (tag : Tag) (children : List Node) :
    Render Text := do
  Render.warn ("could not parse `v-for=\"" ++ d.expressionText?.getD [] ++ "\"`") d.span
  if tag.has .vIf then
    let condition ← Expression.qualify (Group.condition tag .vIf)
    return guarded condition (← renderPlainElement element tag children)
  else renderPlainElement element tag children

/-- An element as an expression, given the renderer for the elements below it. -/
def renderElementWith (element : ElementRenderer) (tag : Tag) (children : List Node) :
    Render Text := do
  if Group.isOutlet tag then
    let outlet ← renderOutlet element tag children
    match (tag.directive? .vIf).bind Directive.expressionText? with
    | some condition => return guarded (← Expression.qualify condition) outlet
    | none => return outlet
  else
    match tag.directive? .vFor with
    | some d =>
      match ForExpression.parse? (d.expressionText?.getD []) with
      | some loop => renderLoop element loop tag children
      | none => renderUnlooped element d tag children
    | none => renderPlainElement element tag children

def renderElement : Nat → ElementRenderer
  | 0 => fun _ _ => pure []
  | depth + 1 => renderElementWith (renderElement depth)

def renderChildren (nodes : List Node) : Render (List Text) :=
  renderUnits (renderElement (Node.depthOfList nodes)) nodes

def renderTemplate (nodes : List Node) : Render Text := do
  match (← renderChildren nodes).filter (!·.isBlankText) with
  | [unit] => return unit
  | units => return "<>" ++ units.flatten ++ "</>"

end SfcJsx.Jsx
