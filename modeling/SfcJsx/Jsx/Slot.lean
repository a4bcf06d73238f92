import SfcJsx.Jsx.Attribute
import SfcJsx.Jsx.Child

/-!
Slots. An outlet `<slot name="x" :item="item">fallback</slot>` calls the slot function it was given,
`slots.x?.({ item: item }) ?? fallback`; slot content passed to a component is an object of
functions.
-/

namespace SfcJsx.Jsx

open Markup

def slotAccessor (name : Text) : Text :=
  if name.isIdentifier then "slots." ++ name else "slots['" ++ name ++ "']"

def outletAccessor (tag : Tag) : Render Text := do
  match tag.bound? "name", tag.plain? "name" with
  | some bound, _ =>
    return "slots[" ++ (← Expression.qualify (bound.expressionText?.getD "'default'")) ++ "]"
  | none, some attr => return slotAccessor (attr.value.getD "default")
  | none, none => return slotAccessor "default"

def outletMember : Attribute → Render (Option Text)
  | .plain attr =>
    if attr.name = "name" then pure none
    else pure (some (Code.objectKey (camelCase attr.name) ++ ": '" ++
      Code.escapeQuotes (attr.value.getD []) ++ "'"))
  | .directive d =>
    if d.kind = .vBind then
      match d.argument with
      | some (.named name) =>
        if name = "name" then pure none
        else do return some (Code.objectKey (camelCase name) ++ ": " ++ (← boundValue d name))
      | some (.computed key) => do
        let key ← Expression.qualify key
        let value ← Expression.qualify (d.expressionText?.getD "undefined")
        return some ("[" ++ key ++ "]: " ++ value)
      | none => do
        return some ("..." ++ (← Expression.qualify (d.expressionText?.getD "\x7b\x7d")))
    else pure none

def nonEmpty (units : List Text) : List Text := units.filter (!·.isEmpty)

def renderOutlet (element : ElementRenderer) (tag : Tag) (children : List Node) : Render Text := do
  modify fun f => { f with used := { f.used with slots := true } }
  let accessor ← outletAccessor tag
  let members ← tag.attributes.filterMapM outletMember
  let arguments : Text :=
    if members.isEmpty then [] else "\x7b " ++ List.intercalate ", " members ++ " \x7d"
  let call := accessor ++ "?.(" ++ arguments ++ ")"
  let fallback := nonEmpty (← renderUnits element children)
  if fallback.all Text.isBlankText then return call
  else return call ++ " ?? " ++ asExpression fallback

/-- A slot function passed to a component. -/
structure SlotContent where
  key : Text
  parameters : Text
  body : Text

def SlotContent.render (slot : SlotContent) : Text :=
  slot.key ++ ": (" ++ slot.parameters ++ ") => " ++ slot.body

def slotObject (slots : List SlotContent) : Text :=
  "\x7b\x7b " ++ List.intercalate ", " (slots.map SlotContent.render) ++ " \x7d\x7d"

def slotKey (d : Directive) : Render Text :=
  match d.argument with
  | some (.named name) => pure (Code.objectKey name)
  | some (.computed expression) => do return "[" ++ (← Expression.qualify expression) ++ "]"
  | none => pure "default"

def slotContent (element : ElementRenderer) (d : Directive) (children : List Node) :
    Render SlotContent := do
  let key ← slotKey d
  let parameters := (d.expressionText?.getD []).trim
  let units ← Render.withScope (Code.patternNames parameters) (renderUnits element children)
  return ⟨key, parameters, asExpression (nonEmpty units)⟩

def slotTemplate? : Node → Option (Directive × List Node)
  | .element tag children =>
    if tag.name = "template" then (tag.directive? .vSlot).map (·, children) else none
  | _ => none

/-- The children of a component. With slot templates they are a slot object; what stands outside the
templates is the default slot, unless a template has that key. -/
def renderComponentChildren (element : ElementRenderer) (tag : Tag) (children : List Node) :
    Render (List Text) := do
  match tag.directive? .vSlot with
  | some d => return [slotObject [← slotContent element d children]]
  | none =>
    let templates := children.filterMap slotTemplate?
    if templates.isEmpty then renderUnits element children
    else
      let slots ← templates.mapM fun (d, content) => slotContent element d content
      let loose := children.filter fun child => (slotTemplate? child).isNone
      if loose.all Node.isBlank || slots.any (fun slot => slot.key == "default".toList) then
        return [slotObject slots]
      else
        let body := asExpression (nonEmpty (← renderUnits element loose))
        return [slotObject (slots ++ [⟨"default", [], body⟩])]

end SfcJsx.Jsx
