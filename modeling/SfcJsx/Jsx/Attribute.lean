import SfcJsx.Jsx.ClassName
import SfcJsx.Jsx.Listener

/-!
Attributes of an element, in source order. The class stands where the first written or bound class
stands; directives that shape the tree leave no attribute.
-/

namespace SfcJsx.Jsx

open Markup

def directiveValue (d : Directive) : Render Text :=
  match d.expressionText?.bind notBlank? with
  | some expression => Expression.qualify expression
  | none => pure "undefined"

def boundValue (d : Directive) (name : Text) : Render Text :=
  Expression.qualify ((d.expressionText?.bind notBlank?).getD (camelCase name))

def renderPlain (attr : PlainAttribute) : Text :=
  match attr.value with
  | some value => attr.name ++ "=\"" ++ Text.replace "\"" "&quot;" value ++ "\""
  | none => attr.name

/-- A binding. `:ref` names the reference itself, so its expression stays as it is. -/
def renderBind (d : Directive) : Render Text := do
  match d.argument with
  | none => return "\x7b..." ++ (← directiveValue d) ++ "\x7d"
  | some (.computed key) =>
    let key ← Expression.qualify key
    return "\x7b...\x7b [" ++ key ++ "]: " ++ (← directiveValue d) ++ " \x7d\x7d"
  | some (.named name) =>
    if name = "ref" then
      return "ref=\x7b" ++ (d.expressionText?.getD "undefined").trim ++ "\x7d"
    else
      let value ← boundValue d name
      let name := if d.hasModifier "camel" then camelCase name else name
      return name ++ "=\x7b" ++ value ++ "\x7d"

/-- A two-way binding; modifiers make its value an array. -/
def renderModel (d : Directive) : Render Text := do
  let value ← directiveValue d
  let modifiers := List.intercalate ", " (d.modifiers.map Code.quoted)
  match d.argumentName?, d.modifiers.isEmpty with
  | none, true => return "v-model=\x7b" ++ value ++ "\x7d"
  | some name, true => return "v-model:" ++ name ++ "=\x7b" ++ value ++ "\x7d"
  | none, false => return "v-model=\x7b[" ++ value ++ ", [" ++ modifiers ++ "]]\x7d"
  | some name, false =>
    return "v-model=\x7b[" ++ value ++ ", '" ++ name ++ "', [" ++ modifiers ++ "]]\x7d"

def renderAs (name : Text) (d : Directive) : Render Text := do
  return name ++ "=\x7b" ++ (← directiveValue d) ++ "\x7d"

def leaveDirective (reason : Text) (d : Directive) : Render Text := do
  Render.leaveInTag ((← read).snippet d.span) reason d.span

def renderDirective (d : Directive) : Render (Option Text) :=
  match d.kind with
  | .vIf | .vElseIf | .vElse | .vFor | .vSlot | .vPre | .vCloak => pure none
  | .vBind => some <$> renderBind d
  | .vOn => some <$> renderListener d
  | .vShow => some <$> renderAs "v-show" d
  | .vHtml => some <$> renderAs "innerHTML" d
  | .vText => some <$> renderAs "textContent" d
  | .vModel => some <$> renderModel d
  | .vMemo => some <$> leaveDirective "performance hint v-memo" d
  | .custom name => some <$> leaveDirective ("custom directive v-" ++ name) d

def renderAttribute : Attribute → Render (Option Text)
  | .plain attr =>
    if attr.name = "ref" then pure (some ("ref=\x7b" ++ attr.value.getD "undefined" ++ "\x7d"))
    else pure (some (renderPlain attr))
  | .directive d => renderDirective d

def isClass : Attribute → Bool
  | .plain attr => attr.name == "class".toList
  | .directive d => d.kind == .vBind && d.argumentName? == some "class".toList

/-- The attributes from here on; `classDone` tells whether the class is written. -/
def renderAttributesFrom (tag : Tag) (classDone : Bool) : List Attribute → Render (List Text)
  | [] => pure []
  | attr :: rest => do
    if isClass attr then
      if classDone then renderAttributesFrom tag true rest
      else
        let first ← renderClass tag
        return first.toList ++ (← renderAttributesFrom tag true rest)
    else
      let first ← renderAttribute attr
      return first.toList ++ (← renderAttributesFrom tag classDone rest)

def renderAttributes (tag : Tag) : Render (List Text) :=
  renderAttributesFrom tag false tag.attributes

end SfcJsx.Jsx
