import SfcJsx.Code.ObjectKey
import SfcJsx.Code.Word
import SfcJsx.Jsx.Case
import SfcJsx.Markup.Node
import SfcJsx.Session.Qualify
import SfcJsx.Text.Upper

/-!
Event listeners. `@click.stop="go"` becomes `onClick={withModifiers(go, ['stop'])}`. Some modifiers
belong to the listener's name, keys of keyboard events go through `withKeys`, all others through
`withModifiers`. A handler that is a member chain or a function is passed as it is; anything else is
wrapped in a function.
-/

namespace SfcJsx.Jsx

open Markup

def nameModifiers : List Text := ["capture", "once", "passive"]

def systemModifiers : List Text :=
  ["stop", "prevent", "self", "ctrl", "shift", "alt", "meta", "exact", "middle"]

def keyEvents : List Text := ["keydown", "keyup", "keypress"]

def listenerName (event suffix : Text) : Text := "on" ++ (camelCase event).capitalize ++ suffix

def isMemberChain (t : Text) : Bool :=
  (t.fields (· == '.')).all fun part => ((Text.before? ['?'] part).getD part).isIdentifier

def startsArrow (afterParameters : Text) : Bool :=
  match afterParameters.trimStart with
  | ':' :: annotated => Text.containsText annotated "=>"
  | rest => rest.startsWith "=>"

/-- Function expressions and arrow functions, `async` or not. -/
def isFunction (expression : Text) : Bool :=
  let t := expression.trim
  let t := match Text.after? "async" t with
    | some rest => if rest.head? = some ' ' ∨ rest.head? = some '(' then rest.trimStart else t
    | none => t
  if t.startsWith "function" then true
  else match t with
    | '(' :: _ =>
      match Code.balanced? '(' ')' t with
      | some (_, after) => startsArrow after
      | none => false
    | c :: rest => Text.isIdentStart c && startsArrow (rest.dropWhile Text.isIdentChar)
    | [] => false

def mentionsEvent (expression : Text) : Bool :=
  (Code.findIdentifier? expression (List.replicate expression.length true) "$event" 0).isSome

def operatorChars : List Char :=
  ['.', '?', ':', '+', '-', '*', '/', '%', '&', '|', '^', '=', '<', '>', ',', '(', '[']

/-- Whether a line goes on with the statement before it: one side ends or starts with an operator
other than `++` and `--`. -/
def continues (previous line : Text) : Bool :=
  let endsInUpdate := previous.endsWith "++" || previous.endsWith "--"
  let startsWithUpdate := line.startsWith "++" || line.startsWith "--"
  (previous.getLast?.any (operatorChars.contains ·) && !endsInUpdate) ||
    (line.head?.any (operatorChars.contains ·) && !startsWithUpdate)

/-- Puts the lines of one piece of code together into statements; `current` is the statement so far,
empty before the first line. -/
def joinLines (current : Text) : List Text → List Text
  | [] => if current.isEmpty then [] else [current]
  | line :: rest =>
    if current.isEmpty then joinLines line rest
    else if continues current line then
      let glue : Text := if line.startsWith "." || line.startsWith "?." then [] else " "
      joinLines (current ++ glue ++ line) rest
    else current :: joinLines line rest

/-- The statements of inline handler code. A `;` always ends one, a line break only where neither
side continues. -/
def statements (code : Text) : List Text :=
  (Code.splitTop [';'] false code).flatMap fun piece =>
    joinLines [] (Code.splitTop ['\n'] false piece)

def wrapHandler (expression qualified : Text) : Text :=
  let parameters : Text := if mentionsEvent expression then "($event)" else "()"
  match statements qualified with
  | first :: second :: rest =>
    parameters ++ " => \x7b " ++ List.intercalate "; " (first :: second :: rest) ++ "; \x7d"
  | _ => parameters ++ " => " ++ (Code.dropSemicolons qualified).trim

def handler (expression : Option Text) : Render Text :=
  match (expression.getD []).trim with
  | [] => pure "() => \x7b\x7d"
  | expression => do
    let qualified ← Expression.qualify expression
    if isMemberChain expression || isFunction expression then return qualified
    else return wrapHandler expression qualified

structure ListenerModifiers where
  suffix : Text := []
  keys : List Text := []
  others : List Text := []

def ListenerModifiers.ofList (isKeyEvent : Bool) (modifiers : List Text) : ListenerModifiers :=
  let isName (m : Text) := nameModifiers.contains m
  let isKey (m : Text) := !isName m && isKeyEvent && !systemModifiers.contains m
  { suffix := ((modifiers.filter isName).map Text.capitalize).flatten
    keys := modifiers.filter isKey
    others := modifiers.filter fun m => !isName m && !isKey m }

def wrapModifiers (helper : Text) (modifiers : List Text) (handler : Text) : Render Text := do
  if modifiers.isEmpty then return handler
  Render.useFramework helper
  let list := List.intercalate ", " (modifiers.map Code.quoted)
  return helper ++ "(" ++ handler ++ ", [" ++ list ++ "])"

def renderListener (d : Directive) : Render Text := do
  match d.argument with
  | none =>
    Render.useFramework "toHandlers"
    let object ← match d.expressionText? with
      | some expression => Expression.qualify expression
      | none => pure "\x7b\x7d"
    return "\x7b...toHandlers(" ++ object ++ ")\x7d"
  | some (.computed _) =>
    let snippet := (← read).snippet d.span
    Render.leaveInTag snippet "dynamic event name" d.span
  | some (.named event) =>
    let modifiers := ListenerModifiers.ofList (keyEvents.contains event) d.modifiers
    let value ← handler d.expressionText?
    let value ← wrapModifiers "withModifiers" modifiers.others value
    let value ← wrapModifiers "withKeys" modifiers.keys value
    return listenerName event modifiers.suffix ++ "=\x7b" ++ value ++ "\x7d"

end SfcJsx.Jsx
