import SfcJsx.Expression.Segment
import SfcJsx.Session.Environment
import SfcJsx.Session.Findings

/-!
Template expressions as the setup scope reads them. Free names change: an input `n` is read as
`props.n`, a reference `n` as `n.value`, an object shorthand is written out, and the template's own
names such as `$emit` become members of the setup context. Everything else is copied.
-/

namespace SfcJsx

/-- A computation that reads an environment and adds to the findings. -/
abbrev Render (α : Type) := ReaderT Environment (StateM Findings) α

namespace Render

def warn (message : Text) (span : Span) : Render Unit := do
  let position := (← read).position? span
  modify (·.warnAt message (position.map (·.line)) (position.map (·.column)))

def useFramework (name : Text) : Render Unit := modify (·.useFramework name)

def leave (placeholder : (tool reason snippet : Text) → Text) (snippet reason : Text)
    (span : Span) : Render Text := do
  let env ← read
  let position := env.position? span
  let text := placeholder env.tool reason snippet
  let item : FallbackItem :=
    ⟨snippet, reason, position.map (·.line), position.map (·.column), text⟩
  modify fun f => { f with fallbackItems := f.fallbackItems ++ [item] }
  return text

def leaveInTag (snippet reason : Text) (span : Span) : Render Text :=
  leave Placeholder.inTag snippet reason span

def leaveAsChild (snippet reason : Text) (span : Span) : Render Text :=
  leave Placeholder.asChild snippet reason span

def withScope {α : Type} (names : List Text) (m : Render α) : Render α :=
  fun env => m (env.push names)

end Render

namespace Expression

def specialNames : List (Text × Text) :=
  [("$attrs", "attrs"), ("$slots", "slots"), ("$emit", "emit"), ("$props", "props")]

def advisoryNames : List Text :=
  ["$refs", "$el", "$parent", "$root", "$nextTick", "$forceUpdate", "$watch", "$options", "$data"]

def noteSpecial (used : UsedMembers) (name : Text) : UsedMembers :=
  if name = "$attrs" then { used with attrs := true }
  else if name = "$slots" then { used with slots := true }
  else if name = "$emit" then { used with emit := true }
  else used

/-- What a free name that is not the template's own becomes. -/
def classified (names : Names) (name : Text) (use : NameUse) : Text :=
  if use.place = .key then name
  else if names.props.contains name then
    if use.place = .shorthand then name ++ ": props." ++ name else "props." ++ name
  else if names.refs.contains name then
    if use.isUnwrapped then name
    else if use.place = .shorthand then name ++ ": " ++ name ++ ".value"
    else name ++ ".value"
  else name

def renderName (name : Text) (use : NameUse) : Render Text := do
  let env ← read
  if use.isBound || env.inScope name then return name
  match specialNames.lookup name with
  | some replacement =>
    modify fun f => { f with used := noteSpecial f.used name }
    return replacement
  | none =>
    if advisoryNames.contains name then
      modify (·.warnOnce name
        ("`" ++ name ++ "` has no equivalent in the generated component and was left as is"))
      return name
    else return classified env.names name use

def renderSegment (segment : Segment) : Render Text :=
  match segment.use with
  | none => pure segment.text
  | some use => renderName segment.text use

def qualifySegments (expression : Text) : Render Text := do
  return (← (segments expression).mapM renderSegment).flatten

def qualify (expression : Text) : Render Text := do
  if (← read).names.isEmpty && !expression.contains '$' then return expression
  else qualifySegments expression

end Expression

end SfcJsx
