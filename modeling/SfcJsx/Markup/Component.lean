import SfcJsx.Markup.Node

/-!
A single-file component: at most one template, script blocks and style blocks in source order.
-/

namespace SfcJsx.Markup

structure ScriptBlock where
  span : Span
  contentSpan : Span
  content : Text
  isSetup : Bool
  isTypescript : Bool
  deriving DecidableEq, Repr

structure StyleBlock where
  span : Span
  contentSpan : Span
  content : Text
  isScoped : Bool
  isModule : Bool
  language : Option Text
  deriving DecidableEq, Repr

structure Component where
  source : Text
  template : Option Template := none
  scripts : List ScriptBlock := []
  styles : List StyleBlock := []
  deriving Repr

namespace Component

def setupScript? (component : Component) : Option ScriptBlock :=
  component.scripts.find? (·.isSetup)

def plainScript? (component : Component) : Option ScriptBlock :=
  component.scripts.find? (!·.isSetup)

def templateNodes (component : Component) : List Node :=
  (component.template.map (·.children)).getD []

def isTypescript (component : Component) : Bool := component.scripts.any (·.isTypescript)

def textOf (component : Component) (span : Span) : Text := span.slice component.source

def tags (component : Component) : List Tag :=
  match component.template with
  | some template => Node.tagsOfList template.children
  | none => []

end Component

end SfcJsx.Markup
