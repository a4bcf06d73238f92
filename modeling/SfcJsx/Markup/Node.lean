import SfcJsx.Markup.Directive
import SfcJsx.Text.Blank

/-!
The template tree. Every node keeps the span it was read from.
-/

namespace SfcJsx.Markup

structure PlainAttribute where
  span : Span
  name : Text
  /-- Absent for an attribute without `=`. -/
  value : Option Text
  deriving DecidableEq, Repr

/-- An expression as written, with the place it was read from. -/
structure Bound where
  span : Span
  content : Text
  deriving DecidableEq, Repr

structure Directive where
  span : Span
  kind : DirectiveKind
  argument : Option DirectiveArgument
  expression : Option Bound
  modifiers : List Text
  deriving DecidableEq, Repr

namespace Directive

def argumentName? (d : Directive) : Option Text :=
  match d.argument with
  | some (.named name) => some name
  | _ => none

def expressionText? (d : Directive) : Option Text := d.expression.map (·.content)

def hasModifier (d : Directive) (modifier : Text) : Bool := d.modifiers.contains modifier

end Directive

inductive Attribute where
  | plain (attr : PlainAttribute)
  | directive (d : Directive)
  deriving DecidableEq, Repr

namespace Attribute

def span : Attribute → Span
  | plain attr => attr.span
  | directive d => d.span

def directive? : Attribute → Option Directive
  | plain _ => none
  | directive d => some d

def plain? : Attribute → Option PlainAttribute
  | plain attr => some attr
  | directive _ => none

end Attribute

structure Tag where
  span : Span
  name : Text
  attributes : List Attribute
  selfClosing : Bool
  deriving DecidableEq, Repr

namespace Tag

def directive? (tag : Tag) (kind : DirectiveKind) : Option Directive :=
  (tag.attributes.filterMap Attribute.directive?).find? (·.kind = kind)

def has (tag : Tag) (kind : DirectiveKind) : Bool := (tag.directive? kind).isSome

def plain? (tag : Tag) (name : Text) : Option PlainAttribute :=
  (tag.attributes.filterMap Attribute.plain?).find? (·.name = name)

def bound? (tag : Tag) (name : Text) : Option Directive :=
  (tag.attributes.filterMap Attribute.directive?).find?
    fun d => d.kind = .vBind && d.argumentName? = some name

def isComponent (tag : Tag) : Bool :=
  tag.name.contains '-' || tag.name.head?.any Char.isUpper

end Tag

inductive Node where
  | element (tag : Tag) (children : List Node)
  | text (span : Span) (data : Text)
  | interpolation (span : Span) (expression : Text)
  | comment (span : Span) (data : Text)
  deriving Repr, Inhabited

namespace Node

def span : Node → Span
  | element tag _ => tag.span
  | text span _ => span
  | interpolation span _ => span
  | comment span _ => span

def isBlank : Node → Bool
  | text _ data => data.isBlankText
  | _ => false

def element? : Node → Option (Tag × List Node)
  | element tag children => some (tag, children)
  | _ => none

mutual

def depth : Node → Nat
  | element _ children => depthOfList children + 1
  | _ => 1

def depthOfList : List Node → Nat
  | [] => 0
  | node :: rest => max (depth node) (depthOfList rest)

end

mutual

def tags : Node → List Tag
  | element tag children => tag :: tagsOfList children
  | _ => []

def tagsOfList : List Node → List Tag
  | [] => []
  | node :: rest => tags node ++ tagsOfList rest

end

end Node

structure Template where
  span : Span
  children : List Node
  deriving Repr

end SfcJsx.Markup
