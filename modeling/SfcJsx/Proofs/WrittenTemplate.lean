import SfcJsx.Markup.TreeReader

/-!
Template trees as an author writes them. A written attribute has a name and perhaps a value; only
reading tells directives from plain attributes. `print` gives the markup of a tree and `toNode` the
tree that reading should give, with no regard to spans.
-/

namespace SfcJsx.Markup

def nowhere : Span := .emptyAt 0

def Attribute.unplaced : Attribute → Attribute
  | .plain attr => .plain { attr with span := nowhere }
  | .directive d =>
    .directive { d with
      span := nowhere, expression := d.expression.map fun e => { e with span := nowhere } }

def Tag.unplaced (tag : Tag) : Tag :=
  { tag with span := nowhere, attributes := tag.attributes.map Attribute.unplaced }

namespace Node

mutual

def unplaced : Node → Node
  | element tag children => element tag.unplaced (unplacedAll children)
  | text _ data => text nowhere data
  | interpolation _ expression => interpolation nowhere expression
  | comment _ data => comment nowhere data

def unplacedAll : List Node → List Node
  | [] => []
  | node :: rest => unplaced node :: unplacedAll rest

end

theorem unplacedAll_append (nodes more : List Node) :
    unplacedAll (nodes ++ more) = unplacedAll nodes ++ unplacedAll more := by
  induction nodes with
  | nil => rfl
  | cons node nodes ih => rw [List.cons_append, unplacedAll, unplacedAll, ih, List.cons_append]

end Node

structure WrittenAttribute where
  name : Text
  /-- Absent for an attribute without `=`. -/
  value : Option Text
  deriving DecidableEq, Repr

namespace WrittenAttribute

def printValue : Option Text → Text
  | some value => '=' :: '"' :: value ++ ['"']
  | none => []

def print (a : WrittenAttribute) : Text := ' ' :: a.name ++ printValue a.value

def printAll (attributes : List WrittenAttribute) : Text := attributes.flatMap print

/-- What the attribute is read as: a directive when its name is that of one. -/
def toAttribute (a : WrittenAttribute) : Attribute :=
  match DirectiveName.parse? a.name with
  | some ⟨kind, argument, modifiers⟩ =>
    .directive ⟨nowhere, kind, argument, a.value.map (⟨nowhere, ·⟩), modifiers⟩
  | none => .plain ⟨nowhere, a.name, a.value⟩

/-- A name of name characters that is not a `v-pre`, and no double quote in the value. -/
def isWellFormed (a : WrittenAttribute) : Bool :=
  !a.name.isEmpty && a.name.all Token.isNameChar && !a.value.any (·.contains '"') &&
    !(DirectiveName.parse? a.name).any (·.kind == .vPre)

end WrittenAttribute

/-- A tree of markup without places. -/
inductive Written where
  | element (name : Text) (attributes : List WrittenAttribute) (selfClosing : Bool)
      (children : List Written)
  | text (data : Text)
  | interpolation (expression : Text)
  | comment (data : Text)
  deriving Repr

namespace Written

def isText : Written → Bool
  | text _ => true
  | _ => false

def isTagName : Text → Bool
  | [] => false
  | c :: rest => c.isAlpha && rest.all Token.isNameChar

def isPlainText (t : Text) : Bool := t.all fun c => !(c == '<' || c == '&' || c == '{')

theorem isPlainText_iff {t : Text} : isPlainText t ↔ ∀ c ∈ t, c ≠ '<' ∧ c ≠ '&' ∧ c ≠ '{' := by
  simp [isPlainText, and_assoc]

mutual

def print : Written → Text
  | element name attributes selfClosing children =>
    '<' :: name ++ WrittenAttribute.printAll attributes ++
      if selfClosing then [' ', '/', '>']
      else if isVoid name then ['>']
      else '>' :: printAll children ++ '<' :: '/' :: name ++ ['>']
  | text data => data
  | interpolation expression => '{' :: '{' :: ' ' :: expression ++ [' ', '}', '}']
  | comment data => '<' :: '!' :: '-' :: '-' :: data ++ ['-', '-', '>']

def printAll : List Written → Text
  | [] => []
  | node :: rest => print node ++ printAll rest

end

mutual

def toNode : Written → Node
  | element name attributes selfClosing children =>
    .element ⟨nowhere, name, attributes.map WrittenAttribute.toAttribute, selfClosing⟩
      (toNodes children)
  | text data => .text nowhere data
  | interpolation expression => .interpolation nowhere expression
  | comment data => .comment nowhere data

def toNodes : List Written → List Node
  | [] => []
  | written :: rest => toNode written :: toNodes rest

end

mutual

/-- Whether the markup of a tree can be read back: names are names, values and texts do not hold
what would end them, and an element that has no closing tag has no children. -/
def isWellFormed : Written → Bool
  | element name attributes selfClosing children =>
    isTagName name && attributes.all WrittenAttribute.isWellFormed &&
      (!(selfClosing || isVoid name) || children.isEmpty) && areWellFormed children
  | text data => !data.isEmpty && isPlainText data
  | interpolation expression =>
    expression.trim == expression && !expression.containsText ['}', '}']
  | comment data => !data.containsText ['-', '-', '>']

/-- Two texts next to each other would be read as one. -/
def areWellFormed : List Written → Bool
  | [] => true
  | written :: rest =>
    isWellFormed written && !(written.isText && rest.head?.any isText) && areWellFormed rest

end

end Written

end SfcJsx.Markup
