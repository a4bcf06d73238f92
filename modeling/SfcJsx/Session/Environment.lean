import SfcJsx.OrderedMap
import SfcJsx.Source.LineIndex
import SfcJsx.Source.Span

/-!
What rendering may look at and does not change: the source, the classified names, the class map, and
the names bound by the loops and slots around the place that is rendered.
-/

namespace SfcJsx

/-- The names of a component that template expressions may mean. -/
structure Names where
  /-- Bindings read through `.value`. -/
  refs : List Text := []
  /-- Inputs read through `props.`. -/
  props : List Text := []
  deriving DecidableEq, Repr

def Names.isEmpty (names : Names) : Bool := names.refs.isEmpty && names.props.isEmpty

/-- Class names with the expression that stands for each, if one does. -/
abbrev ClassMap := OrderedMap (Option Text)

structure Environment where
  source : Text
  names : Names
  classes : ClassMap
  tool : Text
  /-- Names bound around the place, innermost scope first. -/
  scopes : List (List Text) := []
  deriving Repr

namespace Environment

def lines (env : Environment) : LineIndex := .ofText env.source

def inScope (env : Environment) (name : Text) : Bool := env.scopes.any (·.contains name)

def push (env : Environment) (names : List Text) : Environment :=
  { env with scopes := names :: env.scopes }

def pop (env : Environment) : Environment := { env with scopes := env.scopes.tail }

def classReference? (env : Environment) (name : Text) : Option Text :=
  (env.classes.find? name).join

def snippet (env : Environment) (span : Span) : Text := span.slice env.source

def position? (env : Environment) (span : Span) : Option Position :=
  (env.lines.position? span.start).map Position.oneBased

end Environment

end SfcJsx
