import SfcJsx.Code.ObjectKey
import SfcJsx.Code.Split
import SfcJsx.Code.Word

/-!
Entries of object literals: reading `{ key: value, … }` and `['name', …]`, and writing an object.
-/

namespace SfcJsx.Options

structure Entry where
  name : Text
  value : Text
  deriving DecidableEq, Repr

namespace Entry

def render (indent : Text) (e : Entry) : Text :=
  indent ++ "  " ++ Code.objectKey e.name ++ ": " ++ e.value ++ ",\n"

def inline (e : Entry) : Text := e.name ++ ": " ++ e.value

/-- One line an entry; `indent` is that of the line which the object starts on. -/
def renderObject (entries : List Entry) (indent : Text) : Text :=
  if entries.isEmpty then "\x7b\x7d"
  else "\x7b\n" ++ entries.flatMap (render indent) ++ indent ++ "\x7d"

def dropBraces (literal : Text) : Text :=
  ((Text.after? "\x7b" literal.trim).bind (Text.before? "\x7d")).getD literal.trim

def cutKey? (member : Text) : Option (Text × Text) :=
  match member with
  | [] => some ([], [])
  | quote :: rest =>
    if quote = '\'' ∨ quote = '"' then
      (Text.cut? [quote] rest).map fun (name, after) => (quote :: name ++ [quote], after)
    else some (member.breakAt fun c => c == ':' || c == '(' || Text.isBlank c)

/-- The value after a key: what follows the colon, a method as an arrow function, or the name itself
where the key stands alone. -/
def memberValue? (key rest : Text) : Option Text :=
  match rest with
  | [] => some key
  | ':' :: value => some (Text.trim value)
  | '(' :: _ =>
    (Code.balanced? '(' ')' rest).map fun (parameters, body) =>
      "(" ++ parameters ++ ") => " ++ body.trimStart
  | _ => none

def ofMember? (member : Text) : Option Entry := do
  guard (!member.startsWith "...")
  let (written, rest) ← cutKey? member
  let key := (Code.unquote? written).getD written
  let value ← memberValue? key rest.trimStart
  some ⟨key, value⟩

def ofObject (literal : Text) : List Entry :=
  (Code.splitTop [','] false (dropBraces literal)).filterMap ofMember?

def namesOfArray (literal : Text) : List Text :=
  let inner := ((Text.after? "[" literal.trim).bind (Text.before? "]")).getD []
  (Code.splitTop [','] false inner).filterMap Code.unquote?

end Entry

end SfcJsx.Options
