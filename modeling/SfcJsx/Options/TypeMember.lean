import SfcJsx.Options.Entry

/-!
Members of type literals, `{ title: string; close?(): void }`.
-/

namespace SfcJsx.Options

structure TypeMember where
  name : Text
  type : Text
  isOptional : Bool
  deriving DecidableEq, Repr

namespace TypeMember

/-- Whether a piece goes on with the member before it: the cut is at a union, arrow or colon. -/
def continues (previous piece : Text) : Bool :=
  previous.getLast?.any (['|', '&', ':', '='].contains ·) || previous.endsWith "=>" ||
    piece.head?.any (['|', '&'].contains ·) || piece.startsWith "=>"

def joinFrom (current : Text) : List Text → List Text
  | [] => [current]
  | piece :: rest =>
    if continues current piece then joinFrom (current ++ " " ++ piece) rest
    else current :: joinFrom piece rest

def pieces (literal : Text) : List Text :=
  match Code.splitTop [';', ',', '\n'] true (Entry.dropBraces literal) with
  | [] => []
  | first :: rest => joinFrom first rest

/-- A method signature `(a: A): R` as the function type `(a: A) => R`. -/
def functionType? (signature : Text) : Option Text := do
  let (generics, rest) : Text × Text ← match signature with
    | '<' :: _ => (Code.balanced? '<' '>' signature).map fun (content, after) =>
        ("<" ++ content ++ ">", after.trimStart)
    | _ => some ([], signature)
  let (parameters, after) ← Code.balanced? '(' ')' rest
  let result := ((Text.after? ":" after.trimStart).map Text.trim).getD "void"
  some (generics ++ "(" ++ parameters ++ ") => " ++ result)

def cutName? (piece : Text) : Option (Text × Text) :=
  match piece with
  | [] => none
  | quote :: rest =>
    if quote = '\'' ∨ quote = '"' then Text.cut? [quote] rest
    else some (piece.breakAt fun c =>
      c == '?' || c == ':' || c == '(' || c == '<' || Text.isBlank c)

/-- A member with a name; index and call signatures have none. -/
def parse? (piece : Text) : Option TypeMember := do
  let piece := piece.trim
  let piece := ((Text.after? "readonly " piece).getD piece).trimStart
  guard (piece.head? ≠ some '[' ∧ piece.head? ≠ some '(')
  let (name, rest) ← cutName? piece
  guard (!name.isEmpty)
  let rest := rest.trimStart
  let isOptional := rest.startsWith "?"
  let rest := ((Text.after? "?" rest).map Text.trimStart).getD rest
  if rest.head? = some '(' ∨ rest.head? = some '<' then
    some ⟨name, ← functionType? rest, isOptional⟩
  else
    let type := (← Text.after? ":" rest).trim
    some ⟨name, ((Text.after? "|" type).getD type).trim, isOptional⟩

def ofLiteral (literal : Text) : List TypeMember := (pieces literal).filterMap parse?

end TypeMember

end SfcJsx.Options
