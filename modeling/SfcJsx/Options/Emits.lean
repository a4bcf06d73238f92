import SfcJsx.Options.TypeMember

/-!
Events as a component declares them at run time.
-/

namespace SfcJsx.Options

inductive Emits where
  /-- Names only, `['change', 'close']`. -/
  | listed (events : List Text)
  /-- Names with validators, as written. -/
  | validators (entries : List Entry)
  deriving DecidableEq, Repr

namespace Emits

def isEmpty : Emits → Bool
  | listed events => events.isEmpty
  | validators entries => entries.isEmpty

def add (emits : Emits) (event : Text) : Emits :=
  match emits with
  | listed events => .listed (if events.contains event then events else events ++ [event])
  | validators entries =>
    .validators (if entries.any (·.name = event) then entries else entries ++ [⟨event, "null"⟩])

def render (emits : Emits) (indent : Text) : Text :=
  match emits with
  | listed events => "[" ++ List.intercalate ", " (events.map Code.quoted) ++ "]"
  | validators entries => Entry.renderObject entries indent

/-- The events of a call signature `(e: 'change' | 'close', id: number): void`. -/
def signatureEvents (piece : Text) : List Text :=
  match Code.balanced? '(' ')' piece with
  | some (parameters, _) =>
    match Code.splitTop [','] true parameters with
    | first :: _ =>
      match Text.cut? ":" first with
      | some (_, type) => (Code.splitTop ['|'] true type).filterMap Code.unquote?
      | none => []
    | [] => []
  | none => []

def memberEvents (piece : Text) : List Text :=
  if piece.head? = some '(' then signatureEvents piece
  else ((TypeMember.parse? piece).map (·.name)).toList

def ofType (literal : Text) : Emits :=
  .listed (((TypeMember.pieces literal).flatMap memberEvents).filter (!·.isEmpty)).eraseDups

def ofValue (literal : Text) : Emits :=
  let literal := literal.trim
  if literal.startsWith "\x7b" then .validators (Entry.ofObject literal)
  else .listed (Entry.namesOfArray literal)

end Emits

end SfcJsx.Options
