import SfcJsx.Markup.Node
import SfcJsx.Markup.Reader

/-!
Reading the attributes of a tag. A quoted value ends at the same quote; an unquoted value ends
before white space or `>`. Inside literal markup no attribute is a directive.
-/

namespace SfcJsx.Markup.Reader

def readValue (r : Reader) (name : Text) : Option (Text × Span) × Reader :=
  let quoted (quote : Char) : Option (Text × Span) × Reader :=
    let start := r.offset + 1
    match Text.cut? [quote] (r.ahead start) with
    | some (value, _) =>
      let stop := start + value.width
      (some (value, ⟨start, stop⟩), (r.seek stop).advance)
    | none => (none, (r.report (.unterminatedValue name)).seek r.source.width)
  match r.kind with
  | .doubleQuote => quoted '"'
  | .singleQuote => quoted '\''
  | .tagClose | .selfClose | .endOfFile =>
    (none, r.report (.unexpectedToken .attributeValue r.kind))
  | _ =>
    let start := r.offset
    let value := (r.ahead start).takeWhile fun c => !(Text.isBlank c || c == '>')
    let stop := start + Text.width value
    (some (value, ⟨start, stop⟩), r.seek stop)

theorem passes_readValue (r : Reader) (name : Text) : r.Passes (r.readValue name).2 := by
  have quoted (stop : Nat) : r.Passes (r.seek stop).advance :=
    (passes_seek r stop).trans (passes_advance _)
  have reported (kind : FaultKind) (stop : Nat) : r.Passes ((r.report kind).seek stop) :=
    (passes_report r kind).trans (passes_seek _ stop)
  unfold readValue
  split
  case h_1 | h_2 =>
    dsimp only
    split
    · exact quoted _
    · exact reported _ _
  case h_3 | h_4 | h_5 => exact passes_report r _
  case h_6 => exact passes_seek r _

def readAttribute (r : Reader) (literal : Bool) : Attribute × Reader :=
  let start := r.offset
  let name := r.currentText
  let named := r.advance
  let (value, after) :=
    if named.kind = .equals then named.advance.readValue name else (none, named)
  let span : Span := ⟨start, max after.tokenEnd (start + name.width)⟩
  match if literal then none else DirectiveName.parse? name with
  | some ⟨kind, argument, modifiers⟩ =>
    (.directive ⟨span, kind, argument, value.map fun (content, place) => ⟨place, content⟩,
      modifiers⟩, after)
  | none => (.plain ⟨span, name, value.map (·.1)⟩, after)

theorem passes_readAttribute (r : Reader) (literal : Bool) :
    r.advance.Passes (r.readAttribute literal).2 := by
  have value : r.advance.Passes (if r.advance.kind = .equals
      then r.advance.advance.readValue r.currentText else (none, r.advance)).2 := by
    split
    · exact (passes_advance _).trans (passes_readValue _ _)
    · exact .refl _
  unfold readAttribute
  dsimp only
  split <;> exact value

def endsTag (kind : TokenKind) : Bool :=
  kind = .tagClose || kind = .selfClose || kind = .endOfFile || kind = .tagOpen ||
    kind = .closingOpen

def readAttributes (r : Reader) (literal : Bool) : List Attribute × Reader :=
  let next := r.skipNewlines
  if _ends : endsTag next.kind then ([], next)
  else if next.kind = .name then
    let first := next.readAttribute literal
    let rest := first.2.readAttributes literal
    (first.1 :: rest.1, rest.2)
  else if next.kind = .slash then next.advance.readAttributes literal
  else
    (next.report (.unexpectedToken .attributeName next.kind)).advance.readAttributes literal
termination_by r.tokens.length
decreasing_by
  all_goals
    have more : next.kind ≠ .endOfFile := by
      intro atEnd
      simp [endsTag, atEnd] at _ends
    refine Nat.lt_of_lt_of_le (GoesOn.length_lt (r := next) ?_ more)
      (passes_skipNewlines r).goesOn.length_le
  · exact (passes_readAttribute next literal).goesOn
  · exact .refl _
  · exact (passes_advance_report next _).goesOn

theorem passes_readAttributes (r : Reader) (literal : Bool) :
    r.Passes (r.readAttributes literal).2 := by
  fun_induction readAttributes r literal with
  | case1 r next => exact passes_skipNewlines r
  | case2 r next _ _ first rest ih =>
    exact (passes_skipNewlines r).trans
      ((passes_advance next).trans ((passes_readAttribute next literal).trans ih))
  | case3 r next _ _ _ ih =>
    exact (passes_skipNewlines r).trans ((passes_advance next).trans ih)
  | case4 r next _ _ _ ih =>
    exact (passes_skipNewlines r).trans ((passes_report next _).trans ((passes_advance _).trans ih))

end SfcJsx.Markup.Reader
