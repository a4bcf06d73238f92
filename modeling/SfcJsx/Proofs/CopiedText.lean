import SfcJsx.Proofs.QualifiedText

/-!
Qualifying an expression touches names only. The expression is read once from left to right as text
that is copied and names that may change. Of the open brackets only those matter that are
substitutions of a template literal: behind them its text goes on.
-/

namespace SfcJsx.Expression

variable {c : Char}

def openedBy (t : Text) (opened : List Bool) : List Bool :=
  if (templateText t).2 then true :: opened else opened

/-- Text that is copied, and what follows it. The lists are the open brackets before and behind it,
innermost first, `true` for a substitution. -/
inductive Copied : List Bool → Text → Text → List Bool → Prop
  | literal (opened : List Bool) {quote : Char} (quoted : quote = '\'' ∨ quote = '"') (t : Text) :
      Copied opened (quote :: (Code.literalTail quote t).1) (Code.literalTail quote t).2 opened
  | template (opened : List Bool) (t : Text) :
      Copied opened ('`' :: t.take (templateText t).1) (t.drop (templateText t).1)
        (openedBy t opened)
  | goesOn (opened : List Bool) (t : Text) :
      Copied (true :: opened) ('}' :: t.take (templateText t).1) (t.drop (templateText t).1)
        (openedBy t opened)
  | opening (opened : List Bool) {c : Char} (bracket : c = '{' ∨ c = '(' ∨ c = '[') (rest : Text) :
      Copied opened [c] rest (false :: opened)
  | closing {opened : List Bool} {c : Char} (bracket : c = '}' ∨ c = ')' ∨ c = ']')
      (other : ¬ (c = '}' ∧ opened.head? = some true)) (rest : Text) :
      Copied opened [c] rest opened.tail
  | number (opened : List Bool) {c : Char} (digit : c.isDigit) {run rest : Text}
      (inNumber : ∀ d ∈ run, isNumberChar d) (ended : rest.head?.any isNumberChar = false) :
      Copied opened (c :: run) rest opened
  | single (opened : List Bool) {c : Char} (plain : c ∉ delimiters)
      (start : Text.isIdentStart c = false) (digit : c.isDigit = false) (rest : Text) :
      Copied opened [c] rest opened

theorem Copied.ne_nil {opened after : List Bool} {text rest : Text}
    (copied : Copied opened text rest after) : text ≠ [] := by
  cases copied <;> simp

def Scan.opened (s : Scan) : List Bool := s.frames.map (· == .substitution)

end SfcJsx.Expression
