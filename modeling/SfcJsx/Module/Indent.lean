import SfcJsx.Text.Lines

/-!
Changing the indentation of code.
-/

namespace SfcJsx.Module

def commonIndent (lines : List Text) : Nat :=
  ((lines.filter (!·.isBlankText)).map fun line => line.leadingBlanks.width).min?.getD 0

/-- A line without the common indentation; where that ends inside a character, without any. -/
def dropIndent (common : Nat) (line : Text) : Text :=
  ((line.from? common).getD line.trimStart).trimEnd

/-- The lines with content, indented, with one empty line for the blank lines before each but the
first. -/
def indentLines (common : Nat) (indent : Text) (started pending : Bool) : List Text → Text
  | [] => []
  | line :: rest =>
    if line.isBlankText then indentLines common indent started started rest
    else
      (if pending then "\n" else "") ++ indent ++ dropIndent common line ++ "\n" ++
        indentLines common indent true false rest

/-- Code with the common indentation replaced. Runs of blank lines become one, and those at either
end vanish. -/
def reindent (t indent : Text) : Text :=
  indentLines (commonIndent t.lines) indent false false t.lines

end SfcJsx.Module
