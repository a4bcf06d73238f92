import SfcJsx.Text.Alphabetic
import SfcJsx.Text.Numeric

/-!
Identifiers: a letter, `_` or `$`, then letters, numbers, `_` or `$`.
-/

namespace SfcJsx.Text

def isAlphanumeric (c : Char) : Bool := isAlphabetic c || isNumeric c

def isIdentStart (c : Char) : Bool := isAlphabetic c || c == '_' || c == '$'

def isIdentChar (c : Char) : Bool := isAlphanumeric c || c == '_' || c == '$'

theorem isIdentChar_of_isIdentStart {c : Char} (h : isIdentStart c = true) :
    isIdentChar c = true := by
  simp only [isIdentStart, isIdentChar, isAlphanumeric, Bool.or_eq_true] at h ⊢
  rcases h with (h | h) | h <;> simp [h]

def isIdentifier : Text → Bool
  | [] => false
  | c :: rest => isIdentStart c && rest.all isIdentChar

def leadingIdentifier : Text → Text
  | [] => []
  | c :: rest => if isIdentStart c then c :: rest.takeWhile isIdentChar else []

end SfcJsx.Text
