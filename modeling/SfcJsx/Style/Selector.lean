import SfcJsx.Code.Piece
import SfcJsx.Text.Identifier

/-!
Class names in the selectors of a stylesheet.
-/

namespace SfcJsx.Style

/-- The text without comments; one that is not closed takes the rest. -/
def dropComments (t : Text) : Text :=
  match _found : Text.cut? "/*" t with
  | none => t
  | some (before, after) => before ++ dropComments (Code.blockTail after).2
termination_by t.length
decreasing_by
  have := Text.length_tail_of_cut? (by simp) _found
  have := congrArg List.length (Code.blockTail_append after)
  simp only [List.length_append] at this
  omega

/-- The texts that a `{` ends, each from the last `{`, `}` or `;` on; `current` is the text since
then, reversed. -/
def preludes (current : Text) : Text → List Text
  | [] => []
  | c :: rest =>
    if c = '{' then current.reverse :: preludes [] rest
    else if c = '}' ∨ c = ';' then preludes [] rest
    else preludes (c :: current) rest

def selectors (css : Text) : List Text :=
  (preludes [] (dropComments css)).filter fun t => !t.trimStart.startsWith "@"

def isClassChar (c : Char) : Bool := Text.isAlphanumeric c || c == '-' || c == '_'

def startsClass (c : Char) : Bool := Text.isAlphabetic c || c == '_' || c == '-'

/-- The class names of a selector: names after a dot that no ASCII letter or digit precedes.
`before` is the character before the text, and `skip` characters of a name are passed over. -/
def classesFrom (before : Option Char) (skip : Nat) : Text → List Text
  | [] => []
  | c :: rest =>
    match skip with
    | k + 1 => classesFrom (some c) k rest
    | 0 =>
      if c = '.' ∧ !before.any Char.isAlphanum ∧ rest.head?.any startsClass then
        let name := rest.takeWhile isClassChar
        name :: classesFrom (some c) name.length rest
      else classesFrom (some c) 0 rest

def classes (css : Text) : List Text := ((selectors css).flatMap (classesFrom none 0)).eraseDups

end SfcJsx.Style
