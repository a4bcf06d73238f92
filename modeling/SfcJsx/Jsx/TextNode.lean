import SfcJsx.Text.Blank

/-!
Text in JSX. White space runs become one space; runs at either end vanish when they hold a line
break. Characters with a meaning in JSX become references.
-/

namespace SfcJsx.Jsx

def escapeChar (c : Char) : Text :=
  if c = '&' then "&amp;"
  else if c = '<' then "&lt;"
  else if c = '>' then "&gt;"
  else if c = '{' then "&#123;"
  else if c = '}' then "&#125;"
  else [c]

def escape (t : Text) : Text := t.flatMap escapeChar

def edge (blanks : Text) : Text :=
  if blanks.isEmpty || blanks.contains '\n' then [] else " "

def renderText (data : Text) : Option Text :=
  if data.isBlankText then
    if data.contains '\n' then none else some " "
  else
    some (edge data.leadingBlanks ++ escape (List.intercalate " " data.words) ++
      edge data.trailingBlanks)

end SfcJsx.Jsx
