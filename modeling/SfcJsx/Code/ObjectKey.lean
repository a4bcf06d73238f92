import SfcJsx.Text.Identifier

/-!
Names written into object literals and quoted strings.
-/

namespace SfcJsx.Code

def escapeQuotes (t : Text) : Text := Text.replace "'" "\\'" t

def quoted (t : Text) : Text := "'" ++ t ++ "'"

def objectKey (name : Text) : Text :=
  if name.isIdentifier then name else "'" ++ escapeQuotes name ++ "'"

end SfcJsx.Code
