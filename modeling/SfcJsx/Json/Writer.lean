import SfcJsx.Json.Basic

/-!
Writing JSON, on one line or indented by two spaces.
-/

namespace SfcJsx.Json

/-- Quotes, backslashes and control characters are escaped; all else stands for itself. -/
def escape (c : Char) : Text :=
  match c with
  | '"' => "\\\""
  | '\\' => "\\\\"
  | '\n' => "\\n"
  | '\r' => "\\r"
  | '\t' => "\\t"
  | '\x08' => "\\b"
  | '\x0c' => "\\f"
  | c =>
    if c.toNat < 0x20 then
      "\\u00".toList ++ [Nat.digitChar (c.toNat / 16), Nat.digitChar (c.toNat % 16)]
    else [c]

def quote (t : Text) : Text := '"' :: t.flatMap escape ++ ['"']

def boolText (value : Bool) : Text := if value then "true" else "false"

def joinWith (separator : Text) : List Text → Text := List.intercalate separator

mutual

/-- On one line, without spaces. -/
def compact : Json → Text
  | .array elements => ['['] ++ joinWith [','] (compactElements elements) ++ [']']
  | .object members => ['{'] ++ joinWith [','] (compactMembers members) ++ ['}']
  | .null => "null"
  | .bool value => boolText value
  | .number literal => literal
  | .string content => quote (content.getD [])

def compactElements : List Json → List Text
  | [] => []
  | value :: rest => compact value :: compactElements rest

def compactMembers : List (Option Text × Json) → List Text
  | [] => []
  | (name, value) :: rest =>
    (quote (name.getD []) ++ [':'] ++ compact value) :: compactMembers rest

end

def newLine (depth : Nat) : Text := '\n' :: List.replicate (2 * depth) ' '

def block (opening closing : Char) (depth : Nat) (items : List Text) : Text :=
  if items.isEmpty then [opening, closing]
  else opening :: newLine (depth + 1) ++ joinWith (',' :: newLine (depth + 1)) items ++
    newLine depth ++ [closing]

mutual

/-- Every element and member on its own line, at a depth. -/
def pretty (depth : Nat) : Json → Text
  | .array elements => block '[' ']' depth (prettyElements (depth + 1) elements)
  | .object members => block '{' '}' depth (prettyMembers (depth + 1) members)
  | .null => "null"
  | .bool value => boolText value
  | .number literal => literal
  | .string content => quote (content.getD [])

def prettyElements (depth : Nat) : List Json → List Text
  | [] => []
  | value :: rest => pretty depth value :: prettyElements depth rest

def prettyMembers (depth : Nat) : List (Option Text × Json) → List Text
  | [] => []
  | (name, value) :: rest =>
    (quote (name.getD []) ++ [':', ' '] ++ pretty depth value) :: prettyMembers depth rest

end

end SfcJsx.Json
