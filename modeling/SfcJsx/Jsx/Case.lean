import SfcJsx.Text.Basic

/-!
Spellings of names: `my-button` as `MyButton`, as `myButton`, and `KeepAlive` as `keep-alive`.
-/

namespace SfcJsx.Jsx

def pascalCase (name : Text) : Text :=
  ((name.fields fun c => c == '-' || c == '_').map upperFirst).flatten
where
  upperFirst : Text → Text
    | [] => []
    | c :: rest => c.toUpper :: rest

/-- Drops dashes and puts the letter after them in upper case. -/
def camelCase (name : Text) : Text := go false name
where
  go (upper : Bool) : Text → Text
    | [] => []
    | c :: rest =>
      if c = '-' then go true rest
      else (if upper then c.toUpper else c) :: go false rest

/-- Every ASCII capital in lower case, after a dash unless it is the first character. -/
def kebabCase : Text → Text
  | [] => []
  | c :: rest => c.toLower :: rest.flatMap fun d => if d.isUpper then ['-', d.toLower] else [d]

end SfcJsx.Jsx
