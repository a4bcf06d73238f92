import SfcJsx.File.Path
import SfcJsx.Text.Identifier
import SfcJsx.Text.Upper

/-!
Names of components: `src/todo-item.vue` names `TodoItem`.
-/

namespace SfcJsx.ComponentName

def default : Text := "Component"

/-- Words in upper camel case as an identifier: words end at characters that no identifier has, and
digits and `_` at the start are dropped. -/
def ofWords (t : Text) : Text :=
  let words := (t.fields fun c => !(Text.isAlphanumeric c || c == '_')).map Text.capitalize
  match words.flatten.dropWhile (fun c => c.isDigit || c == '_') with
  | [] => default
  | c :: rest => if Text.isAlphabetic c then Text.capitalize (c :: rest) else default

def ofPath (path : Text) : Text := ((Path.fileStem? path).map ofWords).getD default

end SfcJsx.ComponentName
