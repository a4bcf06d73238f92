import SfcJsx.Text.Basic

/-!
JSON documents. Members of objects keep their order and may repeat; numbers are kept as written.
-/

namespace SfcJsx

/-- A string of a document is absent where an escape in it names half of a surrogate pair: it is
well formed and has no text. -/
inductive Json where
  | null
  | bool (value : Bool)
  | number (literal : Text)
  | string (content : Option Text)
  | array (elements : List Json)
  | object (members : List (Option Text × Json))
  deriving Repr

namespace Json

def ofText (t : Text) : Json := .string (some t)

def ofNat (n : Nat) : Json := .number (Text.ofNat n)

def ofOption {α : Type} (encode : α → Json) : Option α → Json
  | some value => encode value
  | none => .null

def ofList {α : Type} (encode : α → Json) (values : List α) : Json := .array (values.map encode)

def ofFields (fields : List (Text × Json)) : Json :=
  .object (fields.map fun (name, value) => (some name, value))

def text? : Json → Option Text
  | .string content => content
  | _ => none

def texts? : Json → Option (List Text)
  | .array elements => elements.mapM text?
  | _ => none

def bool? : Json → Option Bool
  | .bool value => some value
  | _ => none

def optional {α : Type} (decode : Json → Option α) : Json → Option (Option α)
  | .null => some none
  | value => (decode value).map some

def fields? : Json → Option (List (Text × Json))
  | .object members => members.mapM fun (name, value) => name.map (·, value)
  | _ => none

end Json

end SfcJsx
