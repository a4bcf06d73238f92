import SfcJsx.Code.Pattern
import SfcJsx.Script.Setup
import SfcJsx.Session.Environment

/-!
The names that a setup body binds at its top level, and which of a component's names are references
or inputs.
-/

namespace SfcJsx.Script

/-- A variable, function or class declared outside brackets. -/
structure Local where
  names : List Text
  /-- The function called by the initial value, when that is a call. -/
  callee : Option Text
  destructured : Bool
  deriving DecidableEq, Repr

namespace Local

/-- The text after a type annotation: from the `=` of the initial value or the line end on. -/
def afterAnnotation (before : Option Char) (depth : Int) : Text → Text
  | [] => []
  | c :: rest =>
    if c = '<' ∨ c = '(' ∨ c = '{' ∨ c = '[' then afterAnnotation (some c) (depth + 1) rest
    else if (c = '>' ∧ before ≠ some '=') ∨ c = ')' ∨ c = '}' ∨ c = ']' then
      afterAnnotation (some c) (depth - 1) rest
    else if depth = 0 ∧ (c = '\n' ∨ c = ';' ∨ (c = '=' ∧ rest.head? ≠ some '>')) then c :: rest
    else afterAnnotation (some c) depth rest

def initialValue (t : Text) : Text :=
  let t := t.trimStart
  match Text.after? "await" t with
  | some rest => if rest.head?.any Text.isBlank then rest.trimStart else t
  | none => t

/-- The function that an expression calls. -/
def callee? (t : Text) : Option Text :=
  let name := t.leadingIdentifier
  let rest := Text.trimStart (t.drop name.length)
  let rest := match Code.balanced? '<' '>' rest with
    | some (_, after) => after.trimStart
    | none => rest
  if !name.isEmpty && rest.head? = some '(' then some name else none

def target? (t : Text) : Option (List Text × Bool × Text) :=
  let pattern (opening closing : Char) : Option (List Text × Bool × Text) :=
    (Code.balanced? opening closing t).map fun (content, after) =>
      (Code.patternNames (opening :: content ++ [closing]), true, after)
  match t with
  | '{' :: _ => pattern '{' '}'
  | '[' :: _ => pattern '[' ']'
  | _ =>
    let name := t.leadingIdentifier
    if name.isEmpty then none else some ([name], false, t.drop name.length)

def readVariable? (t : Text) : Option (Local × Text) := do
  let (names, destructured, rest) ← target? t.trimStart
  let rest := rest.trimStart
  let rest := if rest.head? = some ':' then afterAnnotation none 0 rest else rest
  match rest with
  | '=' :: value =>
    if value.head? = some '=' then some (⟨names, none, destructured⟩, rest)
    else
      let value := initialValue value
      some (⟨names, callee? value, destructured⟩, value)
  | _ => some (⟨names, none, destructured⟩, rest)

def functionName (t : Text) : Text :=
  let t := t.trimStart
  match Text.after? "*" t with
  | some rest => rest.trimStart.leadingIdentifier
  | none => t.leadingIdentifier

/-- What a word at the top level declares, and how many characters after the word belong to it. -/
def declare? (word after : Text) : Option (Local × Nat) :=
  if word = "const" ∨ word = "let" ∨ word = "var" then
    (readVariable? after).map fun (found, rest) => (found, after.length - rest.length)
  else if word = "function" ∨ word = "class" then
    let name := functionName after
    if name.isEmpty then none else some (⟨[name], none, false⟩, 0)
  else none

/-- The declarations of a body. Characters that are not code are passed over, and so are the next
`skip` characters; `before` is the character before the text. -/
def scan (before : Option Char) (depth : Int) (skip : Nat) : Text → List Bool → List Local
  | [], _ => []
  | c :: rest, flags =>
    match skip with
    | k + 1 => scan (some c) depth k rest flags.tail
    | 0 =>
      if !flags.headD false then scan (some c) depth 0 rest flags.tail
      else
        let depth := depth + bracketStep c
        let word := Text.leadingIdentifier (c :: rest)
        if depth ≠ 0 || before.any Text.isIdentChar || word.isEmpty then
          scan (some c) depth 0 rest flags.tail
        else
          match declare? word (rest.drop (word.length - 1)) with
          | some (found, length) =>
            found :: scan (some c) depth (word.length - 1 + length) rest flags.tail
          | none => scan (some c) depth (word.length - 1) rest flags.tail

def ofBody (body : Text) : List Local := scan none 0 0 body (Code.mask body)

/-! Classification. -/

def refCreators : List Text :=
  ["ref", "shallowRef", "computed", "customRef", "toRef", "useTemplateRef", "useModel"]

def refDestructurers : List Text := ["toRefs", "storeToRefs"]

def plainComposables : List Text :=
  ["useAttrs", "useSlots", "useCssModule", "useCssVars", "useId", "useRoute", "useRouter",
   "useI18n", "useStore"]

def isComposable (callee : Text) : Bool :=
  match Text.after? "use" callee with
  | some (c :: _) => c.isUpper && !plainComposables.contains callee
  | _ => false

def holdsRef (found : Local) : Bool :=
  found.callee.any fun callee =>
    if found.destructured then refDestructurers.contains callee
    else refCreators.contains callee || isComposable callee

end Local

def modelVariables (models : List Model) : List Text :=
  (models.filterMap Model.holder).filter Text.isIdentifier

/-- References are what the body or a model binds to one; inputs are the props that no local name
hides. -/
def classify (body : Text) (props : List Text) (models : List Model) (imports : List Import) :
    Names :=
  let found := Local.ofBody body
  let hidden :=
    found.flatMap (·.names) ++ modelVariables models ++ imports.flatMap Import.localNames
  { refs := (found.filter Local.holdsRef).flatMap (·.names) ++ modelVariables models
    props := props.filter fun name => !hidden.contains name && name.isIdentifier }

end SfcJsx.Script
