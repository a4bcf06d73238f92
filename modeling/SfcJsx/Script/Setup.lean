import SfcJsx.Script.Statement

/-!
A setup script read apart: its declarations, its module statements, and the body that is left.
-/

namespace SfcJsx.Script

inductive DeclarationForm where
  /-- By a type, `defineProps<{ … }>()`. -/
  | byType (type : Text)
  /-- By a value, `defineProps({ … })`. -/
  | byValue (value : Text)
  deriving DecidableEq, Repr

/-- One of the declarations that a script makes once. -/
structure Declaration where
  /-- The pattern of `const pattern = defineProps(…)`. -/
  binding : Option Text
  form : Option DeclarationForm
  deriving DecidableEq, Repr

namespace Declaration

def type? (d : Declaration) : Option Text :=
  match d.form with
  | some (.byType type) => some type
  | _ => none

def value? (d : Declaration) : Option Text :=
  match d.form with
  | some (.byValue value) => some value
  | _ => none

def ofCall (call : Call) : Declaration :=
  let form := match call.typeArgument with
    | some type => some (.byType type)
    | none => call.argumentText.map .byValue
  ⟨call.binding, form⟩

end Declaration

/-- A two-way bound input, declared by `defineModel`. -/
structure Model where
  /-- The local variable that holds it. -/
  holder : Option Text
  givenName : Option Text
  typeArgument : Option Text
  options : Option Text
  deriving DecidableEq, Repr

namespace Model

def defaultName : Text := "modelValue"

def publicName (model : Model) : Text := model.givenName.getD defaultName

def ofCall (call : Call) : Model :=
  let (name, options) : Option Text × Option Text :=
    match Code.splitTop [','] false (call.argumentText.getD []) with
    | [] => (none, none)
    | first :: rest =>
      if first.head?.any Code.isQuote then (Code.unquote? first, rest.head?) else (none, some first)
  ⟨call.binding, name, call.typeArgument, options⟩

end Model

structure Setup where
  props : Option Declaration
  /-- The second argument of `withDefaults`. -/
  propsDefaults : Option Text
  emits : Option Declaration
  slots : Option Declaration
  expose : Option Declaration
  options : Option Declaration
  models : List Model
  /-- The script without declarations and module statements. -/
  body : Text
  imports : List Import
  sideEffects : List Text
  exports : List Text
  deriving DecidableEq, Repr

namespace Setup

/-- `withDefaults(defineProps<T>(), { … })`: the declaration is the inner call's, the binding and
the statement are the outer one's. -/
def withDefaults? (t : Text) : Option (Call × Option Text) := do
  let outer ← Call.find? t "withDefaults" 0
  let inner ← Call.find? (← outer.argumentText) "defineProps" 0
  let defaults := (Text.after? "," inner.after.trimStart).map Text.trim
  some ({ outer with typeArgument := inner.typeArgument, argumentText := inner.argumentText },
    defaults.filter (!·.isEmpty))

def take (name t : Text) : Option Declaration × Text :=
  match Call.find? t name 0 with
  | some call => (some (.ofCall call), call.removed)
  | none => (none, t)

def takeModels (start : Nat) (t : Text) : List Model × Text :=
  match _found : Call.find? t "defineModel" start with
  | some call =>
    let rest := takeModels call.before.length call.removed
    (.ofCall call :: rest.1, rest.2)
  | none => ([], t)
termination_by t.length
decreasing_by exact Call.length_removed_lt _found

def takeProps (t : Text) : Option Declaration × Option Text × Text :=
  match withDefaults? t with
  | some (call, defaults) => (some (.ofCall call), defaults, call.removed)
  | none =>
    let taken := take "defineProps" t
    (taken.1, none, taken.2)

def read (script : Text) : Setup :=
  let (props, propsDefaults, t) := takeProps script
  let (emits, t) := take "defineEmits" t
  let (slots, t) := take "defineSlots" t
  let (expose, t) := take "defineExpose" t
  let (options, t) := take "defineOptions" t
  let (models, t) := takeModels 0 t
  let statements := ModuleStatements.split true t
  { props, propsDefaults, emits, slots, expose, options, models
    body := statements.body
    imports := statements.imports
    sideEffects := statements.sideEffects
    exports := statements.exports }

end Setup

end SfcJsx.Script
