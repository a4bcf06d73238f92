import SfcJsx.Source.Span

/-!
Directives are attributes named `v-kind:argument.modifier`. The leads `:`, `@` and `#` abbreviate
`v-bind:`, `v-on:` and `v-slot:`, and a leading `.` binds with the modifier `prop`.
-/

namespace SfcJsx.Markup

inductive DirectiveKind where
  | vBind
  | vOn
  | vIf
  | vElseIf
  | vElse
  | vFor
  | vShow
  | vModel
  | vHtml
  | vText
  | vSlot
  | vPre
  | vCloak
  | vMemo
  | custom (name : Text)
  deriving DecidableEq, Repr

namespace DirectiveKind

def builtIn : List (Text × DirectiveKind) :=
  [("bind", .vBind), ("on", .vOn), ("if", .vIf), ("else-if", .vElseIf), ("else", .vElse),
   ("for", .vFor), ("show", .vShow), ("model", .vModel), ("html", .vHtml), ("text", .vText),
   ("slot", .vSlot), ("pre", .vPre), ("cloak", .vCloak), ("memo", .vMemo)]

def ofName (name : Text) : DirectiveKind := (builtIn.lookup name).getD (.custom name)

def name : DirectiveKind → Text
  | vBind => "bind"
  | vOn => "on"
  | vIf => "if"
  | vElseIf => "else-if"
  | vElse => "else"
  | vFor => "for"
  | vShow => "show"
  | vModel => "model"
  | vHtml => "html"
  | vText => "text"
  | vSlot => "slot"
  | vPre => "pre"
  | vCloak => "cloak"
  | vMemo => "memo"
  | custom name => name

def isCustom : DirectiveKind → Bool
  | custom _ => true
  | _ => false

end DirectiveKind

inductive DirectiveArgument where
  | named (name : Text)
  | computed (expression : Text)
  deriving DecidableEq, Repr

structure DirectiveName where
  kind : DirectiveKind
  argument : Option DirectiveArgument := none
  modifiers : List Text := []
  deriving DecidableEq, Repr

namespace DirectiveName

def modifiersOf (t : Text) : List Text := (t.fields (· == '.')).filter (!·.isEmpty)

/-- Reads `argument.modifier.modifier`; an argument in brackets may contain dots. -/
def suffix (kind : DirectiveKind) (t : Text) : DirectiveName :=
  match t with
  | '[' :: inner =>
    match Text.cut? [']'] inner with
    | some (expression, rest) => ⟨kind, some (.computed expression), modifiersOf rest⟩
    | none => ⟨kind, some (.computed inner), []⟩
  | '.' :: _ => ⟨kind, none, modifiersOf t⟩
  | _ =>
    let (name, rest) := Text.breakAt (· == '.') t
    ⟨kind, if name.isEmpty then none else some (.named name), modifiersOf rest⟩

/-- A plain attribute name is no directive name. -/
def parse? (t : Text) : Option DirectiveName :=
  match t with
  | 'v' :: '-' :: rest =>
    let (name, tail) := Text.breakAt (fun c => c == ':' || c == '.') rest
    some (suffix (.ofName name) ((Text.after? [':'] tail).getD tail))
  | ':' :: rest => some (suffix .vBind rest)
  | '@' :: rest => some (suffix .vOn rest)
  | '#' :: rest => some (suffix .vSlot rest)
  | '.' :: c :: rest =>
    let bound := suffix .vBind (c :: rest)
    some { bound with modifiers := "prop" :: bound.modifiers }
  | _ => none

end DirectiveName

end SfcJsx.Markup
