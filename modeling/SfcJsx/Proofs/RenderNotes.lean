import Mathlib.Logic.Relation
import SfcJsx.Proofs.RenderSteps

/-!
What rendering can add to the findings. There are seven kinds of notes, and every renderer takes
down a sequence of them; a fragment that is left is one of the spans of the tags that are rendered.
What every note keeps, every renderer keeps.
-/

namespace SfcJsx

open List Markup

def FallbackItem.at (source : Text) (span : Span) (reason placeholder : Text) : FallbackItem :=
  let position := ((LineIndex.ofText source).position? span.start).map Position.oneBased
  ⟨span.slice source, reason, position.map (·.line), position.map (·.column), placeholder⟩

/-- One note, where fragments are left only at some spans of the source. -/
inductive Note (source : Text) (leaves : Span → Prop) : Findings → Findings → Prop
  | framework (f : Findings) (name : Text) : Note source leaves f (f.useFramework name)
  | warning (f : Findings) (message : Text) (line column : Option Nat) :
      Note source leaves f (f.warnAt message line column)
  | once (f : Findings) (name message : Text) : Note source leaves f (f.warnOnce name message)
  | slots (f : Findings) : Note source leaves f { f with used := { f.used with slots := true } }
  | special (f : Findings) (name : Text) :
      Note source leaves f { f with used := Expression.noteSpecial f.used name }
  | list (f : Findings) : Note source leaves f { f with usesListHelper := true }
  | fragment (f : Findings) {span : Span} (left : leaves span) (reason placeholder : Text) :
      Note source leaves f
        { f with fallbackItems := f.fallbackItems ++ [.at source span reason placeholder] }

namespace Render

variable {α β : Type} {leaves : Span → Prop}

def Notes (leaves : Span → Prop) (m : Render α) : Prop :=
  ∀ env found, Relation.ReflTransGen (Note env.source leaves) found (m env found).2

theorem composes_notes : Composes (Notes leaves) where
  pure _ _ _ := .refl
  bind first later env found := (first env found).trans (later _ env _)

theorem notes_read : Notes leaves (read : Render Environment) := fun _ _ => .refl

theorem notes_modify {change : Findings → Findings}
    (note : ∀ source f, Note source leaves f (change f)) :
    Notes leaves (modify change : Render Unit) := fun _ _ => .single (note _ _)

end Render

namespace Expression

open Render

variable {leaves : Span → Prop}

theorem notes_renderName (text : Text) (use : NameUse) : Notes leaves (renderName text use) := by
  apply composes_notes.bind notes_read
  intro env
  split
  · exact composes_notes.pure _
  · split
    · exact composes_notes.bind_pure (notes_modify fun _ _ => .special _ _)
    · split
      · exact composes_notes.bind_pure (notes_modify fun _ _ => .once _ _ _)
      · exact composes_notes.pure _

theorem notes_qualify (expression : Text) : Notes leaves (qualify expression) := by
  apply composes_notes.bind notes_read
  intro env
  split
  · exact composes_notes.pure _
  · refine composes_notes.bind_pure (composes_notes.mapM fun segment _ => ?_)
    unfold renderSegment
    split
    · exact composes_notes.pure _
    · exact notes_renderName _ _

end Expression

theorem Render.notes {leaves : Span → Prop} : Steps leaves fun _ _ => Notes leaves where
  pure _ := composes_notes.pure _
  bind first later := composes_notes.bind first fun a => later a [] (kept_nil _)
  qualify := Expression.notes_qualify
  withScope names inside env := inside (env.push names)
  useFramework _ := notes_modify fun _ _ => .framework _ _
  warn _ _ := composes_notes.bind notes_read fun _ => notes_modify fun _ _ => .warning _ _ _ _
  slots := notes_modify fun _ _ => .slots _
  list := notes_modify fun _ _ => .list _
  leave left _ _ reason _ found := .single (.fragment found left reason _)
  look _ later := composes_notes.bind notes_read later

end SfcJsx
