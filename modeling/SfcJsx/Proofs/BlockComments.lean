import SfcJsx.Jsx.Child
import SfcJsx.Proofs.PlaceholderPlaces

/-!
Comments in the output. Texts of the source go into block comments, so the mark that ends a comment
must not come from them, also not where they meet the text around them.
-/

namespace SfcJsx

open List Text Placeholder

theorem Text.occurs_append_cons {sought before after s t : Text} {c : Char} (ne : sought ≠ [])
    (apart : c ∉ sought) (whole : before ++ (sought ++ after) = s ++ c :: t) :
    sought <:+: s ∨ ∃ front, t = front ++ (sought ++ after) := by
  rcases append_eq_append_iff.1 whole with ⟨gap, rfl, rest⟩ | ⟨gap, rfl, rest⟩
  · rcases append_eq_append_iff.1 rest with ⟨more, rfl, -⟩ | ⟨more, rfl, next⟩
    · exact .inl ⟨before, more, by simp⟩
    · cases more with
      | nil => exact .inl ⟨before, [], by simp⟩
      | cons d more => exact absurd (by simp [(cons.inj next).1]) apart
  · cases gap with
    | nil =>
      obtain ⟨d, sought, rfl⟩ := exists_cons_of_ne_nil ne
      exact absurd (by simp [(cons.inj rest).1]) apart
    | cons d gap => exact .inr ⟨gap, (cons.inj rest).2⟩

theorem Text.infix_append_cons {sought s t : Text} {c : Char} (ne : sought ≠ [])
    (apart : c ∉ sought) (inside : sought <:+: s ++ c :: t) : sought <:+: s ∨ sought <:+: t := by
  obtain ⟨before, after, whole⟩ := inside
  rw [append_assoc] at whole
  exact (occurs_append_cons ne apart whole).imp_right fun ⟨front, rest⟩ =>
    ⟨front, after, by simp [rest]⟩

/-- The mark that ends a comment stands in a text once, with `tail` behind it. -/
def ClosesOnce (tail t : Text) : Prop :=
  ['*', '/'] ++ tail <:+ t ∧ ∀ before after, t = before ++ (['*', '/'] ++ after) → after = tail

/-- A comment in one line that only its last characters close. -/
structure IsCommentLine (t : Text) : Prop where
  marked : ∃ body, t = ['/', '*'] ++ (body ++ ['*', '/'])
  closes : ClosesOnce [] t
  single : '\n' ∉ t

namespace Placeholder

theorem closesOnce_comment {body lead tail : Text} (free : ¬ ['*', '/'] <:+: body)
    (front : ¬ ['*', '/'] <:+: lead ++ ['/', '*']) (behind : ¬ ['*', '/'] <:+: '/' :: tail) :
    ClosesOnce tail (lead ++ comment body ++ tail) := by
  constructor
  · exact ⟨lead ++ ['/', '*', ' '] ++ (body ++ [' ']), by simp [comment]⟩
  · intro before after whole
    have split : before ++ (['*', '/'] ++ after) =
        (lead ++ ['/', '*']) ++ ' ' :: (body ++ ' ' :: ('*' :: '/' :: tail)) := by
      rw [← whole]
      simp [comment]
    obtain ⟨start, rest⟩ := (occurs_append_cons (by simp) (by decide) split).resolve_left front
    obtain ⟨start, rest⟩ := (occurs_append_cons (by simp) (by decide) rest.symm).resolve_left free
    cases start with
    | nil => simpa using rest.symm
    | cons c start => exact absurd ⟨start, after, by simp [(cons.inj rest).2]⟩ behind

theorem not_infix_replace (t : Text) : ¬ ['*', '/'] <:+: replace "*/" "*\\/" t := by
  have same : shown t = (replace "*/" "*\\/" t).map fun c => if c = '\n' then ' ' else c := by
    rw [← commentSafe_eq_shown, ← replace_line]
    rfl
  intro inside
  refine not_infix_shown t ?_
  rw [same]
  exact inside.map fun c => if c = '\n' then ' ' else c

theorem not_infix_append {s t : Text} (first : ¬ ['*', '/'] <:+: s)
    (second : ¬ ['*', '/'] <:+: t) : ¬ ['*', '/'] <:+: s ++ ' ' :: t := fun inside =>
  (infix_append_cons (by simp) (by decide) inside).elim first second

theorem isCommentLine_comment {body : Text} (free : ¬ ['*', '/'] <:+: body)
    (single : '\n' ∉ comment body) : IsCommentLine (comment body) where
  marked := ⟨' ' :: (body ++ [' ']), by simp [comment]⟩
  closes := by
    have once := @closesOnce_comment body [] [] free (by decide) (by decide)
    rwa [append_nil] at once
  single := single

theorem isCommentLine_reasonLine {tool : Text} (closed : ¬ ['*', '/'] <:+: tool)
    (single : '\n' ∉ tool) (reason : Text) : IsCommentLine (reasonLine tool reason) := by
  refine isCommentLine_comment ?_ (not_mem_comment ?_)
  · have split : ("TODO: " ++ tool ++ " - " ++ shown reason : Text) =
        "TODO:" ++ ' ' :: (tool ++ ' ' :: (['-'] ++ ' ' :: shown reason)) := by simp
    rw [split]
    exact not_infix_append (by decide) (not_infix_append closed
      (not_infix_append (by decide) (not_infix_shown reason)))
  · simp only [mem_append, single, not_mem_shown, or_false]
    decide

theorem isCommentLine_snippetLine (snippet : Text) : IsCommentLine (snippetLine snippet) := by
  have lead : ¬ ['*', '/'] <:+: ("Original:" : Text) := by decide +kernel
  exact isCommentLine_comment (not_infix_append lead (not_infix_shown snippet))
    (not_mem_snippetLine snippet)

theorem dropCarriageReturn_comment (body : Text) :
    dropCarriageReturn (comment body) = comment body := by
  simp [dropCarriageReturn, before?, comment, after?]

/-- For every reason and snippet, and every name of a tool without line break and mark, a
placeholder has two lines, each one comment; as a child it has the same lines in braces. A comment
of a template is one comment in braces, whatever it holds. -/
theorem comments_close_once {tool : Text} (closed : ¬ ['*', '/'] <:+: tool) (single : '\n' ∉ tool)
    (reason snippet : Text) (element : Jsx.ElementRenderer) (span : Span) (data : Text)
    (env : Environment) (found : Findings) :
    (∃ first second : Text, IsCommentLine first ∧ IsCommentLine second ∧
      inTag tool reason snippet = first ++ '\n' :: second ∧
      asChild tool reason snippet =
        '{' :: first ++ '}' :: '\n' :: '{' :: second ++ ['}']) ∧
    ∃ text : Text, (Jsx.renderNode element (.comment span data) env found).1 = some text ∧
      (∃ body, text = ['{', '/', '*'] ++ (body ++ ['*', '/', '}'])) ∧ ClosesOnce ['}'] text := by
  have line := isCommentLine_reasonLine closed single reason
  constructor
  · refine ⟨_, _, line, isCommentLine_snippetLine snippet, inTag_eq .., ?_⟩
    have stays : dropCarriageReturn (reasonLine tool reason) = reasonLine tool reason :=
      dropCarriageReturn_comment _
    rw [asChild, lines_inTag, fields_of_forall (beq_of_not_mem line.single), map_singleton, stays]
    simp [intercalate_cons_cons]
  · have free := not_infix_replace data.trim
    have whole : Jsx.renderComment data =
        ['{'] ++ comment (replace "*/" "*\\/" data.trim) ++ ['}'] := by
      simp [Jsx.renderComment, comment]
    generalize replace "*/" "*\\/" data.trim = body at free whole
    refine ⟨Jsx.renderComment data, rfl, ⟨' ' :: (body ++ [' ']), by simp [whole, comment]⟩, ?_⟩
    rw [whole]
    exact closesOnce_comment free (by decide) (by decide)

theorem comments_close_once_marks :
    (∃ first second : Text, IsCommentLine first ∧ IsCommentLine second ∧
      inTag "t*" "*/" "/*/\n**/" = first ++ '\n' :: second) ∧
    ClosesOnce ['}'] (Jsx.renderComment "/*/**/") := by
  obtain ⟨⟨first, second, above, below, whole, -⟩, text, rendered, -, once⟩ :=
    @comments_close_once "t*" (by decide) (by decide) "*/" "/*/\n**/" (fun _ _ => pure []) ⟨0, 6⟩
      "/*/**/" ⟨[], {}, ⟨[]⟩, [], []⟩ {}
  exact ⟨⟨first, second, above, below, whole⟩, Option.some.inj rendered ▸ once⟩

end Placeholder

end SfcJsx
