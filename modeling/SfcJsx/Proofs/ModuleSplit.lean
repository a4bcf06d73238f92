import Mathlib.Data.List.Induction
import SfcJsx.Proofs.Chunking

/-!
Splitting a script into the statements of its module and the rest is complete and loses nothing.
Complete: no line of the rest starts a statement again, so a second split finds none. What could go
wrong is that a removal joins two texts into a new literal or comment, or that a line reads
differently once the lines below it are gone. The first cannot happen because a statement starts and
ends between pieces; the second because only `import(` and `import.` look past the end of a line,
and no statement starts with a bracket or a dot.
-/

namespace SfcJsx.Script

open List Code Chunk

variable {t : Text} {more s line more' : Marked} {c : Char}

variable {hoist : Bool} {depth : Int} {ms kept : Marked} {cs : List Chunk} {chunk : Chunk}
  {cut : Cut}

def AtLineStart (s : Marked) : Prop := s = [] ∨ ∃ init flag, s = init ++ [('\n', flag)]

theorem AtLineStart.append (isLine : IsLine line more) : AtLineStart (s ++ line) ∨ more = [] := by
  obtain ⟨init, -, ⟨flag, rfl⟩ | ⟨-, -, none⟩⟩ := isLine
  · exact .inl (.inr ⟨s ++ init, flag, by simp⟩)
  · exact .inr none

theorem startsWithKeyword_swap {keyword init : Text} (oneLine : '\n' ∉ keyword)
    (more more' : Text) :
    startsWithKeyword (init ++ '\n' :: more) keyword =
      startsWithKeyword (init ++ '\n' :: more') keyword := by
  rcases Text.after?_of_break oneLine init with ⟨rest, rfl⟩ | absent
  · simp only [startsWithKeyword, append_assoc, Text.after?_append]
    cases rest <;> rfl
  · simp only [startsWithKeyword, absent]

def opensExpression (t : Text) : Bool := t.trimStart.head?.any fun c => c == '(' || c == '.'

theorem startsImport_eq (t : Text) :
    startsImport t = (startsWithKeyword t "import" && !opensExpression (t.drop 6)) := by
  unfold startsImport opensExpression
  split
  · next same => simp [same]
  · next same => simp [same]
  · next notParen notDot =>
    cases same : Text.trimStart (t.drop 6) with
    | nil => rfl
    | cons c rest =>
      have paren : c ≠ '(' := fun eq => notParen rest (eq ▸ same)
      have dot : c ≠ '.' := fun eq => notDot rest (eq ▸ same)
      simp [paren, dot]

theorem opensExpression_append (s t : Text) :
    opensExpression (s ++ t) =
      if s.trimStart = [] then opensExpression t else opensExpression s := by
  have split : (s ++ t).trimStart = if s.trimStart.isEmpty then t.trimStart else s.trimStart ++ t :=
    dropWhile_append
  unfold opensExpression
  rw [split]
  cases s.trimStart with
  | nil => rfl
  | cons c rest => rfl

theorem opensExpression_blank_append {s : Text} (blank : ∀ c ∈ s, Text.isBlank c)
    (t : Text) : opensExpression (s ++ t) = opensExpression t := by
  unfold opensExpression Text.trimStart
  rw [dropWhile_append_of_pos blank]

theorem opensExpression_swap {more more' : Text}
    (goes : opensExpression more → opensExpression more') (s : Text)
    (opens : opensExpression (s ++ more)) : opensExpression (s ++ more') := by
  rw [opensExpression_append] at opens ⊢
  split at opens
  · next blank => rw [if_pos blank, goes opens]
  · next other => rw [if_neg other, opens]

theorem startsImport_swap {init more more' : Text}
    (goes : opensExpression more → opensExpression more')
    (stays : startsImport (init ++ '\n' :: more) = false) :
    startsImport (init ++ '\n' :: more') = false := by
  rw [startsImport_eq] at stays ⊢
  rw [startsWithKeyword_swap (by decide) more' more]
  rcases Bool.and_eq_false_iff.1 stays with other | expression
  · rw [other, Bool.false_and]
  · have oneLine : '\n' ∉ "import".toList := by decide
    rcases Text.after?_of_break oneLine init with ⟨rest, rfl⟩ | absent
    · have later (t : Text) : drop 6 ("import".toList ++ rest ++ '\n' :: t) =
          (rest ++ ['\n']) ++ t := by simp
      rw [later, Bool.not_eq_false'] at expression
      rw [later, opensExpression_swap goes _ expression, Bool.not_true, Bool.and_false]
    · simp only [startsWithKeyword, absent, Bool.false_and]

theorem startsStatement_swap (isLine : IsLine line more) (none : more = [] → more' = [])
    (goes : opensExpression (Marked.text more) → opensExpression (Marked.text more'))
    (stays : startsStatement hoist depth (line ++ more) = false) :
    startsStatement hoist depth (line ++ more') = false := by
  obtain ⟨init, inside, ⟨flag, rfl⟩ | ⟨-, -, empty⟩⟩ := isLine
  · have dropped (ms : Marked) : (init ++ [('\n', flag)] ++ ms).dropWhile isIndent =
        init.dropWhile isIndent ++ ('\n', flag) :: ms := by
      rw [append_assoc, dropWhile_append]
      split
      · next blank => simp [isEmpty_iff.1 blank, isIndent]
      · rfl
    have head (ms : Marked) : (init.dropWhile isIndent ++ ('\n', flag) :: ms).head? =
        (init.dropWhile isIndent ++ [('\n', flag)]).head? := by
      cases init.dropWhile isIndent <;> rfl
    have text (ms : Marked) : Marked.text (init.dropWhile isIndent ++ ('\n', flag) :: ms) =
        Marked.text (init.dropWhile isIndent) ++ '\n' :: Marked.text ms := by
      rw [Marked.text_append]
      rfl
    simp only [startsStatement, dropped, head, text] at stays ⊢
    rw [startsWithKeyword_swap (by decide) _ (Marked.text more)]
    rcases Bool.and_eq_false_iff.1 stays with other | stays
    · rw [other, Bool.false_and]
    · obtain ⟨notImport, notExport⟩ := Bool.or_eq_false_iff.1 stays
      rw [startsImport_swap goes notImport, notExport, Bool.or_self, Bool.and_false]
  · rw [none empty, ← empty]
    exact stays

theorem Chunked.kept_eq_nil (chunked : Chunked hoist depth ms cs kept) (none : ms = []) :
    kept = [] := by
  cases chunked with
  | nil => rfl
  | taken starts => simp [none, startsStatement] at starts
  | line isLine =>
    obtain ⟨init, -, ⟨flag, rfl⟩ | ⟨rfl, ne, -⟩⟩ := isLine
    · simp at none
    · exact absurd (append_eq_nil_iff.1 none).1 ne

theorem Chunked.opensExpression (chunked : Chunked hoist depth ms cs kept)
    (opens : opensExpression (Marked.text ms)) : Script.opensExpression (Marked.text kept) := by
  induction chunked with
  | nil => exact opens
  | @taken depth lead statement tail more kept chunk cs starts taken cut later ih =>
    have blank : ∀ c ∈ Marked.text lead, Text.isBlank c := by
      intro c mem
      obtain ⟨m, inside, rfl⟩ := mem_map.1 mem
      have indent : m.1 = ' ' ∨ m.1 = '\t' := by simpa [isIndent] using taken.indent m inside
      rcases indent with same | same <;> rw [same] <;> decide
    rw [Marked.text_append, opensExpression_blank_append blank, Marked.text_append] at opens
    rcases taken.keyword with ⟨rest, text⟩ | ⟨rest, text⟩
    all_goals
      rw [← text, append_assoc, opensExpression_append, if_neg (by decide)] at opens
      exact absurd opens (by decide)
  | line isLine stays later ih =>
    rw [Marked.text_append] at opens ⊢
    exact opensExpression_swap ih _ opens

/-- No statement starts at the beginning of a line. -/
def Settled (hoist : Bool) (depth : Int) (ms : Marked) : Prop :=
  ∀ s rest, ms = s ++ rest → AtLineStart s →
    startsStatement hoist (depthAfter depth s) rest = false

theorem depthAfter_append (depth : Int) (a b : Marked) :
    depthAfter depth (a ++ b) = depthAfter (depthAfter depth a) b := foldl_append

theorem startsStatement_nil (hoist : Bool) (depth : Int) :
    startsStatement hoist depth [] = false := by
  simp [startsStatement]

theorem AtLineStart.exists_of_isLine {rest : Marked} (start : AtLineStart s)
    (isLine : IsLine line more) (none : more = [] → more' = [])
    (whole : line ++ more' = s ++ rest) : s = [] ∨ ∃ s', s = line ++ s' ∧ AtLineStart s' := by
  rcases start with rfl | ⟨before, flag, rfl⟩
  · exact .inl rfl
  refine .inr ?_
  obtain ⟨init, inside, ⟨last, rfl⟩ | ⟨rfl, -, empty⟩⟩ := isLine
  · have reach : init ++ [('\n', last)] <+: before ++ [('\n', flag)] ++ rest := ⟨more', whole⟩
    rcases prefix_or_prefix_of_prefix reach (prefix_append _ rest) with ⟨s, same⟩ | short
    · refine ⟨s, same.symm, ?_⟩
      rcases eq_nil_or_concat s with rfl | ⟨s, m, rfl⟩
      · exact .inl rfl
      · rw [concat_eq_append, ← append_assoc] at same
        have last := append_inj_right' same rfl
        exact .inr ⟨s, flag, by rw [concat_eq_append, last]⟩
    · rcases prefix_concat_iff.1 short with same | shorter
      · exact ⟨[], by rw [same, append_nil], .inl rfl⟩
      · exact absurd rfl (inside ('\n', flag) (shorter.subset (by simp)))
  · rw [none empty, append_nil] at whole
    exact absurd rfl (inside ('\n', flag) (by simp [whole]))

theorem Chunked.settled (chunked : Chunked hoist depth ms cs kept) : Settled hoist depth kept := by
  induction chunked with
  | nil depth =>
    intro s rest whole _
    rw [(append_eq_nil_iff.1 whole.symm).2]
    exact startsStatement_nil ..
  | taken starts taken cut later ih => exact ih
  | line isLine stays later ih =>
    intro s rest whole start
    rcases start.exists_of_isLine isLine later.kept_eq_nil whole with rfl | ⟨s, rfl, within⟩
    · have same := startsStatement_swap isLine later.kept_eq_nil later.opensExpression stays
      rw [whole] at same
      exact same
    · rw [append_assoc] at whole
      rw [depthAfter_append]
      exact ih s rest (append_cancel_left whole) within

theorem Chunk.text_of_cut? (taken : chunk.cut? = some cut) :
    chunk.text = cut.text ∧ chunk.bodyText = [] := by
  cases chunk with
  | line => simp [cut?] at taken
  | importing | exporting => exact ⟨congrArg Cut.text (Option.some.inj taken), rfl⟩

theorem Chunked.texts (chunked : Chunked hoist depth ms cs kept) :
    cs.flatMap text = Marked.text ms ∧ cs.flatMap bodyText = Marked.text kept := by
  induction chunked with
  | nil => exact ⟨rfl, rfl⟩
  | taken starts taken cut later ih =>
    obtain ⟨text, body⟩ := text_of_cut? cut
    simp [flatMap_cons, ih, text, body, Cut.text]
  | line isLine stays later ih =>
    simp [flatMap_cons, ih, text, bodyText]

/-- A statement with blanks before it and what ends its line after it. -/
structure Cut.IsWhole (cut : Cut) : Prop where
  indent : ∀ c ∈ cut.lead, c = ' ' ∨ c = '\t'
  keyword : "import".toList <+: cut.statement ∨ "export".toList <+: cut.statement
  ends : IsStatementTail cut.tail

namespace ModuleStatements

end ModuleStatements

end SfcJsx.Script
