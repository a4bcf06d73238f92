import Mathlib.Tactic.MkIffOfInductiveProp
import SfcJsx.Proofs.BalancedRegion
import SfcJsx.Proofs.StatementTail

/-!
Where the statement of a declaration starts. Only the line of the call and the line above it are
looked at: a binding that is found this way has no line break, and the statement starts with a line.
-/

namespace SfcJsx

open List Text Code Option

variable {s t tail binding before pattern : Text} {c : Char}

namespace Text

theorem trimEnd_append (other : isBlank c = false) (t : Text) :
    trimEnd (s ++ c :: t) = s ++ c :: trimEnd t := by
  have split : (s ++ c :: t).reverse = t.reverse ++ c :: s.reverse := by simp
  rw [trimEnd, trimEnd, split, dropWhile_append]
  split
  · next empty =>
    rw [dropWhile_cons_of_neg (by simp [other]), isEmpty_iff.1 empty]
    simp
  · simp

/-- A text that neither starts nor ends with white space. -/
@[mk_iff] structure IsTrimmed (t : Text) : Prop where
  ne : t ≠ []
  head : t.head?.any isBlank = false
  last : t.getLast?.any isBlank = false

instance (t : Text) : Decidable t.IsTrimmed := decidable_of_iff' _ (isTrimmed_iff t)

theorem IsTrimmed.trim_eq {lead : Text} (trimmed : IsTrimmed t) (blankLead : ∀ c ∈ lead, isBlank c)
    (blankTail : ∀ c ∈ tail, isBlank c) : trim (lead ++ t ++ tail) = t := by
  have starts : (t ++ tail).head?.any isBlank = false := by
    obtain ⟨c, rest, rfl⟩ := exists_cons_of_ne_nil trimmed.ne
    exact trimmed.head
  have ends : t.reverse.head?.any isBlank = false := by
    rw [head?_reverse]
    exact trimmed.last
  have blankEnd : ∀ c ∈ tail.reverse, isBlank c := by simpa using blankTail
  rw [trim, trimStart, append_assoc, dropWhile_append_of_pos blankLead,
    dropWhile_of_head? starts, trimEnd, reverse_append,
    dropWhile_append_of_pos blankEnd, dropWhile_of_head? ends, reverse_reverse]

theorem IsTrimmed.trim_self (trimmed : IsTrimmed t) : t.trim = t := by
  have nothing : ∀ c ∈ ([] : Text), isBlank c := by simp
  simpa using trimmed.trim_eq nothing nothing

theorem IsTrimmed.append (left : IsTrimmed s) (between : Text)
    (right : IsTrimmed t) : IsTrimmed (s ++ (between ++ t)) := by
  obtain ⟨c, tail, rfl⟩ := exists_cons_of_ne_nil left.ne
  obtain ⟨init, d, rfl⟩ := (eq_nil_or_concat t).resolve_left right.ne
  refine ⟨by simp, left.head, ?_⟩
  rw [getLast?_append, getLast?_append, concat_eq_append]
  simpa using right.last

theorem isTrimmed_braced (inner : Text) : IsTrimmed ('{' :: (inner ++ ['}'])) :=
  @IsTrimmed.append ['{'] ['}'] ⟨by simp, rfl, rfl⟩ inner ⟨by simp, rfl, rfl⟩

theorem IsTrimmed.of_append (whole : IsTrimmed (s ++ t)) (ne : t ≠ [])
    (head : t.head?.any isBlank = false) : IsTrimmed t := by
  refine ⟨ne, head, ?_⟩
  have last := whole.last
  obtain ⟨init, c, rfl⟩ := (eq_nil_or_concat t).resolve_left ne
  rw [concat_eq_append, ← append_assoc, getLast?_concat] at last
  rw [concat_eq_append, getLast?_concat]
  exact last

theorem before?_append (t tail : Text) : before? tail (t ++ tail) = some t := by
  simp [before?, after?_append]

theorem eq_append_of_before? {rest : Text} (found : before? tail t = some rest) :
    t = rest ++ tail := by
  obtain ⟨reversed, same, rfl⟩ := map_eq_some_iff.1 found
  have := congrArg reverse (after?_eq_some_iff.1 same)
  simpa using this

theorem endsWith_iff : t.endsWith tail ↔ tail <:+ t := by
  rw [endsWith, isSome_iff_exists]
  constructor
  · rintro ⟨rest, found⟩
    exact ⟨rest, (eq_append_of_before? found).symm⟩
  · rintro ⟨rest, rfl⟩
    exact ⟨rest, before?_append rest tail⟩

theorem endsWith_append_of_not_mem (apart : c ∉ tail) (s t : Text) :
    endsWith (s ++ c :: t) tail = endsWith t tail := by
  rw [Bool.eq_iff_iff, endsWith_iff, endsWith_iff]
  constructor
  · intro ends
    rcases suffix_or_suffix_of_suffix ends (suffix_append s (c :: t)) with inside | longer
    · rcases suffix_cons_iff.1 inside with rfl | later
      · exact absurd (by simp) apart
      · exact later
    · exact absurd (longer.subset (by simp)) apart
  · intro ends
    exact ends.trans ⟨s ++ [c], by simp⟩

end Text

namespace Code

theorem lastLine_append (oneLine : '\n' ∉ s) (t : Text) : lastLine (t ++ s) = lastLine t ++ s := by
  have inside : ∀ c ∈ s.reverse, c != '\n' := by
    intro c mem
    have : c ≠ '\n' := fun same => oneLine (same ▸ mem_reverse.1 mem)
    simpa using this
  rw [lastLine, reverse_append, takeWhile_append_of_pos inside, reverse_append,
    reverse_reverse, lastLine]

theorem break_notMem_lastLine (t : Text) : '\n' ∉ lastLine t := by
  intro mem
  have := all_eq_true.1 all_takeWhile _ (mem_reverse.1 mem)
  simp at this

end Code

namespace Script

def StartsLine (t : Text) : Prop := t = [] ∨ ∃ init, t = init ++ ['\n']

theorem lastLine_of_startsLine (starts : StartsLine t) : lastLine t = [] := by
  rcases starts with rfl | ⟨init, rfl⟩ <;> simp [lastLine]

theorem dropLastLine_append (oneLine : '\n' ∉ s) (t : Text) :
    dropLastLine (t ++ s) = dropLastLine t := by
  have : t.length + s.length - ((lastLine t).length + s.length) =
      t.length - (lastLine t).length := by omega
  rw [dropLastLine, lastLine_append oneLine, length_append, length_append, this,
    take_append_of_le_length (Nat.sub_le ..), dropLastLine]

theorem dropLastLine_of_startsLine (starts : StartsLine t) : dropLastLine t = t := by
  simp [dropLastLine, lastLine_of_startsLine starts]

def IsPattern (t : Text) : Prop :=
  isIdentifier t ∨ (∃ content, balanced? '{' '}' t = some (content, [])) ∨
    ∃ content, balanced? '[' ']' t = some (content, [])

theorem isTrimmed_of_isRegion {opening closing : Char} {region content : Text}
    (isRegion : IsRegion opening closing region content)
    (blankless : isBlank opening = false ∧ isBlank closing = false) : IsTrimmed region := by
  obtain ⟨init, whole⟩ := isRegion.exists_init
  refine ⟨?_, ?_, ?_⟩
  · simp [whole]
  · rw [isRegion.head]
    exact blankless.1
  · rw [whole, getLast?_concat]
    exact blankless.2

theorem IsPattern.cases (pattern : IsPattern t) :
    isIdentifier t ∨
      (t.head? = some '{' ∨ t.head? = some '[') ∧ EndsPlain t ∧ IsTrimmed t := by
  rcases pattern with named | ⟨content, found⟩ | ⟨content, found⟩
  · exact .inl named
  · have pair : IsBracketPair '{' '}' := by decide
    obtain ⟨region, whole, isRegion⟩ := exists_isRegion pair found
    rw [append_nil] at whole
    subst whole
    exact .inr ⟨.inl isRegion.head, isRegion.endsPlain pair,
      isTrimmed_of_isRegion isRegion ⟨by decide, by decide⟩⟩
  · have pair : IsBracketPair '[' ']' := by decide
    obtain ⟨region, whole, isRegion⟩ := exists_isRegion pair found
    rw [append_nil] at whole
    subst whole
    exact .inr ⟨.inr isRegion.head, isRegion.endsPlain pair,
      isTrimmed_of_isRegion isRegion ⟨by decide, by decide⟩⟩

theorem isTrimmed_of_isIdentifier (named : isIdentifier t) : IsTrimmed t := by
  have inside := isIdentChar_of_mem named
  obtain ⟨c, tail, rfl, -⟩ := exists_start named
  refine ⟨by simp, isBlank_eq_false (inside c (by simp)), ?_⟩
  cases last : (c :: tail).getLast? with
  | none => rfl
  | some d => exact isBlank_eq_false (inside d (mem_of_getLast? last))

theorem IsPattern.isTrimmed (pattern : IsPattern t) : IsTrimmed t := by
  rcases pattern.cases with named | ⟨-, -, trimmed⟩
  · exact isTrimmed_of_isIdentifier named
  · exact trimmed

theorem IsPattern.endsPlain (pattern : IsPattern t) : EndsPlain t := by
  rcases pattern.cases with named | ⟨-, ends, -⟩
  · exact endsPlain_of_isIdentChar (isIdentChar_of_mem named)
  · exact ends

theorem parseBinding?_const (pattern : IsPattern t) :
    parseBinding? ("const".toList ++ ([' '] ++ (t ++ [' ', '=']))) = some t := by
  have trimmed := pattern.isTrimmed
  have keyword := after?_append "const".toList ([' '] ++ (t ++ [' ', '=']))
  have outer : trim ([' '] ++ (t ++ [' ', '='])) = t ++ [' '] ++ "=".toList := by
    have whole : IsTrimmed (t ++ [' ', '=']) := by
      refine ⟨by simp, ?_, by simp; decide⟩
      obtain ⟨c, tail, rfl⟩ := exists_cons_of_ne_nil trimmed.ne
      exact trimmed.head
    rw [singleton_append, trim_cons rfl, whole.trim_self]
    simp
  have inner : trim (t ++ [' ']) = t := (trim_concat rfl t).trans trimmed.trim_self
  have opens : (guard (Option.any isBlank (head? ([' '] ++ (t ++ [' ', '='])))) :
      Option Unit) = some () := rfl
  have nonEmpty : (guard (!isEmpty (trim (t ++ [' ']))) : Option Unit) =
      some () := by
    have filled : !isEmpty t := by simp [trimmed.ne]
    rw [inner]
    exact if_pos filled
  have pick : (if t.head? = some '{' ∨ t.head? = some '[' then some t
      else some (trim (t.takeWhile (· != ':')))) = some t := by
    split
    · rfl
    · next word =>
      rcases pattern.cases with named | ⟨head, -⟩
      · have inside : ∀ c ∈ t, (c != ':') := by
          intro c mem
          have apart : c ∉ [':'] := not_mem_of_any (isIdentChar_of_mem named c mem) (by decide)
          simpa using apart
        have whole : (t ++ []).takeWhile (· != ':') = t := takeWhile_append inside rfl
        rw [append_nil] at whole
        rw [whole, trimmed.trim_self]
      · exact absurd head word
  have first : (["const", "let", "var"].findSome? fun (word : String) =>
      after? word.toList ("const".toList ++ ([' '] ++ (t ++ [' ', '='])))) =
        some ([' '] ++ (t ++ [' ', '='])) := by
    simp only [findSome?, keyword]
  rw [parseBinding?, first, Option.bind_eq_bind, Option.bind_some, opens, Option.bind_eq_bind,
    Option.bind_some, outer, before?_append, Option.bind_some]
  dsimp only
  rw [nonEmpty, Option.bind_some, inner, pick]

theorem parseBinding?_subset (found : parseBinding? t = some binding) : binding ⊆ t := by
  obtain ⟨rest, keyword, found⟩ := bind_eq_some_iff.1 found
  obtain ⟨-, -, found⟩ := bind_eq_some_iff.1 found
  obtain ⟨assigned, equals, found⟩ := bind_eq_some_iff.1 found
  obtain ⟨-, -, found⟩ := bind_eq_some_iff.1 found
  have inRest : rest ⊆ t := by
    obtain ⟨word, -, after⟩ := exists_of_findSome?_eq_some keyword
    rw [after?_eq_some_iff.1 after]
    exact subset_append_right ..
  have inPattern : assigned.trim ⊆ t := by
    have := eq_append_of_before? equals
    refine List.Subset.trans (subset_trim _) (List.Subset.trans ?_ inRest)
    refine List.Subset.trans ?_ (subset_trim rest)
    rw [this]
    exact subset_append_left ..
  split at found
  · obtain rfl := some.inj found
    exact inPattern
  · obtain rfl := some.inj found
    exact List.Subset.trans (subset_trim _)
      (List.Subset.trans (takeWhile_sublist _).subset inPattern)

theorem break_notMem_binding (found : (statementStart before).2 = some binding) :
    '\n' ∉ binding := by
  have ofLine (t : Text) {binding : Text}
      (found : parseBinding? (lastLine t).trim = some binding) : '\n' ∉ binding :=
    fun mem => break_notMem_lastLine t (subset_trim _ (parseBinding?_subset found mem))
  unfold statementStart at found
  dsimp only at found
  split at found
  · split at found
    · next binding' above =>
      obtain rfl := some.inj found
      split at above
      · simp at above
      · exact ofLine _ above
    · simp at found
  · split at found
    · next binding' line =>
      obtain rfl := some.inj found
      exact ofLine _ line
    · simp at found

def heading (pattern : Text) : Text := "const".toList ++ ([' '] ++ (pattern ++ " = ".toList))

theorem isBlankText_heading (before pattern : Text) :
    (before ++ heading pattern).isBlankText = false := by
  rw [isBlankText, heading, all_append]
  exact Bool.and_false _

theorem statementStart_of_oneLine (oneLine : '\n' ∉ pattern) :
    statementStart (before ++ heading pattern) =
      match parseBinding? (trim (lastLine before ++ heading pattern)) with
      | some binding => (dropLastLine before, some binding)
      | none => (before ++ heading pattern, none) := by
  have oneLineHeading : '\n' ∉ heading pattern := by
    simp only [heading, mem_append, not_or]
    exact ⟨by decide, by decide, oneLine, by decide⟩
  unfold statementStart
  dsimp only
  rw [lastLine_append oneLineHeading, dropLastLine_append oneLineHeading, isBlankText_heading]
  rfl

theorem statementStart_of_startsLine (isPattern : IsPattern pattern)
    (oneLine : '\n' ∉ pattern) (starts : StartsLine before) :
    statementStart (before ++ heading pattern) = (before, some pattern) := by
  have trimmed : trim (heading pattern) =
      "const".toList ++ ([' '] ++ (pattern ++ [' ', '='])) := by
    have last : ("const".toList ++ ([' '] ++ (pattern ++ [' ', '=']))).getLast? = some '=' := by
      simp only [getLast?_append, getLast?_cons_cons, getLast?_singleton, some_or]
    have whole : IsTrimmed ("const".toList ++ ([' '] ++ (pattern ++ [' ', '=']))) :=
      ⟨by simp, rfl, by rw [last]; rfl⟩
    simpa [heading] using (trim_concat rfl _).trans whole.trim_self
  rw [statementStart_of_oneLine oneLine, lastLine_of_startsLine starts, nil_append, trimmed,
    parseBinding?_const isPattern, dropLastLine_of_startsLine starts]

theorem length_statementStart_lt {init : Text} (oneLine : '\n' ∉ pattern)
    (found : (statementStart (init ++ [';'] ++ heading pattern)).2 = some binding) :
    (statementStart (init ++ [';'] ++ heading pattern)).1.length < (init ++ [';']).length := by
  rw [statementStart_of_oneLine oneLine] at found ⊢
  split at found
  · have line : lastLine (init ++ [';']) = lastLine init ++ [';'] :=
      lastLine_append (by decide) init
    simp only [dropLastLine, line, length_take, length_append, length_singleton]
    omega
  · simp at found

end Script

end SfcJsx
