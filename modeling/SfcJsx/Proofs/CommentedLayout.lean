import SfcJsx.Proofs.ListLayout

/-!
Lists with comments in the blanks around their parts. Splitting leaves the comments where they are:
a stretch with a comment starts with it, or it is a part with the comment behind it.
-/

namespace SfcJsx

open List Text

theorem Text.getLast?_trimEnd (t : Text) : (trimEnd t).getLast?.any isBlank = false := by
  rw [trimEnd, getLast?_reverse]
  exact head?_dropWhile _ _

theorem Text.isTrimmed_trim {t : Text} (ne : t.trim ≠ []) : t.trim.IsTrimmed := by
  refine ⟨ne, ?_, getLast?_trimEnd _⟩
  obtain ⟨c, rest, same⟩ := exists_cons_of_ne_nil ne
  have starts : t.trimStart.head? = some c := by
    have front : t.trim <+: t.trimStart := by
      rw [trim, trimEnd, ← reverse_suffix, reverse_reverse]
      exact dropWhile_suffix _
    obtain ⟨more, whole⟩ := front
    rw [← whole, same]
    rfl
  have other := head?_dropWhile isBlank t
  rw [trimStart] at starts
  rw [starts] at other
  rw [same]
  exact other

theorem Text.trim_trim (t : Text) : t.trim.trim = t.trim := by
  by_cases empty : t.trim = []
  · rw [empty]
    rfl
  · exact (isTrimmed_trim empty).trim_self

theorem Text.exists_trailing (t : Text) : ∃ tail, (∀ c ∈ tail, isBlank c) ∧
    t = t.leadingBlanks ++ (t.trim ++ tail) := by
  obtain ⟨tail, blank, whole⟩ := Script.exists_blanks t.trimStart.reverse
  refine ⟨tail.reverse, by simpa using blank, ?_⟩
  have ends := congrArg reverse whole
  rw [reverse_reverse, reverse_append] at ends
  exact (leadingBlanks_append_trimStart t).symm.trans (congrArg _ ends)

theorem Text.exists_trim (t : Text) : ∃ lead tail, (∀ c ∈ lead, isBlank c) ∧
    (∀ c ∈ tail, isBlank c) ∧ t = lead ++ t.trim ++ tail := by
  obtain ⟨tail, blank, whole⟩ := exists_trailing t
  exact ⟨_, tail, all_eq_true.1 all_takeWhile, blank, whole.trans (append_assoc _ _ _).symm⟩

theorem Text.isTrimmed_cons {c : Char} (other : isBlank c = false) (middle : Text) {t : Text}
    (trimmed : t.IsTrimmed) : IsTrimmed (c :: (middle ++ t)) :=
  @IsTrimmed.append [c] t ⟨by simp, other, other⟩ middle trimmed

theorem Text.exists_trim_append {s lead : Text} (trimmed : s.IsTrimmed)
    (blank : ∀ c ∈ lead, isBlank c) (t : Text) :
    ∃ rest, trim (lead ++ (s ++ ' ' :: t)) = s ++ rest ∧ rest.trim = t.trim ∧
      (rest = [] ∧ t.trim = [] ∨
        ∃ gap, (∀ c ∈ gap, isBlank c) ∧ rest = ' ' :: (gap ++ t.trim)) := by
  obtain ⟨gap, tail, blankGap, blankTail, whole⟩ := exists_trim t
  by_cases empty : t.trim = []
  · have behind : ∀ c ∈ ' ' :: t, isBlank c := by
      rw [whole, empty, append_nil, forall_mem_cons]
      exact ⟨rfl, fun c member => (mem_append.1 member).elim (blankGap c) (blankTail c)⟩
    refine ⟨[], ?_, empty.symm, .inl ⟨rfl, empty⟩⟩
    rw [← append_assoc, trimmed.trim_eq blank behind, append_nil]
  · have longer := trimmed.append (' ' :: gap) (isTrimmed_trim empty)
    have split : lead ++ (s ++ ' ' :: t) = lead ++ (s ++ (' ' :: gap ++ t.trim)) ++ tail :=
      (congrArg (fun t => lead ++ (s ++ ' ' :: t)) whole).trans (by simp)
    have before : ∀ c ∈ ' ' :: gap, isBlank c := forall_mem_cons.2 ⟨rfl, blankGap⟩
    have nothing : ∀ c ∈ ([] : Text), isBlank c := by simp
    refine ⟨' ' :: (gap ++ t.trim), ?_, ?_, .inr ⟨gap, blankGap, rfl⟩⟩
    · rw [split, longer.trim_eq blank blankTail]
      rfl
    · simpa using (isTrimmed_trim empty).trim_eq before nothing

namespace Code

variable {separators : List Char} {angles : Bool} {s : List Item}

/-- A comment and the items behind it: it is closed, or the line ends with it. -/
inductive IsComment : Text → List Item → Prop
  | block {body : Text} (open' : ¬ "*/".toList <:+: body ++ ['*']) (rest : List Item) :
    IsComment ("/*" ++ (body ++ "*/")) rest
  | line {body : Text} (oneLine : '\n' ∉ body) (rest : List Item) :
    IsComment ("//" ++ body) (.mark '\n' :: rest)

def isNote (t : Text) : Bool := t.startsWith "//" || t.startsWith "/*"

theorem isNote_iff {t : Text} : isNote t ↔ ∃ c u, t = '/' :: c :: u ∧ (c = '/' ∨ c = '*') := by
  rw [isNote, Bool.or_eq_true, startsWith_eq_true_iff, startsWith_eq_true_iff]
  constructor
  · rintro (⟨u, rfl⟩ | ⟨u, rfl⟩)
    · exact ⟨'/', u, rfl, .inl rfl⟩
    · exact ⟨'*', u, rfl, .inr rfl⟩
  · rintro ⟨c, u, rfl, rfl | rfl⟩
    · exact .inl ⟨u, rfl⟩
    · exact .inr ⟨u, rfl⟩

theorem ne_nil_of_isNote {t : Text} (starts : isNote t) : t ≠ [] := by
  rintro rfl
  cases starts

namespace IsComment

variable {t : Text} {rest : List Item}

theorem isNote (h : IsComment t rest) : isNote t := by
  cases h with
  | block => exact isNote_iff.2 ⟨'*', _, rfl, .inr rfl⟩
  | line => exact isNote_iff.2 ⟨'/', _, rfl, .inl rfl⟩

theorem pieces_append (h : IsComment t rest) :
    pieces (t ++ textOf rest) = .comment t :: pieces (textOf rest) := by
  cases h with
  | @block body open' =>
    have cut := cut?_append (by decide) open' (textOf rest)
    have tail : blockTail (body ++ "*/" ++ textOf rest) = (body ++ "*/", textOf rest) := by
      rw [blockTail, cut]
    show pieces ('/' :: '*' :: (body ++ "*/" ++ textOf rest)) = _
    rw [pieces, lead, if_neg (by decide), if_neg (by simp), tail_cons, tail]
    rfl
  | @line body oneLine rest =>
    have inside : ∀ c ∈ '/' :: body, c != '\n' := by
      intro c member
      rw [bne_iff_ne]
      rintro rfl
      rcases mem_cons.1 member with same | member
      · cases same
      · exact oneLine member
    have all : ('/' :: body ++ '\n' :: textOf rest).takeWhile (· != '\n') = '/' :: body := by
      rw [takeWhile_append_of_pos inside]
      simp
    have none :
        ('/' :: body ++ '\n' :: textOf rest).dropWhile (· != '\n') = '\n' :: textOf rest := by
      rw [dropWhile_append_of_pos inside]
      simp
    show pieces ('/' :: ('/' :: body ++ '\n' :: textOf rest)) = _
    rw [pieces, lead, if_neg (by decide), all, none]
    rfl

end IsComment

def hasComment (items : List Item) : Bool := items.any Item.isComment

/-- The items without the comments. -/
def bare (items : List Item) : List Item := items.filter (!·.isComment)

theorem isComment_of_mem_bare {items : List Item} (item : Item) (member : item ∈ bare items) :
    item.isComment = false := by
  simpa using (mem_filter.1 member).2

theorem partsOf_bare (items : List Item) : partsOf (bare items) = partsOf items := by
  induction items with
  | nil => rfl
  | cons item items ih =>
    cases item with
    | part t => exact congrArg (t :: ·) ih
    | mark c => exact ih
    | comment t => exact ih

theorem stretches_bare (separators : List Char) (items : List Item) :
    stretches separators (bare items) = (stretches separators items).map bare := by
  induction items with
  | nil => rfl
  | cons item items ih =>
    obtain ⟨s, ss, read, cut⟩ := exists_stretches_cons separators item items
    rw [read] at ih
    rw [cut]
    cases item with
    | part t | mark c =>
      obtain ⟨s', ss', read', cut'⟩ := exists_stretches_cons separators _ (bare items)
      rw [ih] at read'
      obtain ⟨rfl, rfl⟩ := cons.inj read'
      refine cut'.trans ?_
      split <;> rfl
    | comment t => exact ih

theorem exists_comment (some : hasComment s) :
    ∃ lead t more, s = lead ++ .comment t :: more ∧ hasComment lead = false := by
  induction s with
  | nil => cases some
  | cons item s ih =>
    cases item with
    | comment t => exact ⟨[], t, s, rfl, rfl⟩
    | part | mark =>
      obtain ⟨lead, t, more, rfl, none⟩ := ih some
      exact ⟨_ :: lead, t, more, rfl, none⟩

/-- What splitting makes of a stretch: nothing, a text that starts with a comment, its part, or its
part with a comment behind it. -/
inductive Row (s : List Item) : Prop
  | blank (none : partsOf s = []) (plain : hasComment s = false) (empty : rowText s = [])
  | note (commented : hasComment s) (starts : isNote (rowText s))
  | part {t : Text} (one : partsOf s = [t]) (plain : hasComment s = false) (same : rowText s = t)
  | noted {t gap note : Text} (one : partsOf s = [t]) (commented : hasComment s)
    (same : rowText s = t ++ (gap ++ note)) (blank : ∀ c ∈ gap, isBlank c)
    (starts : isNote note) (ends : note.getLast?.any isBlank = false)

theorem Row.ne_nil (shape : Row s) {t : Text} (one : partsOf s = [t]) (ne : t ≠ []) :
    rowText s ≠ [] := by
  cases shape with
  | blank none => simp [one] at none
  | note _ starts => exact ne_nil_of_isNote starts
  | part one' _ same =>
    rw [one] at one'
    rwa [same, ← singleton_inj.1 one']
  | noted one' _ same =>
    rw [one] at one'
    rw [same, ← singleton_inj.1 one']
    simp [ne]

theorem trim_note {lead note : Text} (blank : ∀ c ∈ lead, isBlank c) (starts : isNote note)
    (more : Text) : isNote (trim (lead ++ (note ++ more))) := by
  obtain ⟨c, u, rfl, second⟩ := isNote_iff.1 starts
  have other : isBlank c = false := by rcases second with rfl | rfl <;> decide
  rw [trim, Script.trimStart_blanks_append blank rfl]
  exact isNote_iff.2 ⟨c, _, @trimEnd_append ['/'] c other (u ++ more), second⟩

theorem trim_noted {lead t gap note : Text} (blank : ∀ c ∈ lead, isBlank c)
    (trimmed : t.IsTrimmed) (starts : isNote note) (more : Text) :
    ∃ note', trim (lead ++ (t ++ (gap ++ (note ++ more)))) = t ++ (gap ++ note') ∧
      isNote note' ∧ note'.getLast?.any isBlank = false := by
  obtain ⟨c, u, rfl, second⟩ := isNote_iff.1 starts
  have other : isBlank c = false := by rcases second with rfl | rfl <;> decide
  have stops : (t ++ (gap ++ ('/' :: c :: u ++ more))).head?.any isBlank = false := by
    obtain ⟨d, tail, rfl⟩ := exists_cons_of_ne_nil trimmed.ne
    exact trimmed.head
  have ends := getLast?_trimEnd ('/' :: c :: (u ++ more))
  rw [show trimEnd ('/' :: c :: (u ++ more)) = '/' :: c :: trimEnd (u ++ more) from
    @trimEnd_append ['/'] c other (u ++ more)] at ends
  refine ⟨'/' :: c :: trimEnd (u ++ more), ?_, isNote_iff.2 ⟨c, _, rfl, second⟩, ends⟩
  have whole : t ++ (gap ++ ('/' :: c :: u ++ more)) =
      (t ++ (gap ++ ['/'])) ++ c :: (u ++ more) := by
    simp
  rw [trim, Script.trimStart_blanks_append blank stops, whole, trimEnd_append other]
  simp

theorem IsLayout.row {items : List Item} (h : IsLayout separators angles items)
    (note : ∀ t, .comment t ∈ items → isNote t) (listed : s ∈ stretches separators items) :
    Row s := by
  cases commented : hasComment s with
  | false =>
    have free : ∀ item ∈ s, item.isComment = false := fun item member => by
      simpa using any_eq_false.1 commented item member
    rcases h.rowText_eq listed free with ⟨none, empty⟩ | ⟨t, one, same, -⟩
    · exact .blank none commented empty
    · exact .part one commented same
  | true =>
    obtain ⟨lead, c, more, rfl, none⟩ := exists_comment commented
    have free : ∀ item ∈ lead, item.isComment = false := fun item member => by
      simpa using any_eq_false.1 none item member
    have starts := note c (mem_of_mem_stretches listed (by simp)).1
    have blank : ∀ d, .mark d ∈ lead → isBlank d := fun d member =>
      h.blank listed d (by simp [member])
    have text : textOf (lead ++ .comment c :: more) = textOf lead ++ (c ++ textOf more) := by
      rw [textOf_append]
      rfl
    have parts : partsOf (lead ++ .comment c :: more) = partsOf lead ++ partsOf more :=
      partsOf_append lead (.comment c :: more)
    rcases before : partsOf lead with _ | ⟨t, rest⟩
    · refine .note commented ?_
      rw [rowText, text]
      exact trim_note (isBlank_textOf before free blank) starts _
    · have most := h.apart _ listed
      rw [parts, before, cons_append, length_cons] at most
      obtain ⟨rfl, after⟩ : rest = [] ∧ partsOf more = [] :=
        append_eq_nil_iff.1 (length_eq_zero_iff.1 (by omega))
      obtain ⟨first, gap, rfl, noFirst, noGap⟩ := exists_of_partsOf before
      have inside : ∀ d, .mark d ∈ first ∨ .mark d ∈ gap → isBlank d :=
        fun d member => blank d (by simpa using member)
      have trimmed := h.trimmed t (mem_of_mem_stretches listed (by simp)).1
      have blankFirst := isBlank_textOf noFirst (forall_mem_append.1 free).1
        fun d member => inside d (.inl member)
      have blankGap := isBlank_textOf noGap (fun item member => free item (by simp [member]))
        fun d member => inside d (.inr member)
      obtain ⟨note', same, starts', ends⟩ :=
        @trim_noted _ _ (textOf gap) _ blankFirst trimmed starts (textOf more)
      refine .noted (by rw [parts, before, after]; rfl) commented ?_ blankGap starts' ends
      rw [rowText, text, textOf_append, textOf_cons, append_assoc, append_assoc]
      exact same

theorem comment_of_free {items : List Item} (free : hasComment items = false) (t : Text)
    (rest : List Item) (ends : .comment t :: rest <:+ items) : IsComment t rest := by
  have none := any_eq_false.1 free (.comment t) (ends.subset (by simp))
  simp [Item.isComment] at none

theorem comment_append {lead : List Item} (free : hasComment lead = false) {t : Text}
    {items : List Item} (here : IsComment t items)
    (later : ∀ t rest, .comment t :: rest <:+ items → IsComment t rest) (t' : Text)
    (rest : List Item) (ends : .comment t' :: rest <:+ lead ++ .comment t :: items) :
    IsComment t' rest := by
  induction lead with
  | nil =>
    rcases suffix_cons_iff.1 ends with same | inside
    · obtain ⟨⟨⟩, rfl⟩ := cons.inj same
      exact here
    · exact later t' rest inside
  | cons item lead ih =>
    rcases suffix_cons_iff.1 ends with same | inside
    · cases same
      cases free
    · exact ih (Bool.or_eq_false_iff.1 free).2 inside

theorem mark_of_all {items : List Item}
    (all : items.all (fun item => item.isComment || item.part?.isSome ||
      item.text.all fun c => isBlank c || separators.contains c)) (c : Char)
    (member : .mark c ∈ items) : isBlank c ∨ c ∈ separators := by
  simpa [Item.isComment, Item.part?, Item.text] using all_eq_true.1 all _ member

/-- A list whose parts end where they end, with comments in the blanks around them. -/
structure IsCommented (separators : List Char) (angles : Bool) (items : List Item) : Prop where
  trimmed : ∀ t, .part t ∈ items → t.IsTrimmed
  level : ∀ t, .part t ∈ items → IsLevel angles t
  whole : ∀ t, .part t ∈ items → ∀ c ∈ outer angles 0 none (pieces t), c ∉ separators
  ends : ∀ t, .part t ∈ items → ∀ rest, Parts t rest
  mark : ∀ c, .mark c ∈ items → isBlank c ∨ c ∈ separators
  comment : ∀ t rest, .comment t :: rest <:+ items → IsComment t rest
  apart : ∀ s ∈ stretches separators items, (partsOf s).length ≤ 1

namespace IsCommented

variable {items : List Item}

section

variable (h : IsCommented separators angles items)

include h

theorem isLayout (known : separators ⊆ marks) : IsLayout separators angles items :=
  ⟨pieces_textOf
      (fun c member => (h.mark c member).elim isPlain_of_isBlank fun listed =>
        isPlain_of_mark (known listed))
      (fun t _ ends => h.ends t (ends.subset (mem_cons_self ..)) _)
      fun t rest ends => (h.comment t rest ends).pieces_append,
    h.trimmed, h.level, h.whole, h.mark, h.apart⟩

theorem isNote (t : Text) (member : .comment t ∈ items) : isNote t := by
  obtain ⟨init, rest, rfl⟩ := append_of_mem member
  exact (h.comment t rest (suffix_append _ _)).isNote

theorem bare : IsCommented separators angles (bare items) := by
  have inside {item : Item} (member : item ∈ Code.bare items) : item ∈ items :=
    (mem_filter.1 member).1
  refine ⟨fun t member => h.trimmed t (inside member), fun t member => h.level t (inside member),
    fun t member => h.whole t (inside member), fun t member => h.ends t (inside member),
    fun c member => h.mark c (inside member), fun t rest ends => ?_, fun s listed => ?_⟩
  · cases (mem_filter.1 (ends.subset (mem_cons_self ..))).2
  · rw [stretches_bare] at listed
    obtain ⟨s', listed', rfl⟩ := mem_map.1 listed
    rw [partsOf_bare]
    exact h.apart s' listed'

theorem row (known : separators ⊆ marks) (listed : s ∈ stretches separators items) : Row s :=
  (h.isLayout known).row h.isNote listed

theorem splitTop_eq (known : separators ⊆ marks) :
    splitTop separators angles (textOf items) = rowsOf (stretches separators items) :=
  (h.isLayout known).splitTop_eq known

theorem splitTop_bare (known : separators ⊆ marks) :
    splitTop separators angles (textOf (Code.bare items)) = partsOf items := by
  rw [(h.bare.isLayout known).splitTop_eq_partsOf known isComment_of_mem_bare, partsOf_bare]

end

end IsCommented

end Code

end SfcJsx
