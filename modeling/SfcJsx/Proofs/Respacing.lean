import SfcJsx.Module.Indent
import SfcJsx.Proofs.StatementStart

/-!
Changing the indentation of code, seen from its white space. `respace` keeps every character that is
no blank and every run of blanks inside a line, and puts a new run wherever a line ends. Main
statement: this is all that `reindent` does.
-/

namespace SfcJsx

open List

variable {c : Char} {gap t lead line first rest s : Text} {lines : List Text} {n : Nat}

namespace Text

theorem isBlankText_append (s t : Text) : (s ++ t).isBlankText = (s.isBlankText && t.isBlankText) :=
  all_append

theorem isBlankText_singleton (blank : isBlank c) : isBlankText [c] := by
  simpa [isBlankText] using blank

theorem isBlankText_concat (blank : gap.isBlankText)
    (last : isBlank c) : (gap ++ [c]).isBlankText := by
  rw [isBlankText_append, blank, isBlankText_singleton last]
  rfl

theorem trailingBlanks_append_cons (shown : isBlank c = false) (s t : Text) :
    (s ++ c :: t).trailingBlanks = t.trailingBlanks := by
  unfold trailingBlanks
  rw [reverse_append, reverse_cons, append_assoc]
  exact congrArg reverse (takeWhile_append_of_head? (by simpa using shown) _)

theorem trimEnd_of_isBlankText (blank : t.isBlankText) : t.trimEnd = [] := by
  have all : ∀ c ∈ t.reverse, isBlank c := by simpa [isBlankText] using blank
  have none : (t.reverse ++ []).dropWhile isBlank = [] := dropWhile_append_of_pos all
  rw [append_nil] at none
  rw [trimEnd, none]
  rfl

theorem trailingBlanks_of_isBlankText (blank : t.isBlankText) : t.trailingBlanks = t := by
  have all : ∀ c ∈ t.reverse, isBlank c := by simpa [isBlankText] using blank
  have whole : (t.reverse ++ []).takeWhile isBlank = t.reverse := takeWhile_append all rfl
  rw [append_nil] at whole
  rw [trailingBlanks, whole, reverse_reverse]

theorem isBlankText_leadingBlanks (t : Text) : t.leadingBlanks.isBlankText := all_takeWhile

theorem isBlankText_trailingBlanks (t : Text) : t.trailingBlanks.isBlankText := by
  rw [isBlankText, trailingBlanks, all_reverse]
  exact all_takeWhile

theorem trailingBlanks_subset (t : Text) : t.trailingBlanks ⊆ t := by
  intro c inside
  exact mem_reverse.1 ((List.takeWhile_prefix _).subset (mem_reverse.1 inside))

theorem exists_of_isBlankText_eq_false (shown : t.isBlankText = false) :
    ∃ (c : Char) (rest : Text), isBlank c = false ∧ t = t.leadingBlanks ++ c :: rest := by
  have parts := leadingBlanks_append_trimStart t
  cases first : t.trimStart with
  | nil =>
    rw [first, append_nil] at parts
    rw [← parts, isBlankText_leadingBlanks] at shown
    cases shown
  | cons c rest =>
    have stops := head?_dropWhile isBlank t
    change t.trimStart.head?.any isBlank = false at stops
    rw [first] at stops parts
    exact ⟨c, rest, stops, parts.symm⟩

theorem leadingBlanks_append_cons (blank : lead.isBlankText) (shown : isBlank c = false)
    (rest : Text) : (lead ++ c :: rest).leadingBlanks = lead :=
  takeWhile_append (all_eq_true.1 blank) shown

theorem from?_append (inside : n ≤ s.width) (t : Text) :
    (s ++ t).from? n = (s.from? n).map (· ++ t) := by
  induction s generalizing n with
  | nil =>
    obtain rfl : n = 0 := by simpa using inside
    simp
  | cons c s ih =>
    cases n with
    | zero => simp
    | succ n =>
      simp only [cons_append, from?]
      split
      · exact ih (by simp at inside; omega)
      · rfl

theorem suffix_of_from? (cut : t.from? n = some rest) : rest <:+ t := by
  induction t generalizing n with
  | nil =>
    cases n with
    | zero => cases cut; exact suffix_refl _
    | succ n => cases cut
  | cons c t ih =>
    cases n with
    | zero => cases cut; exact suffix_refl _
    | succ n =>
      simp only [from?] at cut
      split at cut
      · exact (ih cut).trans (suffix_cons c t)
      · cases cut

theorem from?_getD_subset (t : Text) (n : Nat) : (t.from? n).getD [] ⊆ t := by
  cases cut : t.from? n with
  | none => simp
  | some rest => exact (suffix_of_from? cut).subset

theorem isBlankText_of_subset (within : s ⊆ t) (blank : t.isBlankText) : s.isBlankText :=
  all_eq_true.2 fun c inside => all_eq_true.1 blank c (within inside)

theorem intercalate_cons (c : Char) (first : Text) (rest : List Text) :
    intercalate [c] (first :: rest) = first ++ rest.flatMap (c :: ·) := by
  induction rest generalizing first with
  | nil => simp
  | cons second rest ih => simp [ih]

theorem exists_fields_eq (t : Text) :
    ∃ (first : Text) (rest : List Text), t.fields (· == '\n') = first :: rest ∧
      t = first ++ rest.flatMap ('\n' :: ·) ∧ ∀ piece ∈ first :: rest, '\n' ∉ piece := by
  obtain ⟨first, rest, read⟩ := @exists_fields_cons (· == '\n') t
  have whole := intercalate_fields '\n' t
  rw [read, intercalate_cons] at whole
  exact ⟨first, rest, read, whole.symm, fun piece member => not_mem_of_mem_fields (read ▸ member)⟩

end Text

namespace Module

open Text

theorem dropIndent_eq {common : Nat} (blank : lead.isBlankText) (shown : isBlank c = false)
    (inside : common ≤ lead.width) (rest : Text) :
    dropIndent common (lead ++ c :: rest) =
      (lead.from? common).getD [] ++ c :: rest.trimEnd := by
  unfold dropIndent
  rw [from?_append inside]
  cases lead.from? common with
  | some kept => exact trimEnd_append shown rest
  | none =>
    have start : (lead ++ c :: rest).trimStart = c :: rest := by
      rw [trimStart, dropWhile_append_of_pos (all_eq_true.1 blank)]
      exact dropWhile_of_head? shown
    rw [start]
    exact trimEnd_append (s := []) shown rest

/-- What is put for white space with a line break: the line break, an empty line when there are
blank ones, and the indentation of the next line with content. -/
def freshBreak (common : Nat) (indent gap : Text) : Text :=
  '\n' :: ((if 2 ≤ gap.count '\n' then ['\n'] else []) ++ indent ++
    ((Code.lastLine gap).from? common).getD [])

def freshGap (common : Nat) (indent gap : Text) : Text :=
  if '\n' ∈ gap then freshBreak common indent gap else gap

/-- A text with fresh white space; `gap` is the white space before it. It ends with a line break. -/
def respace (common : Nat) (indent gap : Text) : Text → Text
  | [] => ['\n']
  | c :: rest =>
    if isBlank c then respace common indent (gap ++ [c]) rest
    else freshGap common indent gap ++ c :: respace common indent [] rest

section Respace

variable {common : Nat} {indent : Text}

@[simp] theorem respace_nil (gap : Text) : respace common indent gap [] = ['\n'] := rfl

theorem respace_of_isBlank (blank : isBlank c) (gap rest : Text) :
    respace common indent gap (c :: rest) = respace common indent (gap ++ [c]) rest := by
  rw [respace, if_pos blank]

theorem respace_of_shown (shown : isBlank c = false) (gap rest : Text) :
    respace common indent gap (c :: rest) =
      freshGap common indent gap ++ c :: respace common indent [] rest := by
  rw [respace, if_neg (by simp [shown])]

@[simp] theorem freshGap_nil : freshGap common indent [] = [] := rfl

theorem freshGap_of_inline (inline : '\n' ∉ gap) : freshGap common indent gap = gap := if_neg inline

theorem respace_append {run : Text} (blank : run.isBlankText) (gap rest : Text) :
    respace common indent gap (run ++ rest) = respace common indent (gap ++ run) rest := by
  induction run generalizing gap with
  | nil => simp
  | cons c run ih =>
    simp only [isBlankText, all_cons, Bool.and_eq_true] at blank
    rw [cons_append, respace_of_isBlank blank.1, ih blank.2, append_assoc]
    rfl

theorem respace_inline (blank : gap.isBlankText) (inline : '\n' ∉ gap ++ line) (rest : Text) :
    respace common indent gap (line ++ rest) =
      (gap ++ line).trimEnd ++ respace common indent (gap ++ line).trailingBlanks rest := by
  induction line generalizing gap with
  | nil =>
    rw [append_nil, trimEnd_of_isBlankText blank, trailingBlanks_of_isBlankText blank]
    rfl
  | cons c line ih =>
    rw [cons_append]
    cases shown : isBlank c with
    | true =>
      rw [respace_of_isBlank shown, ih (isBlankText_concat blank shown) (by simpa using inline),
        append_assoc]
      rfl
    | false =>
      simp only [mem_append, mem_cons, not_or] at inline
      rw [respace_of_shown shown, freshGap_of_inline inline.1, ih rfl (by simpa using inline.2.2),
        trimEnd_append shown, trailingBlanks_append_cons shown, append_assoc]
      rfl

theorem respace_line (blank : lead.isBlankText)
    (shown : isBlank c = false) (inline : '\n' ∉ rest) (more : Text) :
    respace common indent gap (lead ++ c :: rest ++ more) =
      freshGap common indent (gap ++ lead) ++ c :: rest.trimEnd ++
        respace common indent rest.trailingBlanks more := by
  rw [append_assoc, respace_append blank, cons_append, respace_of_shown shown,
    respace_inline rfl (by simpa using inline)]
  simp

theorem lastLine_break (inline : '\n' ∉ lead) (gap : Text) :
    Code.lastLine (gap ++ '\n' :: lead) = lead := by
  have parts : gap ++ '\n' :: lead = gap ++ ['\n'] ++ lead := by simp
  have ends : Code.lastLine (gap ++ ['\n']) = [] := by simp [Code.lastLine]
  rw [parts, Code.lastLine_append inline, ends]
  rfl

theorem freshGap_break (inline : '\n' ∉ lead) (gap : Text) :
    freshGap common indent (gap ++ '\n' :: lead) =
      '\n' :: ((if '\n' ∈ gap then ['\n'] else []) ++ indent ++ (lead.from? common).getD []) := by
  have twice : 2 ≤ (gap ++ '\n' :: lead).count '\n' ↔ '\n' ∈ gap := by
    rw [count_append, count_cons_self, count_eq_zero_of_not_mem inline, ← count_pos_iff]
    omega
  rw [freshGap, if_pos (by simp), freshBreak, lastLine_break inline]
  simp only [twice]

theorem respace_lines (inline : ∀ line ∈ lines, '\n' ∉ line)
    (inside : ∀ line ∈ lines, line.isBlankText = false → common ≤ line.leadingBlanks.width)
    {gap : Text} (blank : gap.isBlankText) :
    respace common indent gap (lines.flatMap ('\n' :: ·)) =
      '\n' :: indentLines common indent true (decide ('\n' ∈ gap)) lines := by
  induction lines generalizing gap with
  | nil => rfl
  | cons line lines ih =>
    have more := @ih (forall_mem_cons.1 inline).2 (forall_mem_cons.1 inside).2
    have break_blank : isBlank '\n' := by decide
    have here := inline line (by simp)
    rw [flatMap_cons, cons_append, respace_of_isBlank break_blank, indentLines]
    have broken : (gap ++ ['\n']).isBlankText := isBlankText_concat blank break_blank
    cases shown : line.isBlankText with
    | true =>
      rw [respace_append shown, more (by rw [isBlankText_append, broken, shown]; rfl)]
      simp
    | false =>
      obtain ⟨c, rest, visible, parts⟩ := exists_of_isBlankText_eq_false shown
      have bound := inside line (by simp) shown
      have leading := isBlankText_leadingBlanks line
      generalize line.leadingBlanks = lead at parts bound leading
      subst parts
      simp only [mem_append, mem_cons, not_or] at here
      have trailing : '\n' ∉ rest.trailingBlanks := fun member =>
        here.2.2 (trailingBlanks_subset rest member)
      rw [respace_line leading visible here.2.2, append_assoc gap, singleton_append, freshGap_break
        here.1, more (isBlankText_trailingBlanks rest), dropIndent_eq leading visible bound]
      by_cases pending : '\n' ∈ gap <;> simp [trailing, pending]

theorem indentLines_first (inline : ∀ line ∈ first :: lines, '\n' ∉ line)
    (inside : ∀ line ∈ first :: lines, line.isBlankText = false → common ≤ line.leadingBlanks.width)
    (shown : first.isBlankText = false) :
    ∃ kept : Text, kept.isBlankText ∧
      indentLines common indent false false (first :: lines) =
        indent ++ kept ++
          respace common indent [] (first ++ lines.flatMap ('\n' :: ·)).trimStart := by
  obtain ⟨c, rest, visible, parts⟩ := exists_of_isBlankText_eq_false shown
  have bound := inside first (by simp) shown
  have leading := isBlankText_leadingBlanks first
  have here := inline first (by simp)
  generalize first.leadingBlanks = lead at parts bound leading
  subst parts
  simp only [mem_append, mem_cons, not_or] at here
  have trailing : '\n' ∉ rest.trailingBlanks := fun member =>
    here.2.2 (trailingBlanks_subset rest member)
  have start (more : Text) : (lead ++ c :: rest ++ more).trimStart = c :: rest ++ more := by
    rw [trimStart, append_assoc, dropWhile_append_of_pos (all_eq_true.1 leading)]
    exact dropWhile_of_head? visible
  have after : respace common indent rest.trailingBlanks (lines.flatMap ('\n' :: ·)) =
      '\n' :: indentLines common indent true (decide ('\n' ∈ rest.trailingBlanks)) lines :=
    respace_lines (forall_mem_cons.1 inline).2
      (forall_mem_cons.1 inside).2 (isBlankText_trailingBlanks rest)
  refine ⟨(lead.from? common).getD [], ?_, ?_⟩
  · exact isBlankText_of_subset (from?_getD_subset lead common) leading
  · have line := @respace_line c [] [] rest common indent rfl visible here.2.2
    rw [nil_append] at line
    rw [start, line, after, indentLines, shown, dropIndent_eq leading visible bound]
    simp [trailing]

theorem indentLines_start (inline : ∀ line ∈ first :: lines, '\n' ∉ line)
    (inside : ∀ line ∈ first :: lines, line.isBlankText = false → common ≤ line.leadingBlanks.width)
    (shown : (first ++ lines.flatMap ('\n' :: ·)).isBlankText = false) :
    ∃ kept : Text, kept.isBlankText ∧
      indentLines common indent false false (first :: lines) =
        indent ++ kept ++
          respace common indent [] (first ++ lines.flatMap ('\n' :: ·)).trimStart := by
  induction lines generalizing first with
  | nil => exact indentLines_first inline inside (by simpa using shown)
  | cons line lines ih =>
    cases visible : first.isBlankText with
    | false => exact indentLines_first inline inside visible
    | true =>
      have skipped : (first ++ ['\n']).isBlankText := isBlankText_concat visible (by decide)
      have parts : first ++ (line :: lines).flatMap ('\n' :: ·) =
          first ++ ['\n'] ++ (line ++ lines.flatMap ('\n' :: ·)) := by simp
      rw [parts, isBlankText_append, skipped] at shown
      obtain ⟨kept, blank, rest⟩ := ih (forall_mem_cons.1 inline).2
        (forall_mem_cons.1 inside).2 shown
      refine ⟨kept, blank, ?_⟩
      rw [indentLines, if_pos visible, rest, parts, trimStart, trimStart,
        dropWhile_append_of_pos (all_eq_true.1 skipped)]

end Respace

theorem dropCarriageReturn_cases (line : Text) :
    line.dropCarriageReturn = line ∨ line = line.dropCarriageReturn ++ ['\r'] := by
  unfold dropCarriageReturn
  cases found : before? ['\r'] line with
  | none => exact .inl rfl
  | some rest => exact .inr (eq_append_of_before? found)

theorem isBlankText_dropCarriageReturn (line : Text) :
    line.dropCarriageReturn.isBlankText = line.isBlankText := by
  obtain same | whole := dropCarriageReturn_cases line
  · rw [same]
  · have end_blank : isBlankText ['\r'] := by decide
    conv => rhs; rw [whole]
    rw [isBlankText_append, end_blank, Bool.and_true]

theorem exists_dropCarriageReturn (visible : isBlank c = false) (lead rest : Text) :
    ∃ rest' : Text, dropCarriageReturn (lead ++ c :: rest) = lead ++ c :: rest' ∧
      rest'.trimEnd = rest.trimEnd := by
  obtain same | whole := dropCarriageReturn_cases (lead ++ c :: rest)
  · exact ⟨rest, same, rfl⟩
  · generalize dropCarriageReturn (lead ++ c :: rest) = kept at whole ⊢
    obtain rfl | ⟨rest', d, rfl⟩ := eq_nil_or_concat rest
    · obtain rfl : c = '\r' := by simpa using congrArg getLast? whole
      cases visible
    · have ends : lead ++ c :: rest' ++ [d] = kept ++ ['\r'] := by simpa using whole
      obtain ⟨rfl, last⟩ := append_inj' ends rfl
      obtain rfl : d = '\r' := by simpa using last
      have end_blank : isBlank '\r' := by decide
      exact ⟨rest', rfl, by simp [trimEnd, end_blank]⟩

theorem leadingBlanks_dropCarriageReturn (shown : line.isBlankText = false) :
    line.dropCarriageReturn.leadingBlanks = line.leadingBlanks := by
  obtain ⟨c, rest, visible, parts⟩ := exists_of_isBlankText_eq_false shown
  have leading := isBlankText_leadingBlanks line
  generalize line.leadingBlanks = lead at parts leading ⊢
  subst parts
  obtain ⟨rest', kept, -⟩ := exists_dropCarriageReturn visible lead rest
  rw [kept, leadingBlanks_append_cons leading visible]

section Lines

variable {common : Nat} (indent : Text)

theorem dropIndent_dropCarriageReturn (shown : line.isBlankText = false)
    (inside : common ≤ line.leadingBlanks.width) :
    dropIndent common line.dropCarriageReturn = dropIndent common line := by
  obtain ⟨c, rest, visible, parts⟩ := exists_of_isBlankText_eq_false shown
  have leading := isBlankText_leadingBlanks line
  generalize line.leadingBlanks = lead at parts leading inside
  subst parts
  obtain ⟨rest', kept, same⟩ := exists_dropCarriageReturn visible lead rest
  rw [kept, dropIndent_eq leading visible inside, dropIndent_eq leading visible inside, same]

theorem indentLines_dropCarriageReturn
    (inside : ∀ line ∈ lines, line.isBlankText = false → common ≤ line.leadingBlanks.width)
    (started pending : Bool) (more : List Text) :
    indentLines common indent started pending (lines.map dropCarriageReturn ++ more) =
      indentLines common indent started pending (lines ++ more) := by
  induction lines generalizing started pending with
  | nil => rfl
  | cons line lines ih =>
    have rest := ih (forall_mem_cons.1 inside).2
    simp only [map_cons, cons_append, indentLines, isBlankText_dropCarriageReturn, rest]
    cases shown : line.isBlankText with
    | true => rfl
    | false => rw [dropIndent_dropCarriageReturn shown (inside line (by simp) shown)]

theorem indentLines_concat_nil (lines : List Text) (started pending : Bool) :
    indentLines common indent started pending (lines ++ [[]]) =
      indentLines common indent started pending lines := by
  induction lines generalizing started pending with
  | nil => rfl
  | cons line lines ih => simp only [cons_append, indentLines, ih]

theorem exists_lines_eq (t : Text) :
    ∃ (init : List Text) (last : Text), t.fields (· == '\n') = init ++ [last] ∧
      t.lines = init.map dropCarriageReturn ++ if last = [] then [] else [last] := by
  obtain ⟨first, rest, read, -, -⟩ := exists_fields_eq t
  obtain none | ⟨init, last, parts⟩ := eq_nil_or_concat (first :: rest)
  · cases none
  · rw [concat_eq_append] at parts
    refine ⟨init, last, read.trans parts, ?_⟩
    rw [lines, read, parts]
    cases last <;> simp

theorem commonIndent_le {piece : Text} (member : piece ∈ t.fields (· == '\n'))
    (shown : piece.isBlankText = false) : commonIndent t.lines ≤ piece.leadingBlanks.width := by
  have least {line : Text} (member : line ∈ t.lines) (shown : line.isBlankText = false) :
      commonIndent t.lines ≤ line.leadingBlanks.width := by
    refine min?_getD_le_of_mem (mem_map.2 ⟨line, ?_, rfl⟩)
    exact mem_filter.2 ⟨member, by simp [shown]⟩
  obtain ⟨init, last, read, lines⟩ := exists_lines_eq t
  rw [read, mem_append, mem_singleton] at member
  obtain member | rfl := member
  · rw [← leadingBlanks_dropCarriageReturn shown]
    refine least ?_ (by rw [isBlankText_dropCarriageReturn, shown])
    rw [lines]
    exact mem_append_left _ (mem_map_of_mem member)
  · refine least ?_ shown
    have ne : piece ≠ [] := fun empty => by simp [empty, isBlankText] at shown
    simp [lines, ne]

theorem reindent_eq_indentLines (t : Text) :
    reindent t indent =
      indentLines (commonIndent t.lines) indent false false (t.fields (· == '\n')) := by
  obtain ⟨init, last, read, lines⟩ := exists_lines_eq t
  have inside : ∀ line ∈ init,
      line.isBlankText = false → commonIndent t.lines ≤ line.leadingBlanks.width :=
    fun line member shown => commonIndent_le (by simp [read, member]) shown
  have ends : indentLines (commonIndent t.lines) indent false false t.lines =
      indentLines (commonIndent t.lines) indent false false (init ++ [last]) := by
    generalize commonIndent t.lines = common at inside
    rw [lines, indentLines_dropCarriageReturn indent inside]
    split
    · next empty => rw [empty, append_nil, indentLines_concat_nil]
    · rfl
  rw [reindent, ends, read]

theorem indentLines_of_isBlankText (blank : ∀ line ∈ lines, line.isBlankText) (common : Nat) :
    indentLines common indent false false lines = [] := by
  induction lines with
  | nil => rfl
  | cons line lines ih =>
    rw [indentLines, if_pos (blank line (by simp))]
    exact ih (forall_mem_cons.1 blank).2

end Lines

theorem exists_reindent_eq (t indent : Text) :
    t.isBlankText ∧ reindent t indent = [] ∨
    ∃ kept : Text, kept.isBlankText ∧
      reindent t indent =
        indent ++ kept ++ respace (commonIndent t.lines) indent [] t.trimStart := by
  obtain ⟨first, rest, read, whole, inline⟩ := exists_fields_eq t
  have inside : ∀ line ∈ first :: rest,
      line.isBlankText = false → commonIndent t.lines ≤ line.leadingBlanks.width :=
    fun line member shown => commonIndent_le (by rwa [read]) shown
  rw [reindent_eq_indentLines, read]
  generalize commonIndent t.lines = common at inside
  subst whole
  cases shown : (first ++ rest.flatMap ('\n' :: ·)).isBlankText with
  | false => exact .inr (indentLines_start inline inside shown)
  | true =>
    refine .inl ⟨rfl, indentLines_of_isBlankText indent ?_ common⟩
    intro line member
    refine isBlankText_of_subset (fun c here => ?_) shown
    rw [mem_cons] at member
    obtain rfl | member := member
    · exact mem_append_left _ here
    · refine mem_append_right _ (mem_flatMap.2 ⟨line, member, ?_⟩)
      exact mem_cons_of_mem _ here

end Module

end SfcJsx
