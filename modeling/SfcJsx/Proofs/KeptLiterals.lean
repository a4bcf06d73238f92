import SfcJsx.Module.Assembly
import SfcJsx.Proofs.Respacing

/-!
String and template literals in code that is moved. Re-indenting goes line by line and takes no
notice of literals. Main statement: the literals of a setup body come out as they are exactly when
each of them does, that is when the white space at every line end inside it is what re-indenting
puts there.
-/

namespace SfcJsx

open List

variable {gap t rest run : Text} {c d : Char}

namespace Code

def Piece.literal? : Piece → Option Text
  | literal text => some text
  | _ => none

/-- The string and template literals of code, in order. -/
def literals (t : Text) : List Text := (pieces t).filterMap Piece.literal?

/-- A literal that ends with its closing quote: what follows does not belong to it. -/
def IsClosed : Text → Prop
  | [] => False
  | quote :: body => ∀ after : Text, literalTail quote (body ++ after) = (body, after)

@[simp] theorem literals_nil : literals [] = [] := by simp [literals, pieces]

theorem literals_cons (c : Char) (rest : Text) :
    literals (c :: rest) = (lead c rest).1.literal?.toList ++ literals (lead c rest).2 := by
  rw [literals, pieces, filterMap_cons]
  cases (lead c rest).1.literal? <;> rfl

theorem literals_append_of_isBlankText (blank : gap.isBlankText) (t : Text) :
    literals (gap ++ t) = literals t := by
  have plain : ∀ c ∈ gap, isPlain c := fun c inside =>
    isPlain_of_isBlank (all_eq_true.1 blank c inside)
  have none : (gap.map Piece.code).filterMap Piece.literal? = [] := by
    simp [filterMap_map, Function.comp_def, Piece.literal?]
  rw [literals, pieces_append_of_isPlain plain, filterMap_append, none]
  rfl

theorem literals_of_isBlankText (blank : t.isBlankText) : literals t = [] := by
  simpa using literals_append_of_isBlankText blank []

theorem literal?_lead (other : isQuote c = false) (rest : Text) :
    (lead c rest).1.literal? = none := by
  rw [lead, if_neg (by simp [other])]
  split
  · rfl
  · split <;> rfl

theorem exists_of_mem_literals {text : Text} (member : text ∈ literals t) :
    ∃ (quote : Char) (body : Text), isQuote quote ∧ text = quote :: body := by
  fun_induction pieces t with
  | case1 => simp at member
  | case2 c rest ih =>
    rw [literals_cons, mem_append] at member
    obtain here | later := member
    · cases quoted : isQuote c with
      | false => simp [literal?_lead quoted] at here
      | true =>
        refine ⟨c, (literalTail c rest).1, quoted, ?_⟩
        simpa [lead, quoted, Piece.literal?] using here
    · exact ih later

/-- The rest of a literal and what follows it; `escaped` tells whether a backslash takes the next
character along. -/
def literalRest (quote : Char) : (escaped : Bool) → Text → Text × Text
  | _, [] => ([], [])
  | escaped, c :: rest =>
    if !escaped && c == quote then ([c], rest)
    else if !escaped && c == '\n' && quote != '`' then ([], c :: rest)
    else
      let (body, after) := literalRest quote (!escaped && c == '\\') rest
      (c :: body, after)

theorem literalTail_eq_literalRest {quote : Char} (quoted : isQuote quote) (t : Text) :
    literalTail quote t = literalRest quote false t := by
  have notBackslash : quote ≠ '\\' := by
    rintro rfl
    cases quoted
  fun_induction literalTail quote t with
  | case1 => rfl
  | case2 c rest body after read ih =>
    simp [literalRest, ← ih, read, Ne.symm notBackslash]
  | case3 rest => simp [literalRest]
  | case4 c rest _ other broken =>
    rw [broken.1] at other
    simp [literalRest, broken, other]
  | case5 c rest single other goesOn body after read ih =>
    have kept : (c == '\n' && quote != '`') = false := by simpa using goesOn
    by_cases backslash : c = '\\'
    · obtain rfl : rest = [] := by
        cases rest with
        | nil => rfl
        | cons d rest => exact (single d rest backslash rfl).elim
      obtain ⟨rfl, rfl⟩ : body = [] ∧ after = [] := by simpa [literalTail] using read.symm
      simp [literalRest, other, kept]
    · have plain : (c == '\\') = false := by simpa using backslash
      simp [literalRest, other, kept, plain, ← ih, read]

theorem ne_marks_of_isBlank (blank : Text.isBlank c) {quote : Char}
    (quoted : isQuote quote) : c ≠ quote ∧ c ≠ '\\' := by
  refine ⟨?_, ?_⟩
  · rintro rfl
    have plain := isPlain_of_isBlank blank
    simp [isPlain, quoted] at plain
  · rintro rfl
    revert blank
    decide

section Rest

variable {quote : Char} (quoted : isQuote quote) {escaped : Bool}

include quoted

theorem literalRest_of_isBlank (blank : Text.isBlank c) (goesOn : escaped ∨ c ≠ '\n' ∨ quote = '`')
    (rest : Text) :
    literalRest quote escaped (c :: rest) =
      (c :: (literalRest quote false rest).1, (literalRest quote false rest).2) := by
  obtain ⟨notQuote, notBackslash⟩ := ne_marks_of_isBlank blank quoted
  have kept : (!escaped && c == '\n' && quote != '`') = false := by
    obtain rfl | other | rfl := goesOn <;> simp [*]
  have plain : (c == '\\') = false := by simpa using notBackslash
  simp [literalRest, notQuote, kept, plain]

theorem literalRest_gap (blank : gap.isBlankText)
    (goesOn : '\n' ∉ gap.drop escaped.toNat ∨ quote = '`') (rest : Text) :
    literalRest quote escaped (gap ++ rest) =
      (gap ++ (literalRest quote (escaped && gap.isEmpty) rest).1,
        (literalRest quote (escaped && gap.isEmpty) rest).2) := by
  induction gap generalizing escaped with
  | nil => simp
  | cons c gap ih =>
    simp only [Text.isBlankText, all_cons, Bool.and_eq_true] at blank
    have here : escaped ∨ c ≠ '\n' ∨ quote = '`' := by
      cases escaped with
      | true => exact .inl rfl
      | false => exact .inr (goesOn.imp_left fun inline same => inline (by simp [same]))
    have later : '\n' ∉ gap.drop false.toNat ∨ quote = '`' := by
      refine goesOn.imp_left fun inline member => inline ?_
      cases escaped with
      | true => exact member
      | false => exact mem_cons_of_mem c member
    rw [cons_append, literalRest_of_isBlank quoted blank.1 here, ih blank.2 later]
    simp

omit quoted in
theorem literalRest_break (plain : quote ≠ '`') (quoted : isQuote quote) (rest : Text) :
    literalRest quote false ('\n' :: rest) = ([], '\n' :: rest) := by
  have notQuote : ('\n' == quote) = false := by
    rw [beq_eq_false_iff_ne]
    exact (ne_marks_of_isBlank (by decide) quoted).1
  simp [literalRest, notQuote, plain]

theorem literalRest_ends (plain : quote ≠ '`') (blank : gap.isBlankText)
    (inline : '\n' ∉ gap.drop escaped.toNat) (taken : (escaped && gap.isEmpty) = false)
    (rest : Text) : literalRest quote escaped (gap ++ '\n' :: rest) = (gap, '\n' :: rest) := by
  rw [literalRest_gap quoted blank (.inl inline), taken, literalRest_break plain quoted, append_nil]

end Rest

theorem literalRest_of_shown (shown : Text.isBlank c = false) (quote : Char)
    (escaped : Bool) (rest : Text) :
    literalRest quote escaped (c :: rest) =
      if !escaped && c == quote then ([c], rest)
      else (c :: (literalRest quote (!escaped && c == '\\') rest).1,
        (literalRest quote (!escaped && c == '\\') rest).2) := by
  have notBreak : (c == '\n') = false := by
    rw [beq_eq_false_iff_ne]
    rintro rfl
    revert shown
    decide
  simp [literalRest, notBreak]

theorem exists_literalRest_of_shown (shown : Text.isBlank c = false) (quote : Char)
    (escaped : Bool) (rest : Text) :
    ∃ body after : Text, literalRest quote escaped (c :: rest) = (c :: body, after) := by
  rw [literalRest_of_shown shown]
  split
  · exact ⟨[], rest, rfl⟩
  · exact ⟨_, _, rfl⟩

theorem literalRest_append (quote : Char) (escaped : Bool) (t : Text) :
    (literalRest quote escaped t).1 ++ (literalRest quote escaped t).2 = t := by
  induction t generalizing escaped with
  | nil => rfl
  | cons c t ih =>
    rw [literalRest]
    split
    · rfl
    · split
      · rfl
      · simp [ih]

theorem lead_of_isQuote (quoted : isQuote c) (rest : Text) :
    lead c rest = (.literal (c :: (literalRest c false rest).1), (literalRest c false rest).2) := by
  rw [lead, if_pos quoted, literalTail_eq_literalRest quoted]

theorem blockTail_close (rest : Text) : (blockTail ('*' :: '/' :: rest)).2 = rest := by
  simp [blockTail, Text.cut?, Text.after?]

theorem blockTail_skip (other : ¬(c = '*' ∧ rest.head? = some '/')) :
    (blockTail (c :: rest)).2 = (blockTail rest).2 := by
  have absent : Text.after? "*/" (c :: rest) = none := by
    rw [Text.after?_eq_none_iff]
    rintro ⟨tail, whole⟩
    obtain ⟨star, rfl⟩ := cons.inj whole
    exact other ⟨star.symm, rfl⟩
  rw [blockTail, Text.cut?, absent, blockTail]
  cases Text.cut? "*/" rest <;> rfl

theorem blockTail_gap (blank : gap.isBlankText) (rest : Text) :
    (blockTail (gap ++ rest)).2 = (blockTail rest).2 := by
  induction gap with
  | nil => rfl
  | cons c gap ih =>
    simp only [Text.isBlankText, all_cons, Bool.and_eq_true] at blank
    rw [cons_append, blockTail_skip, ih blank.2]
    rintro ⟨rfl, -⟩
    exact absurd blank.1 (by decide)

end Code

namespace Module

open Text Code

/-- The rest of a literal as it comes out, after white space `gap` that stands behind a backslash or
not. A literal that is left open takes the line break at its end along when a backslash does, or
when it is a template. -/
def relay (common : Nat) (indent : Text) (quote : Char) (escaped : Bool) (gap : Text) :
    Text → Text
  | [] => if quote == '`' || escaped then ['\n'] else []
  | c :: rest =>
    if isBlank c then relay common indent quote escaped (gap ++ [c]) rest
    else
      let escaped := escaped && gap.isEmpty
      freshGap common indent gap ++ c ::
        if !escaped && c == quote then rest
        else relay common indent quote (!escaped && c == '\\') [] rest

/-- Indenting the lines of a literal anew leaves it as it is. -/
def IsKept (common : Nat) (indent : Text) : Text → Prop
  | [] => True
  | quote :: body => relay common indent quote false [] body = body

section Relay

variable {common : Nat} {indent : Text} {quote : Char}

theorem relay_append (blank : run.isBlankText) (escaped : Bool) (gap rest : Text) :
    relay common indent quote escaped gap (run ++ rest) =
      relay common indent quote escaped (gap ++ run) rest := by
  induction run generalizing gap with
  | nil => simp
  | cons c run ih =>
    simp only [isBlankText, all_cons, Bool.and_eq_true] at blank
    rw [cons_append, relay, if_pos blank.1, ih blank.2, append_assoc]
    rfl

theorem relay_of_isBlankText (blank : t.isBlankText) (escaped : Bool) :
    relay common indent quote escaped [] t =
      if quote == '`' || escaped then ['\n'] else [] := by
  have whole : relay common indent quote escaped [] (t ++ []) = _ :=
    relay_append blank escaped [] []
  rw [append_nil] at whole
  exact whole

theorem relay_gap (blank : gap.isBlankText)
    (shown : isBlank c = false) (escaped : Bool) (rest : Text) :
    relay common indent quote escaped [] (gap ++ c :: rest) =
      freshGap common indent gap ++
        relay common indent quote (escaped && gap.isEmpty) [] (c :: rest) := by
  rw [relay_append blank, relay, if_neg (by simp [shown]), relay, if_neg (by simp [shown])]
  simp

theorem relay_of_shown (shown : isBlank c = false) (escaped : Bool) (rest : Text) :
    relay common indent quote escaped [] (c :: rest) =
      c :: if !escaped && c == quote then rest
        else relay common indent quote (!escaped && c == '\\') [] rest := by
  rw [relay, if_neg (by simp [shown])]
  simp

end Relay

theorem append_cons_inj_of_isBlankText {gap' : Text} (blank : gap.isBlankText)
    (blank' : gap'.isBlankText) (shown : isBlank c = false) (rest rest' : Text) :
    gap ++ c :: rest = gap' ++ c :: rest' ↔ gap = gap' ∧ rest = rest' := by
  constructor
  · intro same
    have gaps := congrArg leadingBlanks same
    rw [leadingBlanks_append_cons blank shown, leadingBlanks_append_cons blank' shown] at gaps
    subst gaps
    exact ⟨rfl, (cons.inj (append_cancel_left same)).2⟩
  · rintro ⟨rfl, rfl⟩
    rfl

/-- What is read of a literal as it was, and of the same as it comes out: both are the same exactly
when the literal is kept, and then what follows goes on in step. -/
structure Agrees (common : Nat) (indent : Text) (quote : Char) (escaped : Bool)
    (was now : Text × Text) : Prop where
  same_iff : now.1 = was.1 ↔ relay common indent quote escaped [] was.1 = was.1
  after : now.1 = was.1 → literals now.2 = literals (respace common indent [] was.2)

section Agrees

variable {common : Nat} {indent : Text} (indented : indent.isBlankText)
  {quote : Char} {escaped : Bool}

theorem agrees_shown (shown : isBlank c = false)
    (next : ∀ escaped, Agrees common indent quote escaped (literalRest quote escaped rest)
      (literalRest quote escaped (respace common indent [] rest))) (escaped : Bool) :
    Agrees common indent quote escaped (literalRest quote escaped (c :: rest))
      (literalRest quote escaped (c :: respace common indent [] rest)) := by
  rw [literalRest_of_shown shown, literalRest_of_shown shown]
  cases closes : !escaped && c == quote with
  | true => exact ⟨by simp [relay_of_shown shown, closes], fun _ => rfl⟩
  | false =>
    obtain ⟨same_iff, after⟩ := next (!escaped && c == '\\')
    refine ⟨?_, fun same => after (cons.inj same).2⟩
    simp only [relay_of_shown shown, closes, Bool.false_eq_true, if_false, cons.injEq, true_and]
    exact same_iff

theorem not_mem_drop_freshGap (inline : '\n' ∉ indent) (goesOn : '\n' ∉ gap.drop escaped.toNat) :
    '\n' ∉ (freshGap common indent gap).drop escaped.toNat := by
  by_cases broken : '\n' ∈ gap
  · cases escaped with
    | false => exact (goesOn broken).elim
    | true =>
      cases gap with
      | nil => cases broken
      | cons c line =>
        obtain rfl : '\n' = c := by
          obtain same | later := mem_cons.1 broken
          · exact same
          · exact (goesOn later).elim
        have kept : '\n' ∉ (from? line common).getD [] := fun member =>
          goesOn (from?_getD_subset line common member)
        have fresh := @freshGap_break line common indent goesOn []
        rw [nil_append] at fresh
        simpa [fresh] using ⟨inline, kept⟩
  · rwa [freshGap_of_inline broken]

theorem isEmpty_freshGap (gap : Text) : (freshGap common indent gap).isEmpty = gap.isEmpty := by
  cases gap with
  | nil => rfl
  | cons c gap =>
    unfold freshGap
    split <;> rfl

include indented

theorem isBlankText_freshGap (blank : gap.isBlankText) :
    (freshGap common indent gap).isBlankText := by
  unfold freshGap
  split
  · have line : lastLine gap ⊆ gap := by
      intro c inside
      exact mem_reverse.1 ((List.takeWhile_prefix _).subset (mem_reverse.1 inside))
    have kept := isBlankText_of_subset
      (List.Subset.trans (from?_getD_subset (lastLine gap) common) line) blank
    rw [freshBreak, ← singleton_append, isBlankText_append, isBlankText_append,
      isBlankText_append, indented, kept]
    split <;> rfl
  · exact blank

theorem agrees_gap {body body' after after' : Text}
    (blank : gap.isBlankText) (shown : isBlank c = false)
    (next : Agrees common indent quote (escaped && gap.isEmpty) (c :: body, after)
      (c :: body', after')) :
    Agrees common indent quote escaped (gap ++ c :: body, after)
      (freshGap common indent gap ++ c :: body', after') := by
  obtain ⟨same_iff, goesOn⟩ := next
  have fresh : (freshGap common indent gap).isBlankText := isBlankText_freshGap indented blank
  simp only [relay_of_shown shown, cons.injEq, true_and] at same_iff goesOn
  refine ⟨?_, ?_⟩
  · simp only [relay_gap blank shown, relay_of_shown shown,
      append_cons_inj_of_isBlankText fresh blank shown, same_iff]
  · intro same
    exact goesOn ((append_cons_inj_of_isBlankText fresh blank shown _ _).1 same).2

theorem literals_freshGap (blank : gap.isBlankText) (t : Text) :
    literals (freshGap common indent gap ++ t) = literals t :=
  literals_append_of_isBlankText (isBlankText_freshGap indented blank) t

theorem literals_respace (blank : run.isBlankText) (shown : isBlank c = false) (rest : Text) :
    literals (respace common indent [] (run ++ c :: rest)) =
      literals (c :: respace common indent [] rest) := by
  rw [respace_append blank, respace_of_shown shown, nil_append, literals_freshGap indented blank]

omit indented in
theorem agrees_end (quoted : isQuote quote) (blank : gap.isBlankText) :
    Agrees common indent quote escaped (literalRest quote escaped gap)
      (literalRest quote escaped ['\n']) := by
  have parts := literalRest_append quote escaped gap
  generalize literalRest quote escaped gap = was at parts
  rw [← parts, isBlankText_append, Bool.and_eq_true] at blank
  obtain ⟨after, afterBlank, value⟩ : ∃ after : Text, after.isBlankText ∧
      literalRest quote escaped ['\n'] =
        (if quote == '`' || escaped then ['\n'] else [], after) := by
    by_cases goesOn : quote = '`' ∨ escaped
    · refine ⟨[], rfl, ?_⟩
      rw [literalRest_of_isBlank quoted (by decide) (goesOn.symm.imp_right .inr),
        if_pos (by simpa using goesOn)]
      rfl
    · rw [not_or, Bool.not_eq_true] at goesOn
      refine ⟨['\n'], by decide, ?_⟩
      rw [goesOn.2, literalRest_break goesOn.1 quoted, if_neg (by simpa using goesOn.1)]
  have rest : respace common indent [] was.2 = ['\n'] := by
    have whole := @respace_append common indent was.2 blank.2 [] []
    rwa [append_nil] at whole
  rw [value]
  refine ⟨?_, fun _ => ?_⟩
  · rw [relay_of_isBlankText blank.1]
  · rw [rest, literals_of_isBlankText afterBlank, literals_of_isBlankText (by decide)]

omit indented in
theorem exists_freshGap_eq (broken : '\n' ∈ gap) :
    ∃ more : Text, freshGap common indent gap = '\n' :: more ∧
      (2 ≤ gap.count '\n' → ∃ more' : Text, more = '\n' :: more') := by
  rw [freshGap, if_pos broken, freshBreak]
  refine ⟨_, rfl, fun twice => ?_⟩
  rw [if_pos twice]
  exact ⟨_, rfl⟩

omit indented in
theorem exists_before_break (broken : '\n' ∈ gap.drop escaped.toNat) :
    ∃ kept post : Text, gap = kept ++ '\n' :: post ∧ '\n' ∉ kept.drop escaped.toNat ∧
      (escaped && kept.isEmpty) = false := by
  obtain ⟨head, post, parts, inline⟩ := eq_append_cons_of_mem broken
  cases escaped with
  | false => exact ⟨head, post, parts, inline, rfl⟩
  | true =>
    cases gap with
    | nil => cases broken
    | cons c gap => exact ⟨c :: head, post, congrArg (c :: ·) parts, inline, rfl⟩

theorem exists_literalRest_freshGap (quoted : isQuote quote) (plain : quote ≠ '`')
    {kept post : Text} (blank : (kept ++ '\n' :: post).isBlankText)
    (taken : (escaped && kept.isEmpty) = false) (t : Text) :
    ∃ body after : Text,
      literalRest quote escaped (freshGap common indent (kept ++ '\n' :: post) ++ t) =
        (body, after) ∧
      (body = kept ↔ (if escaped then ['\n'] else []) = kept) ∧
      (body = kept → literals after = literals t) := by
  have follows : literals (freshGap common indent (kept ++ '\n' :: post) ++ t) = literals t :=
    literals_freshGap indented blank t
  have member : '\n' ∈ kept ++ '\n' :: post := by simp
  obtain ⟨more, fresh, twice⟩ := @exists_freshGap_eq _ common indent member
  rw [fresh] at follows ⊢
  cases escaped with
  | false =>
    exact ⟨[], '\n' :: more ++ t, literalRest_break plain quoted _, by simp, fun _ => follows⟩
  | true =>
    cases kept with
    | nil => cases taken
    | cons c kept =>
      by_cases first : c = '\n'
      · -- The line break behind the backslash is not the one that ends the literal.
        have breaks : 2 ≤ (c :: kept ++ '\n' :: post).count '\n' := by
          rw [cons_append, first, count_cons_self, count_append, count_cons_self]
          omega
        obtain ⟨more', rfl⟩ := twice breaks
        refine ⟨['\n'], '\n' :: more' ++ t, ?_, by simp, fun _ => ?_⟩
        · exact @literalRest_ends ['\n'] _ quoted true plain (by decide) (by simp) rfl _
        · rw [← follows]
          exact (literals_append_of_isBlankText (by decide : isBlankText ['\n']) _).symm
      · refine ⟨_, _, literalRest_of_isBlank quoted (by decide) (.inl rfl) _, ?_, fun same => ?_⟩
        · simp [Ne.symm first]
        · exact (first (cons.inj same).1.symm).elim

theorem agrees_break (quoted : isQuote quote) (plain : quote ≠ '`')
    (blank : gap.isBlankText) (broken : '\n' ∈ gap.drop escaped.toNat)
    (shown : isBlank c = false) (rest : Text) :
    Agrees common indent quote escaped (literalRest quote escaped (gap ++ c :: rest))
      (literalRest quote escaped
        (freshGap common indent gap ++ c :: respace common indent [] rest)) := by
  obtain ⟨kept, post, rfl, inline, taken⟩ := exists_before_break broken
  obtain ⟨body, after, now, same_iff, follows⟩ := @exists_literalRest_freshGap common indent
    indented quote escaped quoted plain kept post blank taken (c :: respace common indent [] rest)
  rw [isBlankText_append, Bool.and_eq_true] at blank
  have was : literalRest quote escaped (kept ++ '\n' :: post ++ c :: rest) =
      (kept, '\n' :: post ++ c :: rest) := by
    rw [append_assoc]
    exact literalRest_ends quoted plain blank.1 inline taken _
  rw [was, now]
  refine ⟨?_, fun same => ?_⟩
  · rw [relay_of_isBlankText blank.1, beq_eq_false_iff_ne.2 plain]
    exact same_iff
  · rw [follows same, literals_respace indented blank.2 shown]

theorem agrees_respace (inline : '\n' ∉ indent) (quoted : isQuote quote)
    (blank : gap.isBlankText) (escaped : Bool) (t : Text) :
    Agrees common indent quote escaped (literalRest quote escaped (gap ++ t))
      (literalRest quote escaped (respace common indent gap t)) := by
  -- White space is put off until the next character shows whether the literal goes on behind it.
  induction t generalizing gap escaped with
  | nil =>
    rw [append_nil]
    exact agrees_end quoted blank
  | cons c rest ih =>
    cases shown : isBlank c with
    | true =>
      rw [respace_of_isBlank shown, ← singleton_append, ← append_assoc]
      exact ih (isBlankText_concat blank shown) escaped
    | false =>
      rw [respace_of_shown shown]
      by_cases goesOn : '\n' ∉ gap.drop escaped.toNat ∨ quote = '`'
      · have later (escaped : Bool) :
            Agrees common indent quote escaped (literalRest quote escaped rest)
              (literalRest quote escaped (respace common indent [] rest)) := @ih [] rfl escaped
        have next := agrees_shown shown later (escaped && gap.isEmpty)
        have fresh : (freshGap common indent gap).isBlankText := isBlankText_freshGap indented blank
        rw [literalRest_gap quoted blank goesOn, literalRest_gap quoted fresh (goesOn.imp_left
          (not_mem_drop_freshGap inline)), isEmpty_freshGap]
        obtain ⟨body, after, read⟩ := exists_literalRest_of_shown shown quote
          (escaped && gap.isEmpty) rest
        obtain ⟨body', after', read'⟩ := exists_literalRest_of_shown shown quote
          (escaped && gap.isEmpty) (respace common indent [] rest)
        rw [read, read'] at next ⊢
        exact agrees_gap indented blank shown next
      · rw [not_or, Classical.not_not] at goesOn
        exact agrees_break indented quoted goesOn.2 blank goesOn.1 shown rest

end Agrees

section Respaced

variable {common : Nat} {indent : Text} (indented : indent.isBlankText)

theorem ne_of_isBlank (blank : isBlank c) (shown : isBlank d = false) : c ≠ d := by
  rintro rfl
  exact Bool.noConfusion (blank.symm.trans shown)

theorem exists_respace_eq (broken : '\n' ∈ gap) (t : Text) :
    ∃ more : Text, respace common indent gap t = '\n' :: more := by
  induction t generalizing gap with
  | nil => exact ⟨[], rfl⟩
  | cons c t ih =>
    cases shown : isBlank c with
    | true =>
      rw [respace_of_isBlank shown]
      exact ih (mem_append_left _ broken)
    | false =>
      obtain ⟨more, fresh, -⟩ := @exists_freshGap_eq gap common indent broken
      rw [respace_of_shown shown, fresh]
      exact ⟨_, rfl⟩

include indented

theorem literals_respace_gap (blank : gap.isBlankText) (t : Text) :
    literals (respace common indent gap t) = literals (respace common indent [] t) := by
  induction t generalizing gap with
  | nil => rfl
  | cons c t ih =>
    cases shown : isBlank c with
    | true =>
      rw [respace_of_isBlank shown, respace_of_isBlank shown, nil_append,
        ih (isBlankText_concat blank shown), ih (isBlankText_singleton shown)]
    | false =>
      rw [respace_of_shown shown, respace_of_shown shown, literals_freshGap indented blank]
      rfl

theorem head?_respace (visible : isBlank d = false) (blank : gap.isBlankText)
    (t : Text) : (respace common indent gap t).head? = some d ↔ gap = [] ∧ t.head? = some d := by
  induction t generalizing gap with
  | nil =>
    have other : '\n' ≠ d := ne_of_isBlank (by decide) visible
    simp [other]
  | cons c t ih =>
    cases shown : isBlank c with
    | true =>
      rw [respace_of_isBlank shown, ih (isBlankText_concat blank shown)]
      simp [ne_of_isBlank shown visible]
    | false =>
      have fresh : (freshGap common indent gap).isBlankText := isBlankText_freshGap indented blank
      have empty := @isEmpty_freshGap common indent gap
      rw [respace_of_shown shown]
      generalize freshGap common indent gap = new at fresh empty
      cases new with
      | nil =>
        simp [isEmpty_iff.1 empty.symm]
      | cons e new =>
        simp only [isBlankText, all_cons, Bool.and_eq_true] at fresh
        have ne : gap ≠ [] := fun nil => by simp [nil] at empty
        simp [ne, ne_of_isBlank fresh.1 visible]

theorem literals_restOfLine (blank : gap.isBlankText) (inline : '\n' ∉ gap) (t : Text) :
    literals ((respace common indent gap t).dropWhile (· != '\n')) =
      literals (respace common indent [] (t.dropWhile (· != '\n'))) := by
  induction t generalizing gap with
  | nil => rfl
  | cons c t ih =>
    by_cases broken : c = '\n'
    · have shown : isBlank c := by rw [broken]; decide
      obtain ⟨more, starts⟩ := @exists_respace_eq (gap ++ [c]) common indent (by simp [broken]) t
      have stays : (c :: t).dropWhile (· != '\n') = c :: t := by simp [broken]
      have stays' : ('\n' :: more).dropWhile (· != '\n') = '\n' :: more := by simp
      rw [stays, respace_of_isBlank shown, respace_of_isBlank shown, starts, stays', ← starts,
        literals_respace_gap indented (isBlankText_concat blank shown), nil_append,
        literals_respace_gap indented (isBlankText_singleton shown)]
    · have skip (rest : Text) : (c :: rest).dropWhile (· != '\n') = rest.dropWhile (· != '\n') :=
        dropWhile_cons_of_pos (by simpa using broken)
      rw [skip]
      cases shown : isBlank c with
      | true =>
        rw [respace_of_isBlank shown]
        exact ih (isBlankText_concat blank shown) (by simpa [Ne.symm broken] using inline)
      | false =>
        have passed : ∀ d ∈ gap, d != '\n' := fun d member =>
          bne_iff_ne.2 fun same => inline (same ▸ member)
        rw [respace_of_shown shown, freshGap_of_inline inline, dropWhile_append_of_pos passed, skip]
        exact ih rfl (by simp)

theorem literals_blockTail (blank : gap.isBlankText) (t : Text) :
    literals (blockTail (respace common indent gap t)).2 =
      literals (respace common indent [] (blockTail t).2) := by
  induction t generalizing gap with
  | nil =>
    have none : (blockTail []).2 = [] := by simp [blockTail, cut?]
    rw [respace_nil, none, respace_nil, literals_of_isBlankText (by decide),
      literals_of_isBlankText (by decide)]
  | cons c t ih =>
    cases shown : isBlank c with
    | true =>
      have skipped : (blockTail (c :: t)).2 = (blockTail t).2 :=
        @blockTail_gap [c] (isBlankText_singleton shown) t
      rw [respace_of_isBlank shown, ih (isBlankText_concat blank shown), skipped]
    | false =>
      rw [respace_of_shown shown, blockTail_gap (isBlankText_freshGap indented blank)]
      by_cases closes : c = '*' ∧ t.head? = some '/'
      · obtain ⟨rfl, slash⟩ := closes
        obtain ⟨t, rfl⟩ := head?_eq_some_iff.1 slash
        have visible : isBlank '/' = false := by decide
        rw [respace_of_shown visible, freshGap_nil, nil_append, blockTail_close, blockTail_close]
      · have other : ¬(c = '*' ∧ (respace common indent [] t).head? = some '/') := by
          rintro ⟨star, slash⟩
          exact closes ⟨star, ((head?_respace indented (by decide) rfl t).1 slash).2⟩
        rw [blockTail_skip closes, blockTail_skip other]
        exact ih rfl

theorem literals_lead (other : isQuote c = false) (rest : Text) :
    literals (lead c (respace common indent [] rest)).2 =
      literals (respace common indent [] (lead c rest).2) := by
  have heads (d : Char) (visible : isBlank d = false) :
      (respace common indent [] rest).head? = some d ↔ rest.head? = some d := by
    rw [head?_respace indented visible rfl]
    simp
  unfold lead
  simp only [other, Bool.false_eq_true, if_false, heads '/' (by decide), heads '*' (by decide)]
  split
  · exact literals_restOfLine indented rfl (by simp) rest
  · split
    · next opens =>
      obtain ⟨tail, rfl⟩ := head?_eq_some_iff.1 opens.2
      exact literals_blockTail indented rfl tail
    · rfl

theorem literals_respace_iff (inline : '\n' ∉ indent) (t : Text) :
    literals (respace common indent [] t) = literals t ↔
      ∀ text ∈ literals t, IsKept common indent text := by
  fun_induction pieces t with
  | case1 =>
    rw [respace_nil, literals_of_isBlankText (by decide)]
    simp
  | case2 c rest ih =>
    cases shown : isBlank c with
    | true =>
      have single : isBlankText [c] := isBlankText_singleton shown
      have same : literals (c :: rest) = literals rest := literals_append_of_isBlankText single rest
      rw [lead_of_isPlain (isPlain_of_isBlank shown)] at ih
      rw [same, respace_of_isBlank shown, nil_append, literals_respace_gap indented single]
      exact ih
    | false =>
      rw [respace_of_shown shown, freshGap_nil, nil_append, literals_cons, literals_cons]
      cases quoted : isQuote c with
      | false =>
        rw [literal?_lead quoted, literal?_lead quoted, literals_lead indented quoted]
        exact ih
      | true =>
        obtain ⟨same_iff, after⟩ : Agrees common indent c false (literalRest c false rest)
            (literalRest c false (respace common indent [] rest)) :=
          @agrees_respace [] common indent indented c inline quoted rfl false rest
        rw [lead_of_isQuote quoted] at ih
        rw [lead_of_isQuote quoted, lead_of_isQuote quoted]
        have kept : IsKept common indent (c :: (literalRest c false rest).1) ↔
            (literalRest c false (respace common indent [] rest)).1 =
              (literalRest c false rest).1 := same_iff.symm
        simp only [Piece.literal?, Option.toList_some, singleton_append, cons.injEq,
          true_and, forall_mem_cons, kept]
        refine and_congr_right fun same => ?_
        rw [after same]
        exact ih

end Respaced

theorem relay_of_inline {quote : Char} (quoted : isQuote quote) {common : Nat}
    {indent body : Text} {escaped : Bool} (blank : gap.isBlankText) (closed : ∀ after : Text,
      literalRest quote escaped (gap ++ (body ++ after)) = (gap ++ body, after))
    (inline : '\n' ∉ gap ++ body) : relay common indent quote escaped gap body = gap ++ body := by
  induction body generalizing gap escaped with
  | nil =>
    -- Any other character would belong to it.
    obtain ⟨body, after, read⟩ := @exists_literalRest_of_shown 'a' (by decide) quote
      (escaped && gap.isEmpty) []
    have more := closed ['a']
    rw [append_nil] at inline
    rw [nil_append, literalRest_gap quoted blank
      (.inl fun member => inline (mem_of_mem_drop member)), read] at more
    simp at more
  | cons c body ih =>
    cases shown : isBlank c with
    | true =>
      rw [relay, if_pos shown, ih (isBlankText_concat blank shown) (by simpa using closed)
        (by simpa using inline)]
      simp
    | false =>
      simp only [mem_append, mem_cons, not_or] at inline
      rw [relay, if_neg (by simp [shown]), freshGap_of_inline inline.1]
      simp only
      have goesOn : '\n' ∉ gap.drop escaped.toNat := fun member =>
        inline.1 (mem_of_mem_drop member)
      simp only [literalRest_gap quoted blank (.inl goesOn), cons_append,
        literalRest_of_shown shown] at closed
      split
      · rfl
      · next other =>
        simp only [other, Bool.false_eq_true, if_false, Prod.mk.injEq,
          append_cancel_left_eq, cons.injEq, true_and] at closed
        rw [@ih [] _ rfl (fun after => Prod.ext (closed after).1 (closed after).2)
          (by simpa using inline.2.2)]
        rfl

/-- In code that is re-indented the literals stay exactly when each of them is kept, and a literal
that is closed in its line always is. -/
theorem literals_reindent_iff (t : Text) :
    (literals (reindent t setupIndent) = literals t ↔
      ∀ text ∈ literals t, IsKept (commonIndent t.lines) setupIndent text) ∧
    ∀ text ∈ literals t, IsClosed text → '\n' ∉ text →
      IsKept (commonIndent t.lines) setupIndent text := by
  have indented : setupIndent.isBlankText = true := by decide
  have inline : '\n' ∉ setupIndent := by decide
  refine ⟨?_, ?_⟩
  · have trimmed : literals t.trimStart = literals t := by
      rw [← literals_append_of_isBlankText (isBlankText_leadingBlanks t),
        leadingBlanks_append_trimStart]
    obtain ⟨blank, gone⟩ | ⟨kept, blank, whole⟩ := exists_reindent_eq t setupIndent
    · rw [gone, literals_of_isBlankText blank]
      simp
    · rw [whole, append_assoc, literals_append_of_isBlankText indented,
        literals_append_of_isBlankText blank, ← trimmed]
      exact literals_respace_iff indented inline t.trimStart
  · intro text member closed within
    obtain ⟨quote, body, quoted, rfl⟩ := exists_of_mem_literals member
    refine relay_of_inline quoted rfl (fun after => ?_) fun broken =>
      within (mem_cons_of_mem quote broken)
    rw [nil_append, nil_append, ← literalTail_eq_literalRest quoted]
    exact closed after

/-- The line break in a template is put anew: the next line is indented by more than it was. -/
theorem literals_reindent_template :
    literals "const a = `x\n  y`\n" = ["`x\n  y`".toList] ∧
      literals (reindent "const a = `x\n  y`\n" setupIndent) = ["`x\n      y`".toList] := by
  decide +kernel

end Module

end SfcJsx
