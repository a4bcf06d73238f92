import SfcJsx.Proofs.TextSearch
import SfcJsx.Proofs.Tiling

/-!
Where a node is read. A node covers the text from where the reader had come to up to where it comes
to next, also when that text was not read token by token: texts end where markup starts, and
interpolations and comments end with a token of their own.
-/

namespace SfcJsx.Markup.Reader

open List Token Text Reader

variable {c a : Char} {r next : Reader} {t before rest body after word gap : Text} {literal : Bool}

def Takes (next : Reader) (node : Node) (before rest : Text) : Prop :=
  ∃ t after, rest = t ++ after ∧ t ≠ [] ∧ node.span = ⟨before.width, (before ++ t).width⟩ ∧
    next.At (before ++ t) after ∧ next.Reached (before ++ t)

def TakesText (next : Reader) (node : Node) (before t after : Text) : Prop :=
  node.span = ⟨before.width, (before ++ t).width⟩ ∧ next.At (before ++ t) after ∧
    next.Reached (before ++ t)

theorem joins_brace (other : a ≠ '{') : joins a '{' = false := by
  simp [joins, other, isNameChar, isPunctuation]

theorem joins_of_opensMarkup (opens : opensMarkup literal c rest)
    (single : literal = false → c = '{' → a ≠ '{') : joins a c = false := by
  simp only [opensMarkup, Bool.or_eq_true, Bool.and_eq_true, beq_iff_eq] at opens
  rcases opens with ⟨rfl, -⟩ | ⟨⟨visible, rfl⟩, -⟩
  · exact joins_bracket a
  · exact joins_brace (single (by simpa using visible) rfl)

theorem exists_parted_plainText (single : literal = false → t.head? = some '{' → c ≠ '{') :
    ∃ rest, t = plainText literal t ++ rest ∧ Parted (c :: plainText literal t) rest := by
  induction t generalizing c with
  | nil => exact ⟨[], rfl, by simp [Parted]⟩
  | cons d t ih =>
    by_cases opens : opensMarkup literal d t
    · have apart : joins c d = false := by
        refine joins_of_opensMarkup opens fun visible brace => single visible ?_
        rw [brace]
        rfl
      exact ⟨d :: t, by simp [plainText, opens], by simpa [plainText, opens, Parted] using apart⟩
    · -- A brace in front of a brace would have opened markup.
      obtain ⟨rest, whole, parted⟩ := ih (c := d) (by
        rintro rfl brace rfl
        simp [opensMarkup, brace] at opens)
      refine ⟨rest, ?_, ?_⟩
      · rw [plainText, if_neg opens, cons_append, ← whole]
      · rw [plainText, if_neg opens]
        intro a last
        exact parted a (by simpa using last)

theorem At.ne_brace (h : r.At before (c :: t)) (plain : r.atMarkup literal = false) :
    literal = false → t.head? = some '{' → c ≠ '{' := by
  rintro rfl brace rfl
  obtain ⟨more, rfl⟩ := head?_eq_some_iff.1 brace
  have braces : r.At before (['{', '{'] ++ more) := h
  have kind := braces.kind (reads_interpolationOpen more)
  simp [atMarkup, kind] at plain

theorem At.seek_text (h : r.At before (t ++ rest)) (parted : Parted t rest) :
    let next := { r.seek (before ++ t).width with textEnd := (before ++ t).width }
    next.At (before ++ t) rest ∧ next.Reached (before ++ t) := by
  have sought := h.seek parted.cut
  refine ⟨⟨sought.source, sought.tokens, sought.tokenEnd, Nat.le_refl _, sought.faults⟩, ?_⟩
  exact Nat.max_eq_right sought.tokenEnd

theorem At.readText_eq {behind : Text} {k : TokenKind}
    (h : r.At before (gap ++ (word ++ behind))) (skipped : ∀ d ∈ gap, isSkipped d)
    (reads : Reads k word behind) (starts : word ++ behind = c :: t) (reached : r.Reached before)
    (single : literal = false → t.head? = some '{' → c ≠ '{') :
    ∃ span after, t = plainText literal t ++ after ∧
      (r.readText literal).1 = .text span (Entity.decode (gap ++ c :: plainText literal t)) ∧
      (r.readText literal).2.TakesText (r.readText literal).1 before
        (gap ++ c :: plainText literal t) after := by
  have stands : r.At (before ++ gap) (word ++ behind) := h.skip skipped
  obtain ⟨after, split, parted⟩ := exists_parted_plainText single
  have offset : r.offset = (before ++ gap).width := stands.offset reads
  have start : min r.consumed r.offset = before.width := by
    have passed : r.consumed = before.width := reached
    rw [offset, width_append]
    omega
  have ahead : r.ahead r.offset = c :: t := by
    rw [offset, ← starts]
    exact ahead_of_source stands.source
  have place : r.At (before ++ gap) ((c :: plainText literal t) ++ after) := by
    rwa [cons_append, ← split, ← starts]
  have stop : r.offset + width ([c] ++ plainText literal t) =
      (before ++ (gap ++ c :: plainText literal t)).width := by
    rw [offset, ← append_assoc, width_append (before ++ gap)]
    rfl
  have later : (before ++ gap).width < (before ++ (gap ++ c :: plainText literal t)).width := by
    rw [← append_assoc, width_append (before ++ gap)]
    exact Nat.lt_add_of_pos_right (width_pos (by simp))
  have slice : r.source.slice before.width
      (before ++ (gap ++ c :: plainText literal t)).width = gap ++ c :: plainText literal t := by
    have whole : r.At before ((gap ++ c :: plainText literal t) ++ after) := by
      simpa [starts, ← split] using h
    rw [width_append]
    exact whole.slice
  have taken := place.seek_text parted
  rw [append_assoc, ← stands.advance_seek reads later] at taken
  unfold readText
  simp only [ahead, start, take_succ_cons, take_zero, drop_succ_cons, drop_zero, stop, slice]
  exact ⟨_, after, split, rfl, rfl, taken⟩

theorem At.readText (h : r.At before rest) (reached : r.Reached before)
    (plain : r.atMarkup literal = false) :
    (r.readText literal).2.Takes (r.readText literal).1 before rest := by
  have more : r.kind ≠ .endOfFile := by
    intro atEnd
    simp [atMarkup, atEnd] at plain
  obtain ⟨gap, word, behind, rfl, skipped, reads, stands, -⟩ := h.token more
  obtain ⟨c, t, starts⟩ : ∃ c t, word ++ behind = c :: t :=
    exists_cons_of_ne_nil (append_ne_nil_of_left_ne_nil reads.ne_nil behind)
  have place : r.At (before ++ gap) (c :: t) := starts ▸ stands
  obtain ⟨-, after, split, -, taken⟩ :=
    h.readText_eq skipped reads starts reached (place.ne_brace plain)
  refine ⟨gap ++ c :: plainText literal t, after, ?_, by simp, taken⟩
  rw [starts, append_assoc, cons_append, ← split]

theorem At.takes_enclosed {opening lead : Text} {k last : TokenKind} {node : Node}
    (h : r.At before (opening ++ (body ++ (lead ++ t) ++ after)))
    (reads : Reads k opening (body ++ (lead ++ t) ++ after)) (ends : Reads last t after)
    (parted : Parted (opening ++ (body ++ lead)) (t ++ after))
    (place : node.span = ⟨r.offset, r.offset + opening.width + body.width + (lead ++ t).width⟩) :
    (r.advance.seek (r.offset + opening.width + body.width + (lead ++ t).width)).TakesText node
      before (opening ++ body ++ (lead ++ t)) after := by
  have stop : r.offset + opening.width + body.width + (lead ++ t).width =
      (before ++ (opening ++ body ++ (lead ++ t))).width := by
    rw [h.offset reads]
    simp only [width_append]
    omega
  have stands : r.At before (opening ++ ((body ++ lead) ++ (t ++ after))) := by simpa using h
  have passed := stands.seek_enclosed (by simpa using reads) ends parted
  rw [TakesText, place, stop, h.offset reads]
  exact ⟨rfl, by simpa using passed⟩

theorem faults_report_ne (r : Reader) (kind : FaultKind) : (r.report kind).faults ≠ [] := by
  simp [report, reportAt]

theorem parted_interpolationClose {tail : Text} (lead : Text)
    (found : cut? ['}', '}'] t = some (body, tail)) (other : '}' ∉ lead) (after : Text) :
    Parted (lead ++ body) ('}' :: after) := by
  intro a last b first
  obtain rfl : '}' = b := by simpa using first
  have apart : a ≠ '}' := by
    rintro rfl
    obtain rfl | ⟨init, c, rfl⟩ := eq_nil_or_concat body
    · exact other (mem_of_getLast? (by simpa using last))
    · obtain rfl : c = '}' := by simpa [getLast?_append] using last
      exact not_infix_of_cut? (by decide) found ⟨init, [], by simp⟩
  simp [joins, apart, isNameChar, isPunctuation]

theorem At.readInterpolation_eq (h : r.At before (['{', '{'] ++ rest))
    (found : cut? "\x7d\x7d" rest = some (body, after)) :
    rest = body ++ ['}', '}'] ++ after ∧
      ∃ span, r.readInterpolation.1 = .interpolation span body.trim ∧
        r.readInterpolation.2.TakesText (.interpolation span body.trim) before
          (['{', '{'] ++ body ++ ['}', '}']) after := by
  have reads := reads_interpolationOpen rest
  have ahead : r.ahead (r.offset + 2) = rest := h.ahead_behind reads
  have cut : cut? "\x7d\x7d" (r.ahead (r.offset + 2)) = some (body, after) := ahead ▸ found
  obtain rfl := eq_append_of_cut? found
  have stands : r.At before (['{', '{'] ++ (body ++ ([] ++ ['}', '}']) ++ after)) := h
  have parted : Parted (['{', '{'] ++ (body ++ [])) (['}', '}'] ++ after) := by
    rw [append_nil]
    exact parted_interpolationClose _ found (by simp) _
  simp only [readInterpolation, cut]
  exact ⟨rfl, _, rfl, stands.takes_enclosed reads (reads_interpolationClose after) parted rfl⟩

theorem At.readInterpolation (h : r.At before (['{', '{'] ++ rest))
    (clean : r.readInterpolation.2.faults = []) :
    ∃ span expression, r.readInterpolation.1 = .interpolation span expression ∧
      r.readInterpolation.2.Takes (.interpolation span expression) before (['{', '{'] ++ rest) := by
  cases found : cut? "\x7d\x7d" rest with
  | none =>
    have ahead : r.ahead (r.offset + 2) = rest := h.ahead_behind (reads_interpolationOpen rest)
    simp only [Reader.readInterpolation, ahead, found] at clean
    exact absurd (((passes_advance _).trans (passes_seek _ _)).clean clean) (faults_report_ne r _)
  | some parts =>
    obtain ⟨rfl, span, node, taken⟩ := h.readInterpolation_eq found
    exact ⟨span, _, node, _, _, (append_assoc _ _ _).symm, by simp, taken⟩

theorem At.readComment_eq (h : r.At before (['<', '!', '-', '-'] ++ rest))
    (found : cut? "-->" rest = some (body, after)) :
    rest = body ++ ['-', '-', '>'] ++ after ∧
      ∃ span, r.readComment.1 = some (.comment span body) ∧
        r.readComment.2.TakesText (.comment span body) before
          (['<', '!', '-', '-'] ++ body ++ ['-', '-', '>']) after := by
  have reads := reads_commentOpen rest
  have ahead : r.ahead (r.offset + 4) = rest := h.ahead_behind reads
  have cut : cut? "-->" (r.ahead (r.offset + 4)) = some (body, after) := ahead ▸ found
  obtain rfl := eq_append_of_cut? found
  have stands : r.At before (['<', '!', '-', '-'] ++ (body ++ (['-', '-'] ++ ['>']) ++ after)) := h
  have parted : Parted ((['<', '!', '-', '-'] ++ (body ++ ['-'])) ++ ['-']) (['>'] ++ after) :=
    parted_append_singleton (by simp [joins, isNameChar, isPunctuation])
  simp only [readComment, cut]
  exact ⟨rfl, _, rfl,
    stands.takes_enclosed reads (reads_tagClose after) (by simpa using parted) rfl⟩

theorem At.readComment (h : r.At before (['<', '!', '-', '-'] ++ rest))
    (clean : r.readComment.2.faults = []) :
    ∃ span data, r.readComment.1 = some (.comment span data) ∧
      r.readComment.2.Takes (.comment span data) before (['<', '!', '-', '-'] ++ rest) := by
  cases found : cut? "-->" rest with
  | none =>
    have ahead : r.ahead (r.offset + 4) = rest := h.ahead_behind (reads_commentOpen rest)
    simp only [Reader.readComment, ahead, found] at clean
    exact absurd (((passes_advance _).trans (passes_seek _ _)).clean clean) (faults_report_ne r _)
  | some parts =>
    obtain ⟨rfl, span, node, taken⟩ := h.readComment_eq found
    exact ⟨span, _, node, _, _, by simp, by simp, taken⟩

theorem advance_of_nextName (named : r.nextName ≠ []) :
    r.advance.kind = .name ∧ r.advance.currentText = r.nextName := by
  unfold nextName at named ⊢
  split at named
  · next first second more tokens =>
    split at named
    · next kind =>
      simp [advance, tokens, Reader.kind, current, currentText, kind]
    · exact absurd rfl named
  · exact absurd rfl named

theorem span_readAttribute (r : Reader) (literal : Bool) : (r.readAttribute literal).1.span =
    ⟨r.offset, max (r.readAttribute literal).2.tokenEnd (r.offset + r.currentText.width)⟩ := by
  unfold readAttribute
  dsimp only
  split <;> rfl

theorem At.readAttribute (h : r.At before (word ++ rest))
    (reads : Reads .name word rest) (clean : (r.readAttribute literal).2.faults = [])
    (more : (r.readAttribute literal).2.tokens ≠ []) :
    ∃ part after, word ++ rest = part ++ after ∧ part ≠ [] ∧
      (r.readAttribute literal).1.span = ⟨before.width, (before ++ part).width⟩ ∧
        (r.readAttribute literal).2.At (before ++ part) after := by
  obtain ⟨value, after, rfl, behind⟩ :=
    (passes_readAttribute r literal).exists_behind (h.behind_advance reads) clean more
  refine ⟨word ++ value, after, by simp, append_ne_nil_of_left_ne_nil reads.ne_nil _, ?_, ?_⟩
  · rw [span_readAttribute, behind.tokenEnd, h.offset reads, h.currentText reads, append_assoc]
    simp only [width_append]
    rw [Nat.max_eq_left (by omega)]
  · simpa using behind.place

theorem isSeparator_of_isSpacing {spacing : Text} (all : spacing.all isSpacing) :
    spacing.all isSeparator := by
  rw [all_eq_true] at all ⊢
  intro c member
  simp [isSeparator, all c member]

theorem isSeparator_of_isSkipped (skipped : ∀ c ∈ gap, isSkipped c) : gap.all isSeparator := by
  rw [all_eq_true]
  intro c member
  simp [isSeparator, isSpacing, skipped c member]

theorem At.readAttributes (h : r.At before rest) (clean : (r.readAttributes literal).2.faults = [])
    (more : (r.readAttributes literal).2.tokens ≠ []) :
    ∃ inside after, rest = inside ++ after ∧
      (r.readAttributes literal).2.At (before ++ inside) after ∧
        Spread before.width inside ((r.readAttributes literal).1.map (·.span)) := by
  fun_induction Reader.readAttributes r literal generalizing before rest
  case case1 r next ends =>
    obtain ⟨spacing, after, rfl, all, place⟩ := h.exists_skipNewlines
    exact ⟨spacing, after, rfl, place, .nil (isSeparator_of_isSpacing all)⟩
  case case2 r next ends named first last ih =>
    obtain ⟨spacing, ahead, rfl, all, place⟩ := h.exists_skipNewlines
    obtain ⟨gap, word, behind, rfl, blank, reads, place, -⟩ := place.token (by
      show next.kind ≠ _
      simp [named])
    have passes := passes_readAttributes first.2 literal
    obtain ⟨part, later, whole, ne, span, stands⟩ :=
      place.readAttribute (named ▸ reads) (passes.clean clean) (passes.tokens_ne_nil more)
    obtain ⟨inside, after, rfl, place, spread⟩ := ih stands clean more
    have separates : (spacing ++ gap).all isSeparator := by
      rw [all_append, isSeparator_of_isSpacing all, isSeparator_of_isSkipped blank]
      rfl
    have first : (before ++ spacing ++ gap).width = before.width + (spacing ++ gap).width := by
      simp
    have last : (before ++ spacing ++ gap ++ part).width =
        before.width + (spacing ++ gap ++ part).width := by
      simp
    refine ⟨spacing ++ gap ++ part ++ inside, after, by simp [whole], by simpa using place, ?_⟩
    rw [map_cons, span, first, last]
    rw [last] at spread
    exact .cons separates ne spread
  case case3 r next ends named slash ih =>
    obtain ⟨spacing, ahead, rfl, all, place⟩ := h.exists_skipNewlines
    obtain ⟨gap, behind, rfl, blank, reads, place⟩ := place.spelled slash rfl
    obtain ⟨inside, after, rfl, place, spread⟩ := ih (place.advance reads) clean more
    have separates : (spacing ++ gap ++ ['/']).all isSeparator := by
      rw [all_append, all_append, isSeparator_of_isSpacing all, isSeparator_of_isSkipped blank]
      rfl
    have start : (before ++ spacing ++ gap ++ ['/']).width =
        before.width + (spacing ++ gap ++ ['/']).width := by
      simp
    rw [start] at spread
    refine ⟨spacing ++ gap ++ ['/'] ++ inside, after, by simp, by simpa using place, ?_⟩
    exact spread.append_left separates
  case case4 r next ends named slash ih =>
    have passes := (passes_advance (next.report (.unexpectedToken .attributeName next.kind))).trans
      (passes_readAttributes _ literal)
    exact absurd (passes.clean clean) (faults_report_ne next _)

theorem At.exists_tag {kind : TokenKind} {s : Text} (h : r.At before (['<'] ++ rest))
    (reads : Reads .tagOpen ['<'] rest) (named : r.advance.kind = .name)
    (clean : (r.advance.advance.readAttributes literal).2.faults = [])
    (found : (r.advance.advance.readAttributes literal).2.kind = kind)
    (spelling : spelling? kind = some s) :
    r.advance.currentText ≠ [] ∧ ∃ t after, ['<'] ++ rest = t ++ after ∧
      (r.advance.advance.readAttributes literal).2.advance.Behind (before ++ t) after ∧
        ∃ gap inside, t = '<' :: gap ++ r.advance.currentText ++ inside ++ s ∧
          gap.all isSkipped ∧
            Spread (before.width + width ('<' :: gap ++ r.advance.currentText)) inside
              ((r.advance.advance.readAttributes literal).1.map (·.span)) := by
  have more : (r.advance.advance.readAttributes literal).2.kind ≠ .endOfFile := by
    rw [found]
    rintro rfl
    simp [spelling?] at spelling
  obtain ⟨gap, name, behind, rfl, blank, word, stands, -⟩ :=
    (h.advance reads).token (by simp [named])
  have text : r.advance.currentText = name := stands.currentText word
  obtain ⟨inside, left, rfl, place, spread⟩ :=
    (stands.advance word).readAttributes clean (tokens_ne_nil_of_kind more)
  obtain ⟨blanks, after, rfl, skipped, ends, place⟩ := place.spelled found spelling
  refine ⟨by rw [text]; exact word.ne_nil, '<' :: gap ++ name ++ (inside ++ blanks) ++ s, after,
    by simp, ?_, gap, inside ++ blanks, by rw [text], all_eq_true.2 blank, ?_⟩
  · simpa using place.behind_advance ends
  · rw [text]
    have start : before.width + width ('<' :: gap ++ name) =
        (before ++ ['<'] ++ gap ++ name).width := by simp
    rw [start]
    exact spread.append_right (isSeparator_of_isSkipped skipped)

theorem At.passClosingTag {name : Text} (h : r.At before (['<', '/'] ++ rest)) (ne : name ≠ [])
    (same : r.nextName = name) (clean : (r.passClosingTag name).faults = []) :
    ∃ closing after, ['<', '/'] ++ rest = closing ++ after ∧ IsClosingTag name closing ∧
      (r.passClosingTag name).Behind (before ++ closing) after := by
  have reads := reads_closingOpen rest
  have passes : r.passClosingTag name = r.advance.advance.skipNewlines.expect .tagClose := by
    simp [Reader.passClosingTag, h.kind reads, same]
  rw [passes] at clean ⊢
  obtain ⟨found, ends⟩ := expect_of_clean clean
  obtain ⟨named, text⟩ := advance_of_nextName (by rwa [same])
  obtain ⟨gap, word, behind, rfl, blank, readsName, stands, -⟩ :=
    (h.advance reads).token (by simp [named])
  obtain rfl : word = name := by rw [← stands.currentText readsName, text, same]
  obtain ⟨spacing, left, rfl, all, place⟩ := (stands.advance readsName).exists_skipNewlines
  obtain ⟨blanks, after, rfl, skipped, readsEnd, place⟩ := place.spelled found rfl
  have tail : (spacing ++ blanks).all isSpacing := by
    rw [all_append, all, Bool.true_and, all_eq_true]
    intro c member
    simp [isSpacing, skipped c member]
  refine ⟨['<', '/'] ++ gap ++ word ++ (spacing ++ blanks) ++ ['>'], after, by simp,
    ⟨gap, spacing ++ blanks, rfl, all_eq_true.2 blank, tail⟩, ?_⟩
  rw [ends]
  simpa using place.behind_advance readsEnd

end SfcJsx.Markup.Reader
