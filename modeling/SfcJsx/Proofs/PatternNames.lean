import SfcJsx.Proofs.PatternTails

/-!
Which names are read in the text of a binding pattern. A pattern between brackets that has an
initial value is read without the first bracket and the last one of both, so the last of its
elements goes on behind the closing bracket; and an element is read behind its colon, also if that
is the colon of an initial value.
-/

namespace SfcJsx.Code

open List Text Element

/-- Whether a name is told from what stands behind it. -/
def isFree (tail : Text) : Bool := tail.trimStart.head?.all (· == '=')

/-- The names of one element. With a key, anything behind a further colon makes the element
unreadable, but for a computed key, which is taken for a pattern of its own. -/
def Head.found (target tail : Text) (names : Text → List Text) : Head → List Text
  | .bare | .spread _ => readBehind tail (names tail)
  | .key text gap =>
    if behindColons tail = [] then names (beforeColon tail)
    else if text.head? = some '[' then patternNames (text ++ ':' :: gap ++ target ++ tail)
    else []

mutual

/-- The names that are read off a pattern with the text `tail` behind it. -/
def Pattern.found : Pattern → Text → List Text
  | .name x, tail => if isFree tail then [x] else []
  | .group kind elements, tail =>
    if tail.isBlankText then elements.found []
    else match before? [kind.closing] tail.trimEnd with
      | some inner => elements.found (kind.closing :: inner)
      | none => []

def Elements.found : Elements → Text → List Text
  | .last element, tail => element.found tail
  | .cons element rest, tail => element.found [] ++ rest.found tail

def Element.found : Element → Text → List Text
  | .hole _, tail => readBehind tail.trimEnd []
  | .item _ head target gap initial, tail =>
    head.found target.text (gap ++ initialText initial ++ tail).trimEnd fun rest =>
      target.found rest

end

theorem enclosed?_of_ne {c : Char} (braces : c ≠ '{') (brackets : c ≠ '[') (t : Text) :
    enclosed? (c :: t) = none := by
  unfold enclosed?
  split
  · next same => exact absurd (cons.inj same).1 braces
  · next same => exact absurd (cons.inj same).1 brackets
  · rfl

theorem enclosed?_group (kind : Kind) (t : Text) :
    enclosed? (kind.opening :: t) = before? [kind.closing] t := by
  cases kind <;> rfl

theorem enclosed?_name {x : Text} (named : isIdentifier x) (t : Text) :
    enclosed? (x ++ t) = none := by
  cases x with
  | nil => cases named
  | cons c x =>
    have letters := isIdentChar_of_mem named
    refine enclosed?_of_ne ?_ ?_ (x ++ t)
    · rintro rfl
      exact absurd (letters '{' (by simp)) (by decide)
    · rintro rfl
      exact absurd (letters '[' (by simp)) (by decide)

theorem patternNames_name {x g : Text} (named : isIdentifier x) (tail : IsTail g) :
    patternNames (x ++ g) = if isFree g then [x] else [] := by
  have trimmed := Script.isTrimmed_of_isIdentifier named
  have whole : (x ++ g).trim = x ++ g.trimEnd := trimmed.trim_append g
  have free := enclosed?_name named g.trimEnd
  rw [← whole] at free
  obtain ⟨gap, blank, split⟩ := Script.exists_blanks g
  have cut : (x ++ gap).trim = x := by
    rw [trimmed.trim_append, trimEnd_of_isBlankText (all_eq_true.2 blank), append_nil]
  have own : '=' ∉ x := fun member => absurd (isIdentChar_of_mem named '=' member) (by decide)
  have noSign : '=' ∉ x ++ gap := fun member => (mem_append.1 member).elim own
    fun inGap => absurd (blank '=' inGap) (by decide)
  have starts := tail.starts
  rw [isFree]
  cases rest : g.trimStart with
  | nil =>
    rw [rest, append_nil] at split
    subst split
    have read := patternNames_of_not_enclosed free
    rwa [cut, dropDefault_of_not_mem own, trimmed.trim_self, if_pos named] at read
  | cons c u =>
    rw [rest] at split starts
    subst split
    have marked (shown : isBlank c = false) :
        (x ++ (gap ++ c :: u)).trim = (x ++ gap) ++ c :: trimEnd u := by
      rw [whole, trimEnd_append shown, append_assoc]
    rw [startsTail] at starts
    split at starts
    · next sign =>
      subst sign
      have noArrow : (trimEnd u).head? ≠ some '>' := by
        obtain ⟨blanks, -, same⟩ := exists_trimEnd u
        intro arrow
        rw [same, head?_append, arrow] at starts
        cases starts
      have read := patternNames_of_not_enclosed free
      rwa [marked (by decide), dropDefault_initial noSign noArrow, cut, if_pos named] at read
    · next sign =>
      obtain ⟨-, -, shown, other, -⟩ := isPlain_of_isCloser starts
      rw [patternNames_of_mark (marked shown) noSign sign shown other free]
      simp [sign]

theorem before?_append_of_ne_nil {u : Text} (ne : u ≠ []) (s : Text) (c : Char) :
    before? [c] (s ++ u) = (before? [c] u).map (s ++ ·) := by
  obtain ⟨init, d, rfl⟩ := (eq_nil_or_concat u).resolve_left ne
  rw [concat_eq_append, ← append_assoc]
  by_cases same : d = c
  · subst same
    rw [before?_append, before?_append]
    rfl
  · have none (t : Text) : before? [c] (t ++ [d]) = none := by
      refine Option.eq_none_iff_forall_ne_some.2 fun rest found => same ?_
      simpa using (append_inj' (eq_append_of_before? found) rfl).2
    rw [none, none]
    rfl

theorem patternNames_group {kind : Kind} {s : Text} (g : Text) :
    patternNames (kind.enclose s ++ g) =
      if g.isBlankText then (segments [','] false 0 none (pieces s)).flatMap elementNames
      else match before? [kind.closing] g.trimEnd with
        | some inner => (segments [','] false 0 none
            (pieces (s ++ kind.closing :: inner))).flatMap elementNames
        | none => [] := by
  have whole : (kind.enclose s ++ g).trim = kind.enclose s ++ g.trimEnd :=
    (kind.isTrimmed s).trim_append g
  split
  · next blank =>
    refine patternNames_of_enclosed ?_
    rw [whole, trimEnd_of_isBlankText blank, append_nil, Kind.enclose, enclosed?_group,
      before?_append]
  · next shown =>
    have ne : g.trimEnd ≠ [] := by
      intro none
      obtain ⟨blanks, blank, same⟩ := exists_trimEnd g
      rw [none] at same
      exact shown (all_eq_true.2 (same ▸ blank))
    have read : enclosed? (kind.enclose s ++ g).trim =
        (before? [kind.closing] g.trimEnd).map (s ++ [kind.closing] ++ ·) := by
      rw [whole, Kind.enclose, cons_append, enclosed?_group, before?_append_of_ne_nil ne]
    split
    · next inner found =>
      rw [found, Option.map_some] at read
      rw [patternNames_of_enclosed read, append_assoc, singleton_append]
    · next none =>
      rw [none] at read
      have marked : (kind.enclose s ++ g).trim =
          [] ++ kind.opening :: (s ++ [kind.closing] ++ g.trimEnd) := whole
      cases kind with
      | object | array =>
        exact patternNames_of_mark marked (by simp) (by decide) (by decide) (by decide) read

theorem dropSpread_of_head? {t : Text} (starts : t.head? ≠ some '.') : dropSpread t = t := by
  unfold dropSpread
  split
  · exact absurd rfl starts
  · rfl

theorem head?_append_of_isTrimmed {s : Text} (trimmed : s.IsTrimmed) (t : Text) :
    (s ++ t).head? = s.head? := by
  obtain ⟨c, rest, rfl⟩ := exists_cons_of_ne_nil trimmed.ne
  rfl

variable {key : Text} {head : Head}

section

variable {t gap : Text} (target : IsTarget t) (blank : gap.isBlankText)

include target blank

theorem patternNames_blanks_append (g : Text) :
    patternNames (gap ++ t ++ g) = patternNames (t ++ g) := by
  have whole : (gap ++ t ++ g).trim = t ++ g.trimEnd := target.trimmed.trim_blanks_append blank g
  have alone : (t ++ g).trim = t ++ g.trimEnd := target.trimmed.trim_append g
  rw [← patternNames_trim (gap ++ t ++ g), whole, ← alone, patternNames_trim]

theorem colons_target (g : Text) : beforeColon (gap ++ t ++ g) = gap ++ t ++ beforeColon g ∧
    behindColons (gap ++ t ++ g) = behindColons g := by
  have parts : Parts gap t := (endsPlain_blanks blank).parts t
  have spaced := isCode_blanks blank
  refine colons_append (spaced.1.append parts target.code) ?_
    (((endsPlain_blanks blank).append target.ends).parts g)
  rw [outside_append spaced.1 parts, spaced.2]
  refine fun member => (mem_append.1 member).elim (fun inGap => ?_) target.undivided
  exact absurd (all_eq_true.1 blank _ inGap) (by decide)

theorem trim_target_ne_nil (g : Text) : (gap ++ t ++ g).trim ≠ [] := by
  rw [target.trimmed.trim_blanks_append blank g]
  exact fun none => target.trimmed.ne (append_eq_nil_iff.1 none).1

theorem patternNames_plain (g : Text) :
    patternNames (bindingTarget (gap ++ t ++ g)) = readBehind g (patternNames (t ++ g)) := by
  obtain ⟨front, behind⟩ := colons_target target blank g
  rw [patternNames_bindingTarget, readBehind, behind, patternNames_blanks_append target blank,
    readBehind]
  rw [front]
  exact trim_target_ne_nil target blank _

theorem colons_key (isKey : IsKey key) (g : Text) :
    beforeColon (key ++ ':' :: gap ++ t ++ g) = key ∧
      behindColons (key ++ ':' :: gap ++ t ++ g) =
        (gap ++ t ++ beforeColon g).trim :: behindColons g := by
  have parts : Parts key (':' :: (gap ++ t ++ g)) := isKey.code.settled.parts_cons rfl (by decide) _
  have split := segments_separated (by decide) rfl rfl isKey.code.level isKey.undivided parts none
  obtain ⟨front, behind⟩ := colons_target target blank g
  obtain ⟨rest, read, trimmed⟩ := segments_colon (gap ++ t ++ g)
  rw [segments_before [':'] 0 (some ':'), read] at split
  have whole : key ++ ':' :: gap ++ t ++ g = key ++ ':' :: (gap ++ t ++ g) := by simp
  rw [whole, beforeColon, behindColons, split, ← behind, trimmed, ← front]
  refine ⟨rfl, ?_⟩
  rw [tail_cons, map_cons, filter_cons_of_pos]
  rw [front]
  simpa using trim_target_ne_nil target blank (beforeColon g)

end

theorem patternNames_key (isKey : IsKey key) (other : key.head? ≠ some '[') (u : Text) :
    patternNames (key ++ ':' :: u) = [] := by
  have kind := isKey.kind
  obtain ⟨c, rest, rfl, shown, -, brace⟩ := isKey.exists_cons
  have bracket : c ≠ '[' := by simpa using other
  have whole : trim (c :: rest ++ ':' :: u) = c :: rest ++ ':' :: trimEnd u := by
    rw [trim, trimStart, dropWhile_of_head? (by simpa using shown), trimEnd_append (by decide)]
  have free : enclosed? (trim (c :: rest ++ ':' :: u)) = none := by
    rw [whole]
    exact enclosed?_of_ne brace bracket _
  rcases kind with noSign | quoted
  · exact patternNames_of_mark whole noSign (by decide) (by decide) (by decide) free
  · have quote : isQuote c := by simpa [bracket] using quoted
    have mark : c ≠ '=' ∧ isIdentChar c = false := by
      simp only [isQuote, Bool.or_eq_true, beq_iff_eq] at quote
      rcases quote with (rfl | rfl) | rfl <;> decide
    exact patternNames_of_mark (s := []) whole (by simp) mark.1 shown mark.2 free

theorem Head.isTrimmed (written : head.isWritten) {t : Text} (target : IsTarget t) :
    (head.text ++ t).IsTrimmed := by
  cases head with
  | bare => exact target.trimmed
  | spread gap =>
    have dots : IsTrimmed "..." := ⟨by simp, rfl, rfl⟩
    exact dots.append gap target.trimmed
  | key text gap =>
    simp only [Head.isWritten, Bool.and_eq_true, decide_eq_true_eq] at written
    obtain ⟨c, rest, rfl, shown, -⟩ := written.1.exists_cons
    exact isTrimmed_cons shown (rest ++ ':' :: gap) target.trimmed

theorem Head.patternNames_eq (written : head.isWritten) {t g : Text} (target : IsTarget t)
    {names : Text → List Text} (whole : patternNames (t ++ g) = names g)
    (front : patternNames (t ++ beforeColon g) = names (beforeColon g)) :
    patternNames (bindingTarget (dropSpread (head.text ++ t ++ g))) = head.found t g names := by
  cases head with
  | bare =>
    have starts : (t ++ g).head? ≠ some '.' := by
      rw [head?_append_of_isTrimmed target.trimmed]
      exact target.starts
    rw [Head.text, nil_append, dropSpread_of_head? starts, Head.found, ← whole]
    exact @patternNames_plain t [] target rfl g
  | spread gap =>
    have starts : (gap ++ t ++ g).head? ≠ some '.' := by
      cases gap with
      | nil =>
        rw [nil_append, head?_append_of_isTrimmed target.trimmed]
        exact target.starts
      | cons c gap =>
        rintro ⟨⟩
        cases written
    have dots : dropSpread ("..." ++ gap ++ t ++ g) = gap ++ t ++ g := dropSpread_of_head? starts
    rw [Head.text, dots, Head.found, ← whole]
    exact patternNames_plain target written g
  | key text gap =>
    simp only [Head.isWritten, Bool.and_eq_true, decide_eq_true_eq] at written
    obtain ⟨isKey, blank⟩ := written
    obtain ⟨c, rest, whole, shown, noDot, -⟩ := isKey.exists_cons
    have starts : (text ++ ':' :: gap ++ t ++ g).head? ≠ some '.' := by
      rw [whole]
      simpa using noDot
    have named : text.trim ≠ [] := by
      rw [whole, trim, ← nil_append (c :: rest), trimStart_append_cons [] shown,
        trimEnd_append shown]
      simp
    obtain ⟨before, behind⟩ := colons_key target blank isKey g
    rw [← before] at named
    rw [Head.text, dropSpread_of_head? starts, patternNames_bindingTarget named, readBehind,
      behind, Head.found]
    cases colons : behindColons g with
    | nil =>
      rw [← front, ← patternNames_blanks_append target blank]
      exact patternNames_trim _
    | cons u rest =>
      rw [if_neg (by simp)]
      by_cases computed : text.head? = some '['
      · rw [if_pos computed]
      · rw [if_neg computed]
        have split : text ++ ':' :: gap ++ t ++ g = text ++ ':' :: (gap ++ t ++ g) := by simp
        exact (congrArg patternNames split).trans (patternNames_key isKey computed _)

theorem elementNames_hole {blanks g : Text} (blank : blanks.isBlankText) (edge : IsEdge g) :
    elementNames (blanks ++ g) = readBehind g.trimEnd [] := by
  have spaces := all_eq_true.1 blank
  cases g with
  | nil =>
    have none : (blanks ++ []).trim = [] := by
      rw [append_nil, trim_of_forall spaces]
    rw [elementNames_of_trim none, readBehind, behindColons, trimEnd]
    simp [pieces, segments]
  | cons c g =>
    have closer : isCloser c := edge.starts
    obtain ⟨plain, -, shown, other, sign⟩ := isPlain_of_isCloser closer
    have whole : (blanks ++ c :: g).trim = c :: trimEnd g := by
      rw [trim, Script.trimStart_blanks_append spaces (by simpa using shown)]
      exact trimEnd_append (s := []) shown g
    have alone : trim (c :: trimEnd g) = c :: trimEnd g := by
      rw [← whole, trim_trim]
    have facts : c ≠ '.' ∧ c ≠ '{' ∧ c ≠ '[' ∧ isOpening false c = false ∧
        isClosing false none c := by
      simp only [isCloser, Bool.or_eq_true, beq_iff_eq] at closer
      rcases closer with rfl | rfl <;> decide
    obtain ⟨noDot, brace, bracket, opens, closes⟩ := facts
    have first : (beforeColon (c :: trimEnd g)).trim ≠ [] := by
      rw [beforeColon, pieces_cons_of_isPlain plain, segments, opens, if_neg Bool.false_ne_true,
        if_pos closes, headD_extend, singleton_append, ← nil_append (c :: _), trim,
        trimStart_append_cons [] shown, trimEnd_append shown]
      simp
    have nothing : patternNames (c :: trimEnd g) = [] :=
      patternNames_of_mark (s := []) alone (by simp) sign shown other
        (by rw [alone]; exact enclosed?_of_ne brace bracket _)
    rw [elementNames, whole, dropSpread_of_head? (by simpa using noDot),
      patternNames_bindingTarget first, nothing]
    exact congrArg (readBehind · []) (trimEnd_append (s := []) shown g).symm

mutual

theorem Pattern.patternNames_text : {p : Pattern} → (written : p.isWritten) → {g : Text} →
    (tail : IsTail g) → patternNames (p.text ++ g) = p.found g
  | .name x, written, g, tail => by
    rw [Pattern.text, Pattern.found]
    exact patternNames_name written tail
  | .group kind es, written, g, tail => by
    rw [Pattern.text, Pattern.found, patternNames_group]
    split
    · have read := Elements.patternNames_text written isEdge_nil
      rwa [append_nil] at read
    · split
      · next inner found => exact Elements.patternNames_text written (tail.cut found)
      · rfl

theorem Elements.patternNames_text : {es : Elements} → (written : es.isWritten) →
    {g : Text} → (edge : IsEdge g) →
    (segments [','] false 0 none (pieces (es.text ++ g))).flatMap elementNames = es.found g
  | .last e, written, g, edge => by
    have listed := Element.isListed written
    have parts := edge.parts listed.code.settled
    have whole : ',' ∉ outside (e.text ++ g) := by
      rw [outside_append listed.code parts]
      exact fun member => (mem_append.1 member).elim listed.whole edge.whole
    rw [Elements.text, segments_of_not_mem whole, flatten_pieces, Elements.found, flatMap_singleton]
    exact Element.elementNames_text written edge
  | .cons e rest, written, g, edge => by
    rw [Elements.isWritten, Bool.and_eq_true] at written
    have listed := Element.isListed written.1
    have alone := Element.elementNames_text written.1 isEdge_nil
    rw [append_nil] at alone
    rw [Elements.text, append_assoc, cons_append,
      segments_separated (by decide) rfl rfl listed.code.level listed.whole
        (listed.code.settled.parts_cons rfl (by decide) _),
      segments_before [','] 0 (some ','), flatMap_cons, alone,
      Elements.patternNames_text written.2 edge, Elements.found]

theorem Element.elementNames_text : {e : Element} → (written : e.isWritten) → {g : Text} →
    (edge : IsEdge g) → elementNames (e.text ++ g) = e.found g
  | .hole blanks, written, g, edge => by
    exact elementNames_hole written edge
  | .item before head target gap initial, written, g, edge => by
    simp only [isWritten, Bool.and_eq_true] at written
    obtain ⟨⟨⟨⟨blank, headed⟩, targeted⟩, spaced⟩, valued⟩ := written
    have isTarget := Pattern.isTarget targeted
    have tail := (edge.tail spaced valued).trimEnd
    have split : (item before head target gap initial).text ++ g =
        before ++ (head.text ++ target.text) ++ (gap ++ initialText initial ++ g) := by
      simp [text]
    rw [elementNames, split, (Head.isTrimmed headed isTarget).trim_blanks_append blank, found]
    exact Head.patternNames_eq headed isTarget (Pattern.patternNames_text targeted tail)
      (Pattern.patternNames_text targeted tail.beforeColon)

end

end SfcJsx.Code
