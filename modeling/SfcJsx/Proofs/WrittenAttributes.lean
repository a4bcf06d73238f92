import SfcJsx.Proofs.ReaderSpans

/-!
Attributes as they are written. The name goes as far as name characters go; behind it, blanks apart,
an `=` and a value may follow. What a reader takes for the name and the value of an attribute is
what stands there, whatever faults the source has.
-/

theorem SfcJsx.Text.prefix_of_width_le {s t whole : Text} (first : s <+: whole)
    (second : t <+: whole) (le : s.width ≤ t.width) : s <+: t := by
  rcases List.prefix_or_prefix_of_prefix first second with within | ⟨extra, rfl⟩
  · exact within
  · rw [width_append] at le
    obtain rfl : extra = [] := by
      by_contra ne
      have := width_pos ne
      omega
    exact ⟨[], by simp⟩

namespace SfcJsx.Markup

open List Text
open Token (lead isSkipped isNameChar Reads)

variable {c : Char} {t : Text}

/-- The value behind an `=`, up to the same quote, or up to white space or `>`. -/
def valueFrom (t : Text) : Option Text :=
  match t.dropWhile isSkipped with
  | '"' :: rest => (cut? ['"'] rest).map (·.1)
  | '\'' :: rest => (cut? ['\''] rest).map (·.1)
  | [] | '>' :: _ | '/' :: '>' :: _ => none
  | value => some (value.takeWhile fun c => !(isBlank c || c == '>'))

/-- The value that follows the name of an attribute. -/
def valueAfter (t : Text) : Option Text :=
  match t.dropWhile isSkipped with
  | '=' :: rest => valueFrom rest
  | _ => none

namespace Token

theorem isNameChar_of_lead (kept : isSkipped c = false)
    (named : (lead c t).1 = .name) : isNameChar c := by
  by_contra other
  rcases eq_of_not_isNameChar kept (by simpa using other) with
    rfl | rfl | rfl | rfl | rfl | rfl | rfl | rfl | rfl
  all_goals
    unfold lead at named
    split at named <;> simp_all

theorem lead_ne_endOfFile (c : Char) (t : Text) : (lead c t).1 ≠ .endOfFile := by
  unfold lead
  split <;> simp

end Token

namespace Reader

variable {r : Reader} {before rest : Text}

theorem At.kind_of_dropWhile (h : r.At before rest)
    (ahead : rest.dropWhile isSkipped = c :: t) : r.kind = (lead c t).1 ∧ isSkipped c = false ∧
      r.offset = (before ++ rest.takeWhile isSkipped).width ∧
      r.At (before ++ rest.takeWhile isSkipped) (c :: t) := by
  have stops := head?_dropWhile_not isSkipped rest
  rw [ahead] at stops
  have stands : r.At before (rest.takeWhile isSkipped ++ (c :: t)) := by
    rwa [← ahead, takeWhile_append_dropWhile]
  have place := stands.skip fun d member => all_eq_true.1 all_takeWhile d member
  have reads := Token.reads_lead stops t
  have split : c :: t = (c :: t.take (lead c t).2) ++ t.drop (lead c t).2 := by simp
  have here := place
  rw [split] at here
  exact ⟨here.kind reads, stops, here.offset reads, place⟩

theorem At.kind_of_blank (h : r.At before rest) (ahead : rest.dropWhile isSkipped = []) :
    r.kind = .endOfFile := by
  have blank : rest.takeWhile isSkipped = rest := by
    simpa [ahead] using takeWhile_append_dropWhile (p := isSkipped) (l := rest)
  have all : ∀ c ∈ rest, isSkipped c := by
    rw [← blank]
    exact all_eq_true.1 all_takeWhile
  have stands : r.At (before ++ rest) [] := At.skip (by simpa using h) all
  exact stands.kind_nil

theorem dropWhile_isSkipped {gap : Text} (blank : ∀ d ∈ gap, isSkipped d)
    (kept : isSkipped c = false) : (gap ++ c :: t).dropWhile isSkipped = c :: t := by
  rw [dropWhile_append_of_pos blank, dropWhile_cons_of_neg (by simp [kept])]

theorem At.ahead_offset {kind : TokenKind} (h : r.fresh.At before (c :: t))
    (reads : Reads kind [c] t) (one : c.utf8Size = 1) : r.ahead (r.offset + 1) = t := by
  have behind : r.ahead (r.offset + width [c]) = t := h.ahead_behind (t := [c]) reads
  rwa [width_cons, one] at behind

theorem At.value_readValue (h : r.fresh.At before rest) (name : Text) :
    (r.readValue name).1.map (·.1) = valueFrom rest := by
  unfold readValue
  split
  · next kind =>
    obtain ⟨gap, after, rfl, blank, reads, stands⟩ := h.spelled kind rfl
    have ahead := dropWhile_isSkipped (t := after) (c := '"') blank (by decide)
    have value : valueFrom (gap ++ '"' :: after) = (cut? ['"'] after).map (·.1) := by
      simp only [valueFrom, ahead]
    have behind : r.ahead (r.offset + 1) = after := stands.ahead_offset reads (by decide)
    refine Eq.trans ?_ value.symm
    dsimp only
    rw [behind]
    cases cut? ['"'] after <;> rfl
  · next kind =>
    obtain ⟨gap, after, rfl, blank, reads, stands⟩ := h.spelled kind rfl
    have ahead := dropWhile_isSkipped (t := after) (c := '\'') blank (by decide)
    have value : valueFrom (gap ++ '\'' :: after) = (cut? ['\''] after).map (·.1) := by
      simp only [valueFrom, ahead]
    have behind : r.ahead (r.offset + 1) = after := stands.ahead_offset reads (by decide)
    refine Eq.trans ?_ value.symm
    dsimp only
    rw [behind]
    cases cut? ['\''] after <;> rfl
  · next kind =>
    obtain ⟨gap, after, rfl, blank, -, -⟩ := h.spelled kind rfl
    have ahead : (gap ++ '>' :: after).dropWhile isSkipped = '>' :: after :=
      dropWhile_isSkipped blank (by decide)
    simp [valueFrom, ahead]
  · next kind =>
    obtain ⟨gap, after, rfl, blank, -, -⟩ := h.spelled kind rfl
    have ahead : (gap ++ '/' :: '>' :: after).dropWhile isSkipped = '/' :: '>' :: after :=
      dropWhile_isSkipped blank (by decide)
    simp [valueFrom, ahead]
  · next kind =>
    cases ahead : rest.dropWhile isSkipped with
    | nil => simp [valueFrom, ahead]
    | cons c t =>
      obtain ⟨found, -⟩ := h.kind_of_dropWhile ahead
      exact absurd (found.symm.trans kind) (Token.lead_ne_endOfFile c t)
  · next double single close selfClose atEnd =>
    cases ahead : rest.dropWhile isSkipped with
    | nil => exact absurd (h.kind_of_blank ahead) atEnd
    | cons c t =>
      obtain ⟨kind, -, offset, place⟩ := h.kind_of_dropWhile ahead
      have here : r.ahead r.offset = c :: t := by
        have offset : r.offset = (before ++ rest.takeWhile isSkipped).width := offset
        rw [offset]
        exact ahead_of_source place.source
      simp only [here, valueFrom, ahead]
      -- Any other beginning of a value would be a token of its own kind.
      split
      · next same =>
        cases same
        exact absurd kind double
      · next same =>
        cases same
        exact absurd kind single
      · next same => cases same
      · next same =>
        cases same
        exact absurd kind close
      · next same =>
        cases same
        exact absurd kind selfClose
      · rfl

theorem At.value_readAttribute (h : r.fresh.At before rest) (name : Text) :
    (if r.kind = .equals then r.advance.readValue name else (none, r)).1.map (·.1) =
      valueAfter rest := by
  split
  · next kind =>
    obtain ⟨gap, after, rfl, blank, reads, stands⟩ := h.spelled kind rfl
    have ahead := dropWhile_isSkipped (t := after) (c := '=') blank (by decide)
    have value : valueAfter (gap ++ '=' :: after) = valueFrom after := by
      simp only [valueAfter, ahead]
    have onward := stands.advance reads
    rw [← fresh_advance] at onward
    exact (onward.value_readValue name).trans value.symm
  · next other =>
    unfold valueAfter
    split
    · next rest' ahead => exact absurd (h.kind_of_dropWhile ahead).1 other
    · rfl

theorem At.name (h : r.At before rest) (named : r.kind = .name) :
    ∃ gap t, rest = gap ++ t ∧ r.At (before ++ gap) t ∧
      Reads .name (t.takeWhile isNameChar) (t.dropWhile isNameChar) := by
  cases ahead : rest.dropWhile isSkipped with
  | nil =>
    have atEnd := h.kind_of_blank ahead
    simp [named] at atEnd
  | cons c t =>
    obtain ⟨kind, kept, -, place⟩ := h.kind_of_dropWhile ahead
    have word := Token.isNameChar_of_lead kept (kind.symm.trans named)
    refine ⟨rest.takeWhile isSkipped, c :: t, ?_, place, ?_⟩
    · rw [← ahead, takeWhile_append_dropWhile]
    · have reads := Token.reads_word (cons_ne_nil c []) (by simpa using word) t
      simpa [word] using reads

end Reader

def PlainAttribute.written (source : Text) (span : Span) : PlainAttribute :=
  let t := source.dropBytes span.start
  ⟨span, t.takeWhile isNameChar, valueAfter (t.dropWhile isNameChar)⟩

namespace Attribute

def IsLiteral (source : Text) (attr : Attribute) : Prop := attr = .plain (.written source attr.span)

/-- A directive that says what a name says, with the value that stands at its place. -/
def IsDirective (source : Text) (name : DirectiveName) : Attribute → Prop
  | .plain _ => False
  | .directive d => name = ⟨d.kind, d.argument, d.modifiers⟩ ∧
      d.expressionText? = (PlainAttribute.written source d.span).value

/-- Read as the directive that its name spells, or else as it is written. -/
def IsNamed (source : Text) (attr : Attribute) : Prop :=
  match DirectiveName.parse? (PlainAttribute.written source attr.span).name with
  | some name => attr.IsDirective source name
  | none => attr.IsLiteral source

def IsSpelled (source : Text) (attr : Attribute) : Prop :=
  ∃ gap, gap.all isSkipped ∧ (attr.span.slice source).takeWhile (· != '=') =
    (PlainAttribute.written source attr.span).name ++ gap

end Attribute

namespace Reader

variable {source : Text} {r : Reader}

theorem GoesOn.exists_name (came : (ofSource source).GoesOn r) (named : r.kind = .name) :
    ∃ before t, source = before ++ t ∧ r.offset = before.width ∧
      r.currentText = t.takeWhile isNameChar ∧
      r.advance.fresh.Behind (before ++ t.takeWhile isNameChar) (t.dropWhile isNameChar) := by
  obtain ⟨before, rest, behind⟩ := came.exists_behind (tokens_ne_nil_of_kind (by simp [named]))
  obtain ⟨gap, t, rfl, place, reads⟩ := behind.place.name named
  have whole : source = (before ++ gap) ++ t := came.source.symm.trans place.source
  rw [← takeWhile_append_dropWhile (p := isNameChar) (l := t)] at place
  refine ⟨before ++ gap, t, whole, place.offset reads, place.currentText reads, ?_⟩
  rw [fresh_advance]
  exact place.behind_advance reads

theorem GoesOn.written (came : (ofSource source).GoesOn r) (named : r.kind = .name) (stop : Nat) :
    PlainAttribute.written source ⟨r.offset, stop⟩ = ⟨⟨r.offset, stop⟩, r.currentText,
      (if r.advance.kind = .equals then r.advance.advance.readValue r.currentText
        else (none, r.advance)).1.map (·.1)⟩ := by
  obtain ⟨before, t, rfl, offset, text, behind⟩ := came.exists_name named
  rw [behind.place.value_readAttribute, text, PlainAttribute.written, offset,
    dropBytes_width_append]

theorem GoesOn.readAttribute (came : (ofSource source).GoesOn r) (named : r.kind = .name) :
    (r.readAttribute true).1.IsLiteral source ∧ (r.readAttribute false).1.IsNamed source := by
  have written := came.written named
  constructor
  · simp only [Reader.readAttribute, if_true, Attribute.IsLiteral, Attribute.span, written]
  · unfold Reader.readAttribute
    dsimp only
    split
    · next kind argument modifiers found =>
      rw [if_neg (by simp)] at found
      simp only [Attribute.IsNamed, Attribute.span, written, found]
      refine ⟨rfl, ?_⟩
      simp [Directive.expressionText?, written, Function.comp_def]
    · next found =>
      rw [if_neg (by simp)] at found
      simp only [Attribute.IsNamed, Attribute.span, written, found, Attribute.IsLiteral]

theorem reader_readAttribute (r : Reader) (literal : Bool) : (r.readAttribute literal).2 =
    (if r.advance.kind = .equals then r.advance.advance.readValue r.currentText
      else (none, r.advance)).2 := by
  unfold Reader.readAttribute
  dsimp only
  split <;> rfl

section

variable (came : (ofSource source).GoesOn r)

include came

theorem GoesOn.exists_part (named : r.kind = .name) (literal : Bool) :
    ∃ before t part, source = before ++ t ∧ part <+: t ∧
      (r.readAttribute literal).1.span.slice source = part ∧
      (PlainAttribute.written source (r.readAttribute literal).1.span).name =
        t.takeWhile isNameChar ∧
      before.width + width part =
        max (r.readAttribute literal).2.tokenEnd
          (before.width + width (t.takeWhile isNameChar)) ∧
      r.advance.fresh.Behind (before ++ t.takeWhile isNameChar) (t.dropWhile isNameChar) := by
  obtain ⟨before, t, rfl, offset, text, behind⟩ := came.exists_name named
  obtain ⟨front, part, after, whole, -, span⟩ := came.sound.span_readAttribute named literal
  have slice := Span.Covers.slice ⟨front, after, whole, span⟩
  have here := dropBytes_width_append before t
  have name : (PlainAttribute.written (before ++ t) (r.readAttribute literal).1.span).name =
      t.takeWhile isNameChar := by
    rw [span_readAttribute, offset, PlainAttribute.written, here]
  rw [span_readAttribute, offset, text] at span
  obtain ⟨start, stop⟩ := Span.mk.inj span
  rw [whole, start, dropBytes_width_append] at here
  refine ⟨before, t, part, rfl, ⟨after, here⟩, slice, name, ?_, behind⟩
  rw [stop, width_append, start]

theorem GoesOn.part_readAttribute (named : r.kind = .name) (literal : Bool) :
    ∃ word, word.all isNameChar ∧
      (PlainAttribute.written source (r.readAttribute literal).1.span).name = word ∧
      ∃ gap tail, gap.all isSkipped ∧ tail.head?.all (· == '=') ∧
        (r.readAttribute literal).1.span.slice source = word ++ gap ++ tail := by
  obtain ⟨before, t, part, rfl, inside, slice, name, width, behind⟩ :=
    came.exists_part named literal
  refine ⟨_, all_takeWhile, name, ?_⟩
  have within := takeWhile_prefix isNameChar (l := t)
  have split := takeWhile_append_dropWhile (p := isNameChar) (l := t)
  generalize t.takeWhile isNameChar = word at behind width within split ⊢
  rw [slice]
  rw [reader_readAttribute] at width
  by_cases equals : r.advance.kind = .equals
  · obtain ⟨gap, rest, next, blank, reads, stands⟩ := behind.place.spelled equals rfl
    have reached : r.advance.advance.tokenEnd = (before ++ word ++ gap ++ ['=']).width := by
      have passed := stands.tokenEnd_advance reads
      rw [← fresh_advance] at passed
      exact passed
    have further : r.advance.advance.tokenEnd ≤
        (r.advance.advance.readValue r.currentText).2.tokenEnd := by
      have advanced := (came.sound.passes ((passes_advance r).trans (passes_advance _))).1
      exact (advanced.passes (passes_readValue _ _)).2
    have past : word ++ gap ++ ['='] <+: part := by
      refine prefix_of_width_le ⟨rest, ?_⟩ inside ?_
      · rw [← split, next]
        simp
      · rw [if_pos equals] at width
        simp only [width_append] at reached ⊢
        omega
    obtain ⟨more, rfl⟩ := past
    exact ⟨gap, '=' :: more, all_eq_true.2 blank, rfl, by simp⟩
  · have reached : r.advance.tokenEnd = (before ++ word).width := behind.tokenEnd
    have same : Text.width part = Text.width word := by
      rw [if_neg equals, reached, width_append] at width
      omega
    have first := prefix_of_width_le inside within (Nat.le_of_eq same)
    have second := prefix_of_width_le within inside (Nat.le_of_eq same.symm)
    exact ⟨[], [], rfl, rfl, by simpa using first.eq_of_length_le second.length_le⟩

theorem GoesOn.isSpelled_readAttribute (named : r.kind = .name)
    (literal : Bool) : (r.readAttribute literal).1.IsSpelled source := by
  obtain ⟨word, letters, name, gap, tail, blank, stops, whole⟩ :=
    came.part_readAttribute named literal
  have ends : tail.takeWhile (· != '=') = [] := by
    cases tail with
    | nil => rfl
    | cons c tail => simp_all
  refine ⟨gap, blank, ?_⟩
  rw [whole, name, takeWhile_append_of_pos, ends, append_nil]
  intro c member
  rw [bne_iff_ne]
  rintro rfl
  rcases mem_append.1 member with inside | after
  · exact absurd (all_eq_true.1 letters _ inside) (by decide)
  · exact absurd (all_eq_true.1 blank _ after) (by decide)

theorem GoesOn.readAttributes (literal : Bool) :
    ∀ attr ∈ (r.readAttributes literal).1,
      (if literal then attr.IsLiteral source else attr.IsNamed source) ∧ attr.IsSpelled source := by
  fun_induction Reader.readAttributes r literal
  case case1 => simp
  case case2 r next ends named first last ih =>
    have here := came.trans (passes_skipNewlines r).goesOn
    have read := (passes_advance next).trans (passes_readAttribute next literal)
    obtain ⟨isLiteral, isNamed⟩ := here.readAttribute named
    refine forall_mem_cons.2 ⟨⟨?_, here.isSpelled_readAttribute named literal⟩,
      ih (here.trans read.goesOn)⟩
    cases literal with
    | true => exact isLiteral
    | false => exact isNamed
  case case3 r next ends named slash ih =>
    exact ih (came.trans ((passes_skipNewlines r).trans (passes_advance next)).goesOn)
  case case4 r next ends named slash ih =>
    exact ih (came.trans ((passes_skipNewlines r).trans
      ((passes_report next _).trans (passes_advance _))).goesOn)

end

end Reader

end SfcJsx.Markup
