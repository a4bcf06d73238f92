import SfcJsx.Proofs.TagPlaces

/-!
What a reader takes from its source, whatever faults the source has. The tokens ahead stand in the
source as they are spelled, so the places behind a quote, a `{{` or a `<!--` lie between characters;
what is cut out from there on is a part of the source, and every fault is reported at one.
-/

namespace SfcJsx

open List Text Nat SfcJsx.Span

theorem Text.IsBoundary.exists_dropBytes {source : Text} {offset : Nat}
    (h : source.IsBoundary offset) :
    ∃ before, source = before ++ source.dropBytes offset ∧ before.width = offset := by
  obtain ⟨before, rest, rfl, rfl⟩ := h
  exact ⟨before, by simp [dropBytes, from?_width_append], rfl⟩

theorem Text.isBoundary_width (source : Text) : source.IsBoundary source.width :=
  ⟨source, [], by simp, rfl⟩

namespace Span

variable {source t : Text} {span : Span}

def Covers (source : Text) (span : Span) (t : Text) : Prop :=
  ∃ before after, source = before ++ (t ++ after) ∧ span = ⟨before.width, (before ++ t).width⟩

def Fits (source : Text) (span : Span) : Prop := ∃ t, span.Covers source t

theorem Covers.slice? (h : span.Covers source t) : span.slice? source = some t := by
  obtain ⟨before, after, rfl, rfl⟩ := h
  rw [slice?, width_append, ← append_assoc, slice?_append]

theorem Covers.slice (h : span.Covers source t) : span.slice source = t := by
  have cut := h.slice?
  rw [Span.slice?] at cut
  rw [Span.slice, Text.slice, cut]
  rfl

theorem Covers.isInfix (h : span.Covers source t) : t <:+: source := by
  obtain ⟨before, after, rfl, -⟩ := h
  exact ⟨before, after, append_assoc _ _ _⟩

theorem IsPart.fits (h : span.IsPart source) : span.Fits source := by
  obtain ⟨before, part, after, whole, -, place⟩ := h
  exact ⟨part, before, after, whole, place⟩

theorem fits_of_le {start stop : Nat} (first : source.IsBoundary start)
    (last : source.IsBoundary stop) (le : start ≤ stop) : Fits source ⟨start, stop⟩ := by
  rcases lt_or_eq_of_le le with lt | rfl
  · exact (isPart_of_lt first last lt).fits
  · obtain ⟨before, rest, rfl, rfl⟩ := first
    exact ⟨[], before, rest, rfl, by simp⟩

/-- Both ends of a span lie between characters, in order, and the span can be cut out. -/
structure Valid (source : Text) (span : Span) : Prop where
  ordered : span.start ≤ span.stop
  inside : span.stop ≤ source.width
  start : source.IsBoundary span.start
  stop : source.IsBoundary span.stop
  sliced : span.slice? source ≠ none

theorem Fits.valid (h : span.Fits source) : span.Valid source := by
  obtain ⟨t, covers⟩ := h
  have cut := covers.slice?
  obtain ⟨before, after, rfl, rfl⟩ := covers
  refine ⟨by simp, by simp, ⟨before, t ++ after, rfl, rfl⟩, ⟨before ++ t, after, by simp, rfl⟩, ?_⟩
  rw [cut]
  exact Option.some_ne_none t

end Span

namespace Markup

open Token (scanFrom spelling?)

def Token.Spelled (source : Text) (token : Token) : Prop :=
  ∀ s, spelling? token.kind = some s → token.span.Covers source s

theorem Token.spelled_scanFrom {source before t : Text} (whole : source = before ++ t) :
    ∀ token ∈ scanFrom before.width t, token.Spelled source := by
  induction before, t using reading_induction with
  | nil before => simp [scanFrom, Spelled, spelling?]
  | skip before c rest skipped ih =>
    rw [scanFrom_skip skipped]
    exact ih (by simp [whole])
  | token before c t rest kind kept read ih =>
    rw [(reads_of_lead kept read).scanFrom, forall_mem_cons]
    refine ⟨fun s spelled => ?_, ih (by rw [whole, append_assoc])⟩
    have word := eq_of_spelling? c (t ++ rest) (by rwa [read])
    rw [read, take_left] at word
    exact word ▸ ⟨before, rest, whole, rfl⟩

namespace Reader

variable {source : Text} {reached : Nat} {r next : Reader}

/-- A reader that has come to an offset or past it, and only holds places of its source. -/
structure Valid (source : Text) (reached : Nat) (r : Reader) : Prop where
  sound : r.Sound source
  further : reached ≤ r.tokenEnd
  spelled : ∀ token ∈ r.tokens, token.Spelled source
  textEnd : source.IsBoundary r.textEnd
  faults : ∀ fault ∈ r.faults, fault.span.Fits source

theorem valid_ofSource (source : Text) : (ofSource source).Valid source 0 where
  sound := sound_ofSource source
  further := zero_le _
  spelled := by
    have whole : source = [] ++ source := rfl
    exact Token.spelled_scanFrom whole
  textEnd := ⟨[], source, rfl, rfl⟩
  faults := by simp [ofSource]

theorem Valid.passes (h : r.Valid source reached) (passes : r.Passes next)
    (faults : ∀ fault ∈ next.faults, fault.span.Fits source) : next.Valid source reached where
  sound := (h.sound.passes passes).1
  further := le_trans h.further (h.sound.passes passes).2
  spelled := by
    obtain ⟨passed, split, -⟩ := passes.tokens
    exact fun token member => h.spelled token (split ▸ mem_append_right _ member)
  textEnd := passes.textEnd ▸ h.textEnd
  faults := faults

theorem faults_advance (r : Reader) : r.advance.faults = r.faults := by
  unfold advance
  split <;> rfl

section Moves

variable (h : r.Valid source reached)

include h

theorem Valid.advance : r.advance.Valid source reached :=
  h.passes (passes_advance r) (by simpa [faults_advance] using h.faults)

theorem Valid.skipWhile (sort : Token → Bool) : (r.skipWhile sort).Valid source reached :=
  h.passes (passes_skipWhile r sort) h.faults

theorem Valid.seek (offset : Nat) : (r.seek offset).Valid source reached := h.skipWhile _

theorem Valid.skipNewlines : r.skipNewlines.Valid source reached := h.skipWhile _

theorem Valid.reportAt {span : Span} (fits : span.Fits source) (kind : FaultKind) :
    (r.reportAt kind span).Valid source reached := by
  refine h.passes (passes_reportAt r kind span) fun fault member => ?_
  rcases mem_append.1 member with earlier | last
  · exact h.faults fault earlier
  · rw [mem_singleton.1 last]
    exact fits

theorem Valid.current : r.current.span.Fits source := by
  rcases empty : r.tokens with - | ⟨token, tokens⟩
  · have boundary := isBoundary_width source
    rw [Reader.current, empty, h.sound.same]
    exact fits_of_le boundary boundary (le_refl _)
  · have laid := h.sound.laid
    rw [empty] at laid
    obtain ⟨-, start, ordered, stop, -, -⟩ := laid
    rw [Reader.current, empty]
    exact fits_of_le start stop ordered

theorem Valid.offset : source.IsBoundary r.offset := h.current.valid.start

theorem Valid.le_offset : reached ≤ r.offset := by
  refine le_trans h.further ?_
  by_cases more : r.kind = .endOfFile
  · rcases ahead : r.tokens with - | ⟨token, tokens⟩
    · obtain ⟨before, rest, whole, place⟩ := h.sound.tokenEnd
      rw [Reader.offset, Reader.current, ahead, h.sound.same, whole, place]
      simp [emptyAt]
    · have laid := h.sound.laid
      rw [ahead] at laid
      rw [Reader.offset, Reader.current, ahead]
      exact laid.1
  · exact (h.sound.current more).2.1

theorem Valid.advance_past (more : r.kind ≠ .endOfFile) : r.advance.Valid source r.offset :=
  { h.advance with further := le_of_lt (h.sound.current more).2.2.1 }

theorem Valid.weaken : r.Valid source 0 := { h with further := zero_le _ }

theorem Valid.exists_ahead : ∃ before, source = before ++ r.ahead r.offset ∧
    before.width = r.offset := by
  rw [ahead, h.sound.same]
  exact h.offset.exists_dropBytes

theorem Valid.exists_ahead_of_spelling {s : Text} (spelling : spelling? r.kind = some s) :
    ∃ before, source = before ++ (s ++ r.ahead (r.offset + s.width)) ∧
      before.width = r.offset := by
  have more : r.kind ≠ .endOfFile := by
    intro atEnd
    simp [atEnd, spelling?] at spelling
  obtain ⟨token, tokens, ahead⟩ := exists_cons_of_ne_nil (tokens_ne_nil_of_kind more)
  have current : r.current = token := by simp [Reader.current, ahead]
  rw [kind, current] at spelling
  obtain ⟨before, after, whole, place⟩ := h.spelled token (by simp [ahead]) s spelling
  have offset : r.offset = before.width := by rw [Reader.offset, current, place]
  refine ⟨before, ?_, offset.symm⟩
  have inside : r.source = (before ++ s) ++ after := by simp [h.sound.same, whole]
  rw [offset, ← width_append, ahead_of_source inside, whole]

theorem Valid.report (kind : FaultKind) : (r.report kind).Valid source reached :=
  h.reportAt h.current kind

theorem Valid.expect (kind : TokenKind) : (r.expect kind).Valid source reached := by
  unfold Reader.expect
  split
  · exact h.advance
  · split <;> exact h.report _

theorem Valid.passClosingTag (name : Text) : (r.passClosingTag name).Valid source reached := by
  unfold Reader.passClosingTag
  split
  · exact h.advance.advance.skipNewlines.expect _
  · exact h

theorem Valid.skipClosingTag : r.skipClosingTag.Valid source reached := by
  unfold Reader.skipClosingTag
  dsimp only
  split
  · exact (h.advance.skipWhile _).advance
  · exact h.advance.skipWhile _

end Moves

theorem Valid.readQuoted (h : r.Valid source reached) {quote : Char}
    (quoted : spelling? r.kind = some [quote]) (width : quote.utf8Size = 1) {value tail : Text}
    (found : Text.cut? [quote] (r.ahead (r.offset + 1)) = some (value, tail)) :
    Span.Covers source ⟨r.offset + 1, r.offset + 1 + value.width⟩ value := by
  obtain ⟨before, whole, place⟩ := h.exists_ahead_of_spelling quoted
  have one : Text.width [quote] = 1 := by simp [width]
  rw [one, eq_append_of_cut? found] at whole
  refine ⟨before ++ [quote], [quote] ++ tail, ?_, ?_⟩
  · rw [whole]
    simp
  · simp only [width_append, one, place]

theorem Valid.readValue (h : r.Valid source reached) (name : Text) :
    (r.readValue name).2.Valid source reached ∧
      ∀ value ∈ (r.readValue name).1, value.2.Covers source value.1 := by
  unfold Reader.readValue
  split
  case h_1 kind | h_2 kind =>
    dsimp only
    split
    · next found =>
      refine ⟨(h.seek _).advance, ?_⟩
      rintro _ ⟨⟩
      exact h.readQuoted (by rw [kind]; rfl) rfl found
    · exact ⟨(h.report _).seek _, by simp⟩
  case h_3 | h_4 | h_5 => exact ⟨h.report _, by simp⟩
  case h_6 =>
    refine ⟨h.seek _, ?_⟩
    rintro _ ⟨⟩
    obtain ⟨before, whole, place⟩ := h.exists_ahead
    refine ⟨before, (r.ahead r.offset).dropWhile fun c => !(isBlank c || c == '>'), ?_, ?_⟩
    · rw [takeWhile_append_dropWhile]
      exact whole
    · rw [width_append, place]

end Reader

/-- What an attribute holds was read from a source: the expression of a directive stands at its
span. -/
def Attribute.ReadFrom (source : Text) : Attribute → Prop
  | .plain attr => ∀ value ∈ attr.value, value <:+: source
  | .directive d => ∀ bound ∈ d.expression, bound.span.Covers source bound.content

namespace Reader

variable {source : Text} {reached : Nat} {r : Reader}

theorem Valid.readAttribute (h : r.Valid source reached) (literal : Bool) :
    (r.readAttribute literal).2.Valid source reached ∧
      (r.readAttribute literal).1.ReadFrom source := by
  have value : (if r.advance.kind = .equals then r.advance.advance.readValue r.currentText
        else (none, r.advance)).2.Valid source reached ∧
      ∀ value ∈ (if r.advance.kind = .equals then r.advance.advance.readValue r.currentText
        else (none, r.advance)).1, value.2.Covers source value.1 := by
    split
    · exact h.advance.advance.readValue _
    · exact ⟨h.advance, by simp⟩
  unfold Reader.readAttribute
  dsimp only
  split
  · refine ⟨value.1, ?_⟩
    intro bound member
    obtain ⟨read, found, rfl⟩ := Option.map_eq_some_iff.1 member
    exact value.2 read found
  · refine ⟨value.1, ?_⟩
    intro content member
    obtain ⟨read, found, rfl⟩ := Option.map_eq_some_iff.1 member
    exact (value.2 read found).isInfix

theorem Valid.readAttributes (h : r.Valid source reached) (literal : Bool) :
    (r.readAttributes literal).2.Valid source reached ∧
      ∀ attr ∈ (r.readAttributes literal).1, attr.ReadFrom source := by
  fun_induction Reader.readAttributes r literal
  case case1 r next ends => exact ⟨h.skipNewlines, by simp⟩
  case case2 r next ends named first rest ih =>
    obtain ⟨valid, here⟩ := h.skipNewlines.readAttribute literal
    obtain ⟨validRest, later⟩ := ih valid
    exact ⟨validRest, forall_mem_cons.2 ⟨here, later⟩⟩
  case case3 r next ends named slash ih => exact ih h.skipNewlines.advance
  case case4 r next ends named slash ih => exact ih (h.skipNewlines.report _).advance

theorem readFrom_toLiteral {attr : Attribute} (h : attr.ReadFrom source) (text : Text) :
    (attr.toLiteral text).ReadFrom source := by
  cases attr with
  | plain attr => exact h
  | directive d =>
    rw [Attribute.toLiteral]
    split
    · exact h
    · intro value member
      obtain ⟨bound, found, rfl⟩ := Option.map_eq_some_iff.1 member
      exact (h bound found).isInfix

theorem Valid.readOpenTag (h : r.Valid source reached) (literal : Bool) :
    (r.readOpenTag literal).2.Valid source reached ∧
      ∀ attr ∈ (r.readOpenTag literal).1.attributes, attr.ReadFrom source := by
  obtain ⟨valid, all⟩ := h.advance.advance.readAttributes literal
  refine ⟨valid, ?_⟩
  unfold Reader.readOpenTag
  dsimp only
  split
  · intro attr member
    obtain ⟨directive, found, rfl⟩ := mem_map.1 member
    exact readFrom_toLiteral (all directive found) _
  · exact all

end Reader

/-- What the nodes below a node hold was read from a source: texts are what stands at their span,
with character references decoded or as it is, interpolations what stands between their braces
without the blanks around it, comments what stands between their marks. -/
inductive Node.ReadFrom (source : Text) : Node → Prop
  | text {span : Span} {written data : Text} (covers : span.Covers source written)
      (read : data = written ∨ data = Entity.decode written) : ReadFrom source (.text span data)
  | interpolation {span : Span} {body : Text}
      (covers : span.Covers source (['{', '{'] ++ body ++ ['}', '}'])) :
      ReadFrom source (.interpolation span body.trim)
  | comment {span : Span} {data : Text}
      (covers : span.Covers source (['<', '!', '-', '-'] ++ data ++ ['-', '-', '>'])) :
      ReadFrom source (.comment span data)
  | element {tag : Tag} {children : List Node}
      (attributes : ∀ attr ∈ tag.attributes, attr.ReadFrom source)
      (below : ∀ child ∈ children, ReadFrom source child) : ReadFrom source (.element tag children)

def Node.Sound (source : Text) (node : Node) : Prop := node.ReadFrom source ∧ Located source [node]

theorem Node.Sound.leaf {source : Text} {node : Node} (h : node.ReadFrom source)
    (leaf : node.tags = []) : node.Sound source := ⟨h, located_leaf leaf⟩

namespace Reader

variable {source : Text} {reached : Nat} {r : Reader}

theorem plainText_isPrefix (literal : Bool) (t : Text) : plainText literal t <+: t := by
  induction t with
  | nil => exact prefix_refl _
  | cons c t ih =>
    rw [plainText]
    split
    · exact nil_prefix
    · exact (prefix_cons_inj c).2 ih

section

variable (h : r.Valid source reached)

include h

theorem Valid.isBoundary_readText (literal : Bool) :
    source.IsBoundary (r.readText literal).1.span.stop := by
  obtain ⟨before, whole, place⟩ := h.exists_ahead
  obtain ⟨rest, split⟩ := plainText_isPrefix literal ((r.ahead r.offset).drop 1)
  refine ⟨before ++ ((r.ahead r.offset).take 1 ++
    plainText literal ((r.ahead r.offset).drop 1)), rest, ?_, ?_⟩
  · rw [append_assoc, append_assoc, split, take_append_drop]
    exact whole
  · rw [width_append before, place]
    rfl

theorem Valid.consumed : source.IsBoundary r.consumed :=
  max_rec' source.IsBoundary h.sound.tokenEnd h.textEnd

theorem Valid.readText (literal : Bool) :
    (r.readText literal).2.Valid source reached ∧ (r.readText literal).1.Sound source := by
  have stop := h.isBoundary_readText literal
  have sought := h.advance.seek (r.readText literal).1.span.stop
  have ordered : min r.consumed r.offset ≤ (r.readText literal).1.span.stop :=
    le_trans (min_le_right _ _) (le_add_right _ _)
  have start := min_rec' source.IsBoundary h.consumed h.offset
  obtain ⟨written, covers⟩ := fits_of_le start stop ordered
  refine ⟨⟨⟨sought.sound.same, sought.sound.tokenEnd, sought.sound.laid⟩, sought.further,
    sought.spelled, stop, sought.faults⟩, .leaf (.text covers (.inr ?_)) rfl⟩
  have slice := covers.slice
  rw [← h.sound.same] at slice
  exact congrArg Entity.decode slice

theorem Valid.gap? : ∀ node ∈ r.gap?, node.Sound source := by
  unfold Reader.gap?
  split
  · next before =>
    rintro _ ⟨⟩
    obtain ⟨written, covers⟩ := fits_of_le h.consumed h.offset (le_of_lt before)
    have slice := covers.slice
    rw [← h.sound.same] at slice
    exact .leaf (.text covers (.inl slice)) rfl
  · simp

theorem Valid.covers_enclosed {opening closing body tail : Text}
    (opens : spelling? r.kind = some opening)
    (found : cut? closing (r.ahead (r.offset + opening.width)) = some (body, tail)) :
    Span.Covers source ⟨r.offset, r.offset + opening.width + body.width + closing.width⟩
      (opening ++ body ++ closing) := by
  obtain ⟨before, whole, place⟩ := h.exists_ahead_of_spelling opens
  rw [eq_append_of_cut? found] at whole
  refine ⟨before, tail, ?_, ?_⟩
  · rw [whole]
    simp
  · simp only [width_append, place, Nat.add_assoc]

theorem Valid.readInterpolation (opens : r.kind = .interpolationOpen) :
    r.readInterpolation.2.Valid source reached ∧ r.readInterpolation.1.Sound source := by
  unfold Reader.readInterpolation
  dsimp only
  split
  · next body tail found =>
    have braces : spelling? r.kind = some ['{', '{'] := by rw [opens]; rfl
    exact ⟨h.advance.seek _, .leaf (.interpolation (h.covers_enclosed braces found)) rfl⟩
  · refine ⟨(h.report _).advance.seek _, ?_⟩
    obtain ⟨before, whole, place⟩ := h.exists_ahead
    refine .leaf (.text ⟨before, [], by rw [append_nil]; exact whole, ?_⟩ (.inl rfl)) rfl
    rw [← whole, place, h.sound.same]

theorem Valid.readComment (opens : r.kind = .commentOpen) :
    r.readComment.2.Valid source reached ∧ ∀ node ∈ r.readComment.1, node.Sound source := by
  unfold Reader.readComment
  dsimp only
  split
  · next body tail found =>
    have mark : spelling? r.kind = some ['<', '!', '-', '-'] := by rw [opens]; rfl
    refine ⟨h.advance.seek _, ?_⟩
    rintro _ ⟨⟩
    exact .leaf (.comment (h.covers_enclosed mark found)) rfl
  · exact ⟨(h.report _).advance.seek _, by simp⟩

end

end Reader

end Markup

end SfcJsx
