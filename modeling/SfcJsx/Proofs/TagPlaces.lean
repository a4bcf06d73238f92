import SfcJsx.Proofs.SiblingGroups
import SfcJsx.Proofs.TreeTiling

/-!
Where tags stand, whatever faults a source has. A reader only goes on over tokens of the source, so
where it starts to read a tag or an attribute and where it has come to are places between
characters, and the second lies behind the first. Elements whose closing tag is missing are no
exception.
-/

namespace SfcJsx

open List Nat Text

/-- An offset between two characters of a source, or at one of its ends. -/
def Text.IsBoundary (source : Text) (offset : Nat) : Prop :=
  ∃ before rest, source = before ++ rest ∧ offset = before.width

def Span.IsPart (source : Text) (span : Span) : Prop :=
  ∃ before part after, source = before ++ (part ++ after) ∧ part ≠ [] ∧
    span = ⟨before.width, (before ++ part).width⟩

theorem Span.isPart_of_lt {source : Text} {start stop : Nat} (first : source.IsBoundary start)
    (last : source.IsBoundary stop) (lt : start < stop) : Span.IsPart source ⟨start, stop⟩ := by
  obtain ⟨before, rest, rfl, rfl⟩ := first
  obtain ⟨front, behind, whole, rfl⟩ := last
  rcases append_eq_append_iff.1 whole with ⟨part, rfl, rfl⟩ | ⟨extra, rfl, -⟩
  · refine ⟨before, part, behind, rfl, ?_, rfl⟩
    rintro rfl
    simp at lt
  · rw [width_append] at lt
    omega

variable {offset : Nat}

namespace Markup

open Token (scanFrom)

/-- Tokens that stand in a source one behind the other, from an offset on. Only the end of the file
is an empty token. -/
def Token.Laid (source : Text) : Nat → List Token → Prop
  | _, [] => True
  | offset, token :: tokens =>
    offset ≤ token.span.start ∧ source.IsBoundary token.span.start ∧
      token.span.start ≤ token.span.stop ∧ source.IsBoundary token.span.stop ∧
      (token.kind ≠ .endOfFile → token.span.start < token.span.stop) ∧
      Laid source token.span.stop tokens

theorem Token.laid_scanFrom {source before t : Text} (whole : source = before ++ t)
    (reached : offset ≤ before.width) : Laid source offset (scanFrom before.width t) := by
  induction before, t using reading_induction generalizing offset with
  | nil before =>
    have boundary : source.IsBoundary before.width := ⟨before, [], whole, rfl⟩
    rw [scanFrom]
    exact ⟨reached, boundary, le_refl _, boundary, fun other => absurd rfl other, trivial⟩
  | skip before c rest skipped ih =>
    rw [scanFrom_skip skipped]
    exact ih (by simp [whole]) (le_trans reached (by simp))
  | token before c t rest kind kept read ih =>
    have reads := reads_of_lead kept read
    have split : source = (before ++ c :: t) ++ rest := by rw [whole, append_assoc]
    have later : before.width < (before ++ c :: t).width := by
      rw [width_append]
      exact Nat.lt_add_of_pos_right reads.width_pos
    rw [reads.scanFrom]
    exact ⟨reached, ⟨before, _, whole, rfl⟩, le_of_lt later, ⟨_, _, split, rfl⟩, fun _ => later,
      ih split (le_refl _)⟩

namespace Reader

variable {source : Text} {r next : Reader}

/-- A reader that has come to a place of its source, with tokens of the source ahead. -/
structure Sound (source : Text) (r : Reader) : Prop where
  same : r.source = source
  tokenEnd : source.IsBoundary r.tokenEnd
  laid : Token.Laid source r.tokenEnd r.tokens

theorem sound_ofSource (source : Text) : (ofSource source).Sound source := by
  have whole : source = [] ++ source := rfl
  exact ⟨rfl, ⟨[], source, rfl, rfl⟩, Token.laid_scanFrom whole (le_refl _)⟩

theorem sound_lastEnd {passed tokens : List Token} (reached : source.IsBoundary offset)
    (laid : Token.Laid source offset (passed ++ tokens)) :
    offset ≤ lastEnd offset passed ∧ source.IsBoundary (lastEnd offset passed) ∧
      Token.Laid source (lastEnd offset passed) tokens := by
  induction passed generalizing offset with
  | nil => exact ⟨le_refl _, reached, laid⟩
  | cons token passed ih =>
    obtain ⟨first, -, forward, boundary, -, later⟩ := laid
    obtain ⟨further, place, rest⟩ := ih boundary later
    exact ⟨le_trans first (le_trans forward further), place, rest⟩

theorem Sound.goesOn (h : r.Sound source) (goesOn : r.GoesOn next) :
    next.Sound source ∧ r.tokenEnd ≤ next.tokenEnd := by
  obtain ⟨passed, split, ends⟩ := goesOn.tokens
  have laid := h.laid
  rw [split] at laid
  obtain ⟨further, place, rest⟩ := sound_lastEnd h.tokenEnd laid
  rw [← ends] at further place rest
  exact ⟨⟨goesOn.source.trans h.same, place, rest⟩, further⟩

theorem Sound.passes (h : r.Sound source) (passes : r.Passes next) :
    next.Sound source ∧ r.tokenEnd ≤ next.tokenEnd := h.goesOn passes.goesOn

theorem GoesOn.sound (h : (ofSource source).GoesOn r) : r.Sound source :=
  ((sound_ofSource source).goesOn h).1

theorem Sound.current (h : r.Sound source) (more : r.kind ≠ .endOfFile) :
    source.IsBoundary r.offset ∧ r.tokenEnd ≤ r.offset ∧ r.offset < r.advance.tokenEnd ∧
      r.offset + r.currentText.width = r.advance.tokenEnd := by
  obtain ⟨token, tokens, ahead⟩ := exists_cons_of_ne_nil (tokens_ne_nil_of_kind more)
  have current : r.current = token := by simp [Reader.current, ahead]
  have laid := h.laid
  rw [ahead] at laid
  obtain ⟨first, start, -, stop, positive, -⟩ := laid
  rw [kind, current] at more
  have lt := positive more
  obtain ⟨before, part, after, whole, -, span⟩ := Span.isPart_of_lt start stop lt
  obtain ⟨begins, ends⟩ := Span.mk.inj span
  rw [width_append] at ends
  have advanced : r.advance.tokenEnd = token.span.stop := by simp [advance, ahead]
  have text : r.currentText = part := by
    rw [currentText, current, Span.slice, h.same, whole, begins, ends, ← append_assoc,
      slice, slice?_append]
    rfl
  refine ⟨by rwa [offset, current], by rwa [offset, current], ?_, ?_⟩
  · rw [advanced, offset, current]
    exact lt
  · rw [advanced, text, offset, current, begins, ends]

theorem Sound.lt_of_passes (h : r.Sound source) (more : r.kind ≠ .endOfFile)
    (passes : r.advance.Passes next) : next.Sound source ∧ r.offset < next.tokenEnd := by
  obtain ⟨advanced, -⟩ := h.passes (passes_advance r)
  obtain ⟨sound, further⟩ := advanced.passes passes
  exact ⟨sound, lt_of_lt_of_le (h.current more).2.2.1 further⟩

theorem Sound.span_readAttribute (h : r.Sound source) (named : r.kind = .name) (literal : Bool) :
    (r.readAttribute literal).1.span.IsPart source := by
  have more : r.kind ≠ .endOfFile := by simp [named]
  obtain ⟨start, -, -, width⟩ := h.current more
  have passes := passes_readAttribute r literal
  obtain ⟨advanced, -⟩ := h.passes (passes_advance r)
  obtain ⟨-, further⟩ := advanced.passes passes
  obtain ⟨sound, lt⟩ := h.lt_of_passes more passes
  rw [Reader.span_readAttribute, width, max_eq_left further]
  exact Span.isPart_of_lt start sound.tokenEnd lt

theorem Sound.spans_readAttributes (h : r.Sound source) (literal : Bool) :
    ∀ span ∈ (r.readAttributes literal).1.map (·.span), span.IsPart source := by
  fun_induction readAttributes r literal
  case case1 => simp
  case case2 r next ends named first last ih =>
    obtain ⟨sound, -⟩ := h.passes (passes_skipNewlines r)
    have read := (passes_advance next).trans (passes_readAttribute next literal)
    rw [map_cons, forall_mem_cons]
    exact ⟨sound.span_readAttribute named literal, ih (sound.passes read).1⟩
  case case3 r next ends named slash ih =>
    obtain ⟨sound, -⟩ := h.passes (passes_skipNewlines r)
    exact ih (sound.passes (passes_advance next)).1
  case case4 r next ends named slash ih =>
    obtain ⟨sound, -⟩ := h.passes (passes_skipNewlines r)
    exact ih (sound.passes ((passes_report next _).trans (passes_advance _))).1

theorem Sound.spans_readOpenTag (h : r.Sound source) (literal : Bool) :
    ∀ attr ∈ (r.readOpenTag literal).1.attributes, attr.span.IsPart source := by
  intro attr member
  obtain ⟨sound, -⟩ := h.passes ((passes_advance r).trans (passes_advance _))
  refine sound.spans_readAttributes literal attr.span ?_
  rw [← Walk.spans_readOpenTag]
  exact mem_map_of_mem member

end Reader

def Located (source : Text) (nodes : List Node) : Prop :=
  ∀ tag ∈ Node.tagsOfList nodes, tag.AllSpans (Span.IsPart source)

section Located

variable {source : Text} {nodes : List Node}

theorem located_iff : Located source nodes ↔ ∀ node ∈ nodes, Located source [node] := by
  simp only [Located, Node.tagsOfList_eq_flatMap, forall_mem_flatMap, forall_mem_singleton]

theorem located_leaf {node : Node} (leaf : node.tags = []) : Located source [node] := by
  intro tag member
  simp [Node.tagsOfList, leaf] at member

theorem located_element {tag : Tag} (spans : tag.AllSpans (Span.IsPart source))
    (below : ∀ node ∈ nodes, Located source [node]) : Located source [.element tag nodes] := by
  intro other member
  rw [Node.tagsOfList, Node.tagsOfList, append_nil] at member
  rcases mem_cons.1 member with rfl | member
  · exact spans
  · exact located_iff.2 below other member

end Located

namespace Component

theorem source_readNext (component : Component) (r : Reader) :
    (component.readNext r).1.source = component.source := by
  refine readNext_cases (P := fun last => last.1.source = _) (fun _ _ => ?_) (fun _ _ => ?_)
    (fun _ _ => rfl) rfl (fun _ => rfl) fun _ => rfl
  · unfold addTemplate
    dsimp only
    split <;> rfl
  · unfold addScript
    split
    · rfl
    · split <;> rfl

theorem source_readAll (component : Component) (r : Reader) :
    (component.readAll r).1.source = component.source := by
  fun_induction readAll component r with
  | case1 component r => rfl
  | case2 component r atEnd next ih => exact ih.trans (source_readNext component r)

end Component

end Markup

end SfcJsx
