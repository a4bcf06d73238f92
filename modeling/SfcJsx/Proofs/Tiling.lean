import SfcJsx.Proofs.ReaderProgress

/-!
How the nodes of a template lie in its source. The children of an element stand side by side from
the end of its opening tag to the start of its closing tag, so that every byte between the tags
belongs to exactly one child; in the opening tag, only separators stand around the attributes.
-/

namespace SfcJsx.Markup

open List
open Reader (isSpacing)

/-- Nodes side by side from one offset to another, none of them empty. -/
def Tiles : Nat → Nat → List Node → Prop
  | start, stop, [] => start = stop
  | start, stop, node :: rest =>
    node.span.start = start ∧ start < node.span.stop ∧ Tiles node.span.stop stop rest

variable {offset : Nat}

namespace Tiles

variable {start middle stop : Nat} {nodes more : List Node}

theorem append (h : Tiles start middle nodes) (later : Tiles middle stop more) :
    Tiles start stop (nodes ++ more) := by
  induction nodes generalizing start with
  | nil =>
    obtain rfl : start = middle := h
    exact later
  | cons node nodes ih => exact ⟨h.1, h.2.1, ih h.2.2⟩

section

variable (h : Tiles start stop nodes)

include h

theorem le : start ≤ stop := by
  induction nodes generalizing start with
  | nil => exact Nat.le_of_eq h
  | cons node nodes ih =>
    obtain ⟨-, positive, rest⟩ := h
    exact Nat.le_trans (Nat.le_of_lt positive) (ih rest)

theorem bounds_of_mem {node : Node} (member : node ∈ nodes) :
    start ≤ node.span.start ∧ node.span.stop ≤ stop := by
  induction nodes generalizing start with
  | nil => simp at member
  | cons first nodes ih =>
    obtain ⟨place, positive, rest⟩ := h
    rcases mem_cons.1 member with rfl | later
    · exact ⟨Nat.le_of_eq place.symm, rest.le⟩
    · have := ih rest later
      omega

theorem countP_eq_zero (early : offset < start) : nodes.countP (·.span.contains offset) = 0 := by
  rw [List.countP_eq_zero]
  intro node member
  have := (h.bounds_of_mem member).1
  simp [Span.contains]
  omega

theorem countP_eq_one (first : start ≤ offset) (last : offset < stop) :
    nodes.countP (·.span.contains offset) = 1 := by
  induction nodes generalizing start with
  | nil =>
    obtain rfl : start = stop := h
    omega
  | cons node nodes ih =>
    obtain ⟨rfl, positive, rest⟩ := h
    by_cases inside : offset < node.span.stop
    · rw [countP_cons_of_pos (by simp [Span.contains, first, inside]), rest.countP_eq_zero inside]
    · rw [countP_cons_of_neg (by simp [Span.contains, inside])]
      exact ih rest (Nat.le_of_not_lt inside)

end

end Tiles

def isSeparator (c : Char) : Bool := isSpacing c || c == '/'

/-- Spans of parts of a text that begins at an offset; only separators stand around the parts. -/
inductive Spread : Nat → Text → List Span → Prop
  | nil {start : Nat} {gap : Text} (separates : gap.all isSeparator) : Spread start gap []
  | cons {start : Nat} {gap part rest : Text} {spans : List Span}
      (separates : gap.all isSeparator) (ne : part ≠ [])
      (later : Spread (start + (gap ++ part).width) rest spans) :
      Spread start (gap ++ part ++ rest)
        (⟨start + gap.width, start + (gap ++ part).width⟩ :: spans)

namespace Spread

variable {start : Nat} {gap t : Text} {spans : List Span}

theorem append_left (separates : gap.all isSeparator)
    (h : Spread (start + gap.width) t spans) : Spread start (gap ++ t) spans := by
  cases h with
  | nil more => exact .nil (by rw [all_append, separates, more]; rfl)
  | @cons _ more part rest spans separatesMore ne later =>
    have whole : (gap ++ more).all isSeparator := by
      rw [all_append, separates, separatesMore]
      rfl
    have first : start + gap.width + more.width = start + (gap ++ more).width := by
      rw [Text.width_append, Nat.add_assoc]
    have last : start + gap.width + (more ++ part).width =
        start + (gap ++ more ++ part).width := by
      rw [append_assoc, Text.width_append gap, Nat.add_assoc]
    rw [last] at later
    rw [first, last, ← append_assoc, ← append_assoc]
    exact .cons whole ne later

theorem append_right (h : Spread start t spans) (separates : gap.all isSeparator) :
    Spread start (t ++ gap) spans := by
  induction h with
  | nil earlier => exact .nil (by rw [all_append, separates, earlier]; rfl)
  | cons earlier ne later ih =>
    rw [append_assoc]
    exact .cons earlier ne ih

end Spread

/-- A source cut at the two tags of an element. -/
structure Layout where
  before : Text
  opening : Text
  content : Text
  closing : Text
  after : Text

namespace Layout

def source (l : Layout) : Text := l.before ++ l.opening ++ l.content ++ l.closing ++ l.after

def span (l : Layout) : Span :=
  ⟨l.before.width, (l.before ++ l.opening ++ l.content ++ l.closing).width⟩

def inner (l : Layout) : Span :=
  ⟨(l.before ++ l.opening).width, (l.before ++ l.opening ++ l.content).width⟩

end Layout

def IsOpeningTag (start : Nat) (name : Text) (attributes : List Span) (t : Text) : Prop :=
  ∃ gap inside, t = '<' :: gap ++ name ++ inside ++ ['>'] ∧ gap.all Token.isSkipped ∧
    Spread (start + Text.width ('<' :: gap ++ name)) inside attributes

def IsClosingTag (name t : Text) : Prop :=
  ∃ gap tail, t = ['<', '/'] ++ gap ++ name ++ tail ++ ['>'] ∧
    gap.all Token.isSkipped ∧ tail.all isSpacing

/-- The tags of an element, and its children between them. -/
structure Layout.Encloses (l : Layout) (name : Text) (attributes : List Span)
    (children : List Node) : Prop where
  opens : IsOpeningTag l.before.width name attributes l.opening
  closes : IsClosingTag name l.closing
  tiles : Tiles l.inner.start l.inner.stop children
  inside : ∀ child ∈ children,
    l.span.start < child.span.start ∧ child.span.stop < l.span.stop
  once : ∀ offset, l.inner.contains offset →
    children.countP (·.span.contains offset) = 1

theorem Layout.encloses_of_tiles {l : Layout} {name : Text} {attributes : List Span}
    {children : List Node} (opens : IsOpeningTag l.before.width name attributes l.opening)
    (closes : IsClosingTag name l.closing)
    (tiles : Tiles l.inner.start l.inner.stop children) : l.Encloses name attributes children where
  opens := opens
  closes := closes
  tiles := tiles
  inside := by
    intro child member
    obtain ⟨first, last⟩ := tiles.bounds_of_mem member
    obtain ⟨gap, inside, opening, -⟩ := opens
    obtain ⟨gap', tail, closing, -⟩ := closes
    have bracket : '<'.utf8Size = 1 := rfl
    simp only [inner, span, opening, closing, Text.width_append, Text.width_cons, bracket,
      cons_append] at first last ⊢
    omega
  once := by
    intro offset contained
    simp only [Span.contains, Bool.and_eq_true, decide_eq_true_eq] at contained
    exact tiles.countP_eq_one contained.1 contained.2

/-- Below a node, the children of every element that can have some lie between its tags. -/
inductive Node.Tiled (source : Text) : Node → Prop
  | text (span : Span) (data : Text) : Tiled source (.text span data)
  | interpolation (span : Span) (expression : Text) : Tiled source (.interpolation span expression)
  | comment (span : Span) (data : Text) : Tiled source (.comment span data)
  | childless {tag : Tag} (closed : tag.selfClosing ∨ isVoid tag.name) :
      Tiled source (.element tag [])
  | element {tag : Tag} {children : List Node} (l : Layout) (whole : l.source = source)
      (place : tag.span = l.span)
      (encloses : l.Encloses tag.name (tag.attributes.map (·.span)) children)
      (below : ∀ child ∈ children, Tiled source child) : Tiled source (.element tag children)

/-- The children of a template lie between its tags, unless it is closed at once. -/
def Template.Tiled (source : Text) (template : Template) : Prop :=
  (∃ before inside after, source = before ++ ('<' :: inside ++ ['/', '>']) ++ after ∧
    template.span = ⟨before.width, (before ++ ('<' :: inside ++ ['/', '>'])).width⟩ ∧
      template.children = []) ∨
  ∃ (l : Layout) (attributes : List Span), l.source = source ∧ template.span = l.span ∧
    l.Encloses "template" attributes template.children ∧
      ∀ child ∈ template.children, child.Tiled source

end SfcJsx.Markup
