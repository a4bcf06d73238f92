import SfcJsx.Proofs.NodePlaces

/-!
A source that is read without a fault is tiled by its template. While a template is read, the
children of every open element reach from its opening tag to where the next inner element was
opened, and those of the innermost one to where the reader has come; a closing tag then ends them.
-/

namespace SfcJsx.Markup

open List Reader
open Token (isSkipped Reads spelling?)

/-- An open element: its opening tag stands behind `before`, with attributes at some spans, and its
children tile what was read since. -/
structure Frame.Filled (source : Text) (frame : Frame) (attributes : List Span)
    (before read : Text) : Prop where
  start : frame.start = before.width
  named : frame.name ≠ []
  tiled : ∃ opening content, read = before ++ opening ++ content ∧
    IsOpeningTag before.width frame.name attributes opening ∧
      Tiles (before ++ opening).width read.width frame.children
  below : ∀ child ∈ frame.children, child.Tiled source

variable {after : Text} {outer : List Frame}

namespace Frame.Filled

variable {source before read t : Text} {frame : Frame} {attributes : List Span} {node : Node}

theorem of_opening {tag : OpenTag} (start : tag.start = before.width) (named : tag.name ≠ [])
    (opens : IsOpeningTag before.width tag.name attributes t) :
    Filled source ⟨tag, []⟩ attributes before (before ++ t) where
  start := start
  named := named
  tiled := ⟨t, [], by simp, opens, rfl⟩
  below := by simp

section

variable (h : frame.Filled source attributes before read)

include h

theorem add (ne : t ≠ []) (place : node.span = ⟨read.width, (read ++ t).width⟩)
    (tiled : node.Tiled source) : (frame.add node).Filled source attributes before (read ++ t) where
  start := h.start
  named := h.named
  tiled := by
    obtain ⟨opening, content, whole, opens, tiles⟩ := h.tiled
    refine ⟨opening, content ++ t, by rw [whole]; simp, opens, tiles.append ?_⟩
    refine ⟨by rw [place], ?_, by rw [place]; rfl⟩
    rw [place, Text.width_append]
    exact Nat.lt_add_of_pos_right (Text.width_pos ne)
  below := by
    intro child member
    rcases mem_append.1 member with earlier | last
    · exact h.below child earlier
    · obtain rfl := mem_singleton.1 last
      exact tiled

theorem exists_eq_append : ∃ t, t ≠ [] ∧ read = before ++ t := by
  obtain ⟨opening, content, rfl, ⟨gap, inside, rfl, -⟩, -⟩ := h.tiled
  exact ⟨_, by simp, append_assoc _ _ _⟩

theorem exists_layout {closing : Text}
    (whole : source = read ++ (closing ++ after)) (closes : IsClosingTag frame.name closing) :
    ∃ l : Layout, l.source = source ∧ l.span = ⟨frame.start, (read ++ closing).width⟩ ∧
      l.Encloses frame.name attributes frame.children := by
  obtain ⟨opening, content, rfl, opens, tiles⟩ := h.tiled
  refine ⟨⟨before, opening, content, closing, after⟩, ?_, ?_, ?_⟩
  · simp [Layout.source, whole]
  · simp [Layout.span, h.start]
  · exact Layout.encloses_of_tiles opens closes tiles

end

end Frame.Filled

/-- The open elements of a template, innermost first: what was read before one was opened is what
the next outer one is filled with. -/
inductive Stacked (source : Text) (root : OpenTag) : Text → List Frame → Prop
  | root {frame : Frame} {attributes : List Span} {before read : Text}
      (filled : frame.Filled source attributes before read) (same : frame.toOpenTag = root) :
      Stacked source root read [frame]
  | inner {frame : Frame} {before read : Text} {outer : List Frame}
      (filled : frame.Filled source (frame.attributes.map (·.span)) before read)
      (rest : Stacked source root before outer) : Stacked source root read (frame :: outer)

theorem Stacked.named {source read : Text} {root : OpenTag} {frame : Frame}
    (h : Stacked source root read (frame :: outer)) : frame.name ≠ [] := by
  cases h with
  | root filled _ => exact filled.named
  | inner filled _ => exact filled.named

theorem Stacked.add {source read t : Text} {root : OpenTag} {frame : Frame} {node : Node}
    (h : Stacked source root read (frame :: outer)) (ne : t ≠ [])
    (place : node.span = ⟨read.width, (read ++ t).width⟩) (tiled : node.Tiled source) :
    Stacked source root (read ++ t) (frame.add node :: outer) := by
  cases h with
  | root filled same => exact .root (filled.add ne place tiled) same
  | inner filled rest => exact .inner (filled.add ne place tiled) rest

theorem Attribute.span_toLiteral (source : Text) (attr : Attribute) :
    (attr.toLiteral source).span = attr.span := by
  cases attr with
  | plain attr => rfl
  | directive d =>
    rw [Attribute.toLiteral]
    split <;> rfl

namespace Walk

variable {w next : Walk} {root : OpenTag} {read rest source : Text}

/-- A walk whose open elements are filled up to where its reader stands. -/
structure Stands (w : Walk) (root : OpenTag) (read rest : Text) : Prop where
  place : w.reader.At read rest
  frames : Stacked (read ++ rest) root read (w.top :: w.outer)

def Ready (w : Walk) (source : Text) (root : OpenTag) : Prop :=
  ∃ read rest, source = read ++ rest ∧ w.Stands root read rest ∧ w.reader.Reached read

theorem Stands.ready_add {reader : Reader} {node : Node} (h : w.Stands root read rest)
    (takes : reader.Takes node read rest) (tiled : node.Tiled (read ++ rest)) :
    Ready ⟨reader, w.top.add node, w.outer⟩ (read ++ rest) root := by
  obtain ⟨t, after, rfl, ne, place, stands, reached⟩ := takes
  have whole : read ++ (t ++ after) = (read ++ t) ++ after := (append_assoc _ _ _).symm
  refine ⟨read ++ t, after, whole, ⟨stands, ?_⟩, reached⟩
  rw [← whole]
  exact h.frames.add ne place tiled

@[simp] theorem toOpenTag_addGap (w : Walk) : w.addGap.top.toOpenTag = w.top.toOpenTag := by
  unfold addGap
  split <;> rfl

theorem addGap_of_not_atMarkup (plain : w.reader.atMarkup w.top.literal = false) :
    w.addGap = w := by
  simp [addGap, plain]

theorem Stands.addGap {kind : TokenKind} {s : Text} (h : w.Stands root read rest)
    (reached : w.reader.Reached read) (markup : w.reader.atMarkup w.top.literal)
    (found : w.reader.kind = kind) (spelling : spelling? kind = some s) :
    ∃ gap after, rest = gap ++ (s ++ after) ∧ Reads kind s after ∧
      w.addGap.Stands root (read ++ gap) (s ++ after) := by
  obtain ⟨gap, after, rfl, -, reads, stands⟩ := h.place.spelled found spelling
  refine ⟨gap, after, rfl, reads, ⟨by simpa using stands, ?_⟩⟩
  have consumed : w.reader.consumed = read.width := reached
  have offset : w.reader.offset = read.width + gap.width := by
    rw [stands.offset reads, Text.width_append]
  have whole : read ++ gap ++ (s ++ after) = read ++ (gap ++ (s ++ after)) := by simp
  rw [whole, Walk.addGap, if_pos markup, gap?, consumed, offset]
  by_cases empty : gap = []
  · subst empty
    simpa [Frame.addAll] using h.frames
  · rw [if_pos (Nat.lt_add_of_pos_right (Text.width_pos empty))]
    refine h.frames.add empty ?_ (.text _ _)
    rw [Text.width_append]
    rfl

theorem Stands.addInterpolation (h : w.Stands root read (['{', '{'] ++ after))
    (clean : w.addInterpolation.reader.faults = []) :
    w.addInterpolation.Ready (read ++ (['{', '{'] ++ after)) root := by
  obtain ⟨span, expression, node, takes⟩ := h.place.readInterpolation clean
  rw [Walk.addInterpolation]
  simp only [node]
  exact h.ready_add takes (.interpolation span expression)

theorem Stands.addComment (h : w.Stands root read (['<', '!', '-', '-'] ++ after))
    (clean : w.addComment.reader.faults = []) :
    w.addComment.Ready (read ++ (['<', '!', '-', '-'] ++ after)) root := by
  obtain ⟨span, data, node, takes⟩ := h.place.readComment clean
  rw [Walk.addComment]
  simp only [node]
  exact h.ready_add takes (.comment span data)

theorem spans_readOpenTag (r : Reader) (literal : Bool) :
    (r.readOpenTag literal).1.attributes.map (·.span) =
      (r.advance.advance.readAttributes literal).1.map (·.span) := by
  unfold readOpenTag
  dsimp only
  split
  · simp [Attribute.span_toLiteral]
  · rfl

theorem Stands.enter (h : w.Stands root read (['<'] ++ after)) (reads : Reads .tagOpen ['<'] after)
    (clean : w.enter.reader.faults = []) : w.enter.Ready (read ++ (['<'] ++ after)) root := by
  have start : (w.reader.readOpenTag w.top.literal).1.start = read.width := h.place.offset reads
  unfold Walk.enter at clean ⊢
  split at clean
  · next other => exact absurd (expect_of_clean clean).1 other
  next named =>
  rw [if_neg named]
  have named : w.reader.advance.kind = .name := by simpa using named
  dsimp only at clean ⊢
  by_cases selfClosed : (w.reader.readOpenTag w.top.literal).2.kind = .selfClose
  · rw [if_pos selfClosed] at clean ⊢
    obtain ⟨-, t, left, whole, behind, gap, inside, rfl, -⟩ := h.place.exists_tag reads named
      ((passes_advance _).clean clean) selfClosed rfl
    refine h.ready_add ⟨_, left, whole, by simp, ?_, behind.place, behind.reached⟩
      (.childless (.inl rfl))
    rw [← behind.tokenEnd, ← start]
    rfl
  · rw [if_neg selfClosed] at clean ⊢
    have clean : ((w.reader.readOpenTag w.top.literal).2.expect .tagClose).faults = [] := by
      split at clean <;> exact clean
    obtain ⟨found, ends⟩ := expect_of_clean clean
    rw [ends] at clean ⊢
    obtain ⟨ne, t, left, whole, behind, gap, inside, tag, blank, spread⟩ :=
      h.place.exists_tag reads named ((passes_advance _).clean clean) found rfl
    rw [← spans_readOpenTag] at spread
    split
    · next void =>
      refine h.ready_add ⟨_, left, whole, by simp [tag], ?_, behind.place, behind.reached⟩
        (.childless (.inr void))
      rw [← behind.tokenEnd, ← start]
      rfl
    · have source : read ++ (['<'] ++ after) = (read ++ t) ++ left := by
        rw [whole, append_assoc]
      refine ⟨read ++ t, left, source, ⟨behind.place, ?_⟩, behind.reached⟩
      rw [← source]
      exact .inner (.of_opening start ne ⟨gap, inside, tag, blank, spread⟩) h.frames

/-- A step leads to a walk that stands, or closes the outermost element. -/
def Step.Sound (source : Text) (root : OpenTag) : Step → Prop
  | .going next => next.Ready source root
  | .done children reader => ∃ (l : Layout) (attributes : List Span), l.source = source ∧
      l.span = ⟨root.start, reader.tokenEnd⟩ ∧ l.Encloses root.name attributes children ∧
        ∀ child ∈ children, child.Tiled source

theorem Stands.close (h : w.Stands root read (['<', '/'] ++ after))
    (same : w.reader.nextName = w.top.name) (clean : w.close.reader.faults = []) :
    w.close.Sound (read ++ (['<', '/'] ++ after)) root := by
  rw [reader_close] at clean
  obtain ⟨closing, left, whole, closes, behind⟩ := h.place.passClosingTag h.frames.named same clean
  have frames := h.frames
  obtain ⟨reader, top, outer⟩ := w
  rw [whole] at frames ⊢
  cases frames with
  | root filled same =>
    obtain ⟨l, source, span, encloses⟩ := filled.exists_layout rfl closes
    subst same
    exact ⟨l, _, source, by rw [span, behind.tokenEnd], encloses, filled.below⟩
  | @inner _ before _ _ filled rest =>
    cases outer with
    | nil => cases rest
    | cons parent outer =>
      obtain ⟨l, source, span, encloses⟩ := filled.exists_layout rfl closes
      obtain ⟨t, ne, rfl⟩ := filled.exists_eq_append
      -- The element covers everything from its opening tag on, now with its closing tag.
      have place : (top.element (reader.passClosingTag top.name).tokenEnd).span =
          ⟨before.width, (before ++ (t ++ closing)).width⟩ := by
        rw [← append_assoc, ← behind.tokenEnd, ← filled.start]
        rfl
      have element : (top.element (reader.passClosingTag top.name).tokenEnd).Tiled
          (before ++ t ++ (closing ++ left)) := by
        refine .element l source ?_ encloses filled.below
        rw [span, ← behind.tokenEnd]
        rfl
      have added := rest.add (by simp [ne]) place element
      rw [← append_assoc (before ++ t), ← append_assoc before] at added
      exact ⟨before ++ t ++ closing, left, (append_assoc _ _ _).symm,
        ⟨behind.place, added⟩, behind.reached⟩

theorem faults_abandon_ne (w : Walk) : w.abandon.reader.faults ≠ [] := by
  intro clean
  rw [reader_abandon] at clean
  exact faults_report_ne _ _ ((passes_passClosingTag _ _).clean clean)

theorem kind_of_atMarkup {r : Reader} {literal : Bool} (markup : r.atMarkup literal) :
    r.kind = .endOfFile ∨ r.kind = .closingOpen ∨ r.kind = .commentOpen ∨
      (r.kind = .tagOpen ∧ r.opensTag) ∨ (r.kind = .interpolationOpen ∧ literal = false) := by
  unfold atMarkup at markup
  split at markup <;> simp_all

theorem dispatch_of_not_atMarkup (plain : w.reader.atMarkup w.top.literal = false) :
    w.dispatch = .going w.addText := by
  unfold atMarkup at plain
  unfold dispatch
  split at plain <;> simp_all

theorem Ready.step (h : w.Ready source root) (clean : w.step.reader.faults = []) :
    w.step.Sound source root := by
  obtain ⟨read, rest, rfl, stands, reached⟩ := h
  unfold Walk.step at clean ⊢
  -- A text takes the blanks before it itself; in front of markup they are a node of their own.
  cases markup : w.reader.atMarkup w.top.literal with
  | false =>
    rw [addGap_of_not_atMarkup markup, dispatch_of_not_atMarkup markup]
    exact stands.ready_add (stands.place.readText reached markup) (.text _ _)
  | true =>
    have gap {kind : TokenKind} {s : Text} (found : w.reader.kind = kind)
        (spelling : spelling? kind = some s) := stands.addGap reached markup found spelling
    unfold dispatch at clean ⊢
    rw [reader_addGap] at clean ⊢
    rcases kind_of_atMarkup markup with found | found | found | ⟨found, opens⟩ | ⟨found, visible⟩
    all_goals rw [found] at clean ⊢; dsimp only at clean ⊢
    · exact absurd clean (faults_abandon_ne _)
    · obtain ⟨blanks, after, rfl, -, place⟩ := gap found rfl
      rw [← append_assoc]
      split at clean
      · next same =>
        rw [if_pos same]
        exact place.close (by rwa [reader_addGap]) clean
      · split at clean
        · exact absurd clean (faults_abandon_ne _)
        · exact absurd ((passes_skipClosingTag _).of_advance.clean clean) (faults_report_ne _ _)
    · obtain ⟨blanks, after, rfl, -, place⟩ := gap found rfl
      rw [← append_assoc]
      exact place.addComment clean
    · obtain ⟨blanks, after, rfl, reads, place⟩ := gap found rfl
      rw [← append_assoc]
      rw [if_pos opens] at clean ⊢
      exact place.enter reads clean
    · obtain ⟨blanks, after, rfl, -, place⟩ := gap found rfl
      rw [← append_assoc]
      rw [if_neg (by simp [visible])] at clean ⊢
      exact place.addInterpolation clean

theorem Ready.run (h : w.Ready source root) (clean : w.run.2.faults = []) :
    Step.Sound source root (.done w.run.1 w.run.2) := by
  fun_induction Walk.run w with
  | case1 w children reader step =>
    have sound := h.step (by rwa [step])
    rwa [step] at sound
  | case2 w next step ih =>
    have earlier : next.reader.faults = [] := (goesOn_run next).clean clean
    have sound := h.step (by rwa [step])
    rw [step] at sound
    exact ih sound clean

end Walk

namespace Reader

variable {r : Reader} {before rest : Text}

theorem checkLanguage_of_clean {block : BlockTag} {start : Nat}
    (clean : (r.checkLanguage block start).faults = []) : r.checkLanguage block start = r := by
  unfold checkLanguage at clean ⊢
  split at clean
  · split at clean
    · next html => rw [if_pos html]
    · exact absurd clean (by simp [reportAt])
  · rfl

theorem At.readTemplate (h : r.At before (['<'] ++ rest)) (reads : Reads .tagOpen ['<'] rest)
    (named : r.nextName = "template") (clean : r.readTemplate.2.faults = []) :
    r.readTemplate.1.Tiled (before ++ (['<'] ++ rest)) := by
  obtain ⟨kind, text⟩ := advance_of_nextName (by rw [named]; decide)
  rw [named] at text
  have offset := h.offset reads
  unfold Reader.readTemplate readBlockTag at clean ⊢
  by_cases selfClosed : (r.advance.advance.readAttributes true).2.kind = .selfClose
  · simp only [selfClosed, if_true] at clean ⊢
    have language := checkLanguage_of_clean clean
    rw [language] at clean ⊢
    obtain ⟨-, t, after, whole, behind, gap, inside, tag, -⟩ := h.exists_tag reads kind
      ((passes_advance _).clean clean) selfClosed rfl
    refine .inl ⟨before, gap ++ r.advance.currentText ++ inside, after, ?_, ?_, rfl⟩
    · rw [whole, tag]
      simp
    · rw [offset, behind.tokenEnd, tag]
      simp
  · simp only [selfClosed, if_false, Bool.false_eq_true] at clean ⊢
    have earlier := (Walk.goesOn_run _).clean clean
    have language := checkLanguage_of_clean earlier
    rw [language] at clean earlier ⊢
    obtain ⟨found, ends⟩ := expect_of_clean earlier
    rw [ends] at clean earlier ⊢
    obtain ⟨ne, t, after, whole, behind, tag⟩ := h.exists_tag reads kind
      ((passes_advance _).clean earlier) found rfl
    rw [text] at clean ⊢ tag ne
    have source : before ++ (['<'] ++ rest) = (before ++ t) ++ after := by
      rw [whole, append_assoc]
    refine .inr ?_
    have ready : Walk.Ready ⟨(r.advance.advance.readAttributes true).2.advance,
        { start := r.offset, name := "template", attributes := [], literal := false }, []⟩
          (before ++ (['<'] ++ rest)) ⟨r.offset, "template", [], false⟩ := by
      refine ⟨before ++ t, after, source, ⟨behind.place, ?_⟩, behind.reached⟩
      exact .root (.of_opening offset ne tag) rfl
    obtain ⟨l, attributes, same, span, encloses, below⟩ := ready.run clean
    exact ⟨l, attributes, same, span.symm, encloses, below⟩

end Reader

namespace Component

variable {component : Component} {r : Reader} {source : Text}

theorem template_readNext (component : Component) (r : Reader) :
    (r.kind = .tagOpen ∧ r.nextName = "template" ∧
        component.readNext r = component.addTemplate r) ∨
      ((component.readNext r).1.template = component.template ∧
        r.Passes (component.readNext r).2) := by
  refine readNext_cases (P := fun last => _ ∧ _ ∧ last = _ ∨ last.1.template = _ ∧ r.Passes last.2)
    (fun opens named => .inl ⟨opens, named, rfl⟩) (fun _ _ => .inr ⟨?_, ?_⟩)
    (fun _ _ => .inr ⟨rfl, (passes_readStyle r).of_advance⟩) (.inr ⟨rfl, passes_advance r⟩)
    (fun _ => .inr ⟨rfl, (passes_skipBlock r).of_advance⟩)
    fun _ => .inr ⟨rfl, (passes_readComment r).of_advance⟩
  · unfold addScript
    split
    · rfl
    · split <;> rfl
  · exact (passes_addScript component r).of_advance

/-- Up to its template only tokens of the source were passed, and the template is tiled. -/
structure Placed (source : Text) (component : Component) (r : Reader) : Prop where
  passes : component.template = none → (Reader.ofSource source).Passes r
  tiled : ∀ template, component.template = some template → template.Tiled source

section Kept

variable {P : List Node → Prop}

theorem templateNodes_readNext (holds : P component.templateNodes)
    (read : r.kind = .tagOpen → P r.readTemplate.1.children) :
    P (component.readNext r).1.templateNodes := by
  rcases template_readNext component r with ⟨opens, -, same⟩ | ⟨kept, -⟩
  · rw [same, addTemplate]
    dsimp only
    split
    · exact holds
    · exact read opens
  · rw [templateNodes, kept]
    exact holds

theorem templateNodes_parse (empty : P [])
    (read : ∀ r, (ofSource source).GoesOn r → r.kind = .tagOpen →
      P r.readTemplate.1.children) : P (parse source).1.templateNodes := by
  have all (component : Component) (r : Reader) (came : (ofSource source).GoesOn r)
      (holds : P component.templateNodes) : P (component.readAll r).1.templateNodes := by
    fun_induction readAll component r with
    | case1 component r => exact holds
    | case2 component r atEnd next ih =>
      exact ih (came.trans (goesOn_readNext component r).of_advance)
        (templateNodes_readNext holds (read r came))
  exact all { source } (.ofSource source) (.refl _) empty

end Kept

theorem Placed.readNext (h : Placed source component r)
    (clean : (component.readNext r).2.faults = []) :
    Placed source (component.readNext r).1 (component.readNext r).2 := by
  rcases template_readNext component r with ⟨kind, named, same⟩ | ⟨kept, passes⟩
  · have earlier := (goesOn_readNext component r).of_advance.clean clean
    rw [same, addTemplate] at clean ⊢
    -- A second template would be a fault.
    cases template : component.template with
    | some template => simp [template, reportAt] at clean
    | none =>
      simp only [template, Option.isSome_none, Bool.false_eq_true, if_false] at clean ⊢
      refine ⟨by simp, ?_⟩
      obtain ⟨read, rest, rfl, stands, -⟩ := (h.passes template).exists_at
        (at_ofSource source) earlier (tokens_ne_nil_of_kind (by simp [kind]))
      obtain ⟨gap, after, rfl, -, reads, stands⟩ := stands.spelled kind rfl
      intro found same
      cases same
      simpa using stands.readTemplate reads named clean
  · refine ⟨fun none => (h.passes (kept ▸ none)).trans passes, fun template found => ?_⟩
    exact h.tiled template (kept ▸ found)

theorem Placed.readAll (h : Placed source component r)
    (clean : (component.readAll r).2.faults = []) :
    Placed source (component.readAll r).1 (component.readAll r).2 := by
  fun_induction Component.readAll component r with
  | case1 component r => exact h
  | case2 component r atEnd next ih =>
    exact ih (h.readNext ((goesOn_readAll next.1 next.2).clean clean)) clean

/-- In a source that parses without a fault, the children of the template, and of every element
that is neither void nor closed by its own tag, stand side by side from the `>` of the opening tag
to the `</` of the closing tag. They lie inside their parent, and every byte between the tags
belongs to exactly one of them. -/
theorem tiled_of_parse {template : Template} (parsed : Component.parse source = (component, []))
    (found : component.template = some template) : template.Tiled source := by
  have start : Placed source { source } (Reader.ofSource source) := ⟨fun _ => .refl _, by simp⟩
  unfold Component.parse at parsed
  obtain ⟨rfl, clean⟩ := Prod.mk.inj parsed
  exact (start.readAll clean).tiled template found

def mixedSource : Text :=
  "<script setup>\nlet a\n</script>\n<template>\n <p v-pre>\x7b\x7ba\x7d\x7d <br></p\n>\n" ++
    " <!-- b -->\x7b\x7b a \x7d\x7d <i/></template>"

theorem tiled_of_parse_mixedSource : (Component.parse mixedSource).2 = [] ∧
    ∃ template, (Component.parse mixedSource).1.template = some template ∧
      template.children.map (·.span) =
        [⟨41, 43⟩, ⟨43, 67⟩, ⟨67, 69⟩, ⟨69, 79⟩, ⟨79, 86⟩, ⟨86, 87⟩, ⟨87, 91⟩] ∧
          template.Tiled mixedSource := by
  have clean : (Component.parse mixedSource).2 = [] := by decide +kernel
  have read : (Component.parse mixedSource).1.template.any (fun template =>
      template.children.map (·.span) =
        [⟨41, 43⟩, ⟨43, 67⟩, ⟨67, 69⟩, ⟨69, 79⟩, ⟨79, 86⟩, ⟨86, 87⟩, ⟨87, 91⟩]) = true := by
    decide +kernel
  obtain ⟨template, found, spans⟩ := (Option.any_eq_true _ _).1 read
  exact ⟨clean, template, found, by simpa using spans, tiled_of_parse (Prod.ext rfl clean) found⟩

/-- Whether `</` and the name of an element, with nothing between them, follow its last child. -/
def closesTightly (source : Text) : Node → Bool
  | .element tag children => tag.selfClosing || isVoid tag.name ||
      children.getLast?.all fun child =>
        (source.dropBytes child.span.stop).startsWith ("</" ++ tag.name)
  | _ => true

def spacedClosingTag : Text := "<template><div>a</ div></template>"

/-- Blanks may stand between `</` and the name. -/
theorem spacedClosingTag_notTight : (Component.parse spacedClosingTag).2 = [] ∧
    ∃ template, (Component.parse spacedClosingTag).1.template = some template ∧
      ∃ node ∈ template.children, closesTightly spacedClosingTag node = false := by
  have read : (Component.parse spacedClosingTag).1.template.any (fun template =>
      template.children.any fun node => !closesTightly spacedClosingTag node) = true := by
    decide +kernel
  obtain ⟨template, found, loose⟩ := (Option.any_eq_true _ _).1 read
  obtain ⟨node, member, spaced⟩ := any_eq_true.1 loose
  exact ⟨by decide +kernel, template, found, node, member, by simpa using spaced⟩

end Component

end SfcJsx.Markup
