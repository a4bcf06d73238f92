import SfcJsx.Proofs.KeptWalks
import SfcJsx.Proofs.ReaderSpans

/-!
The spans of a component. Every step of a walk keeps its reader and its open elements within the
source, and so does every block at the top level. Hence all spans that come out of reading a source
can be cut out of it, those of its faults too, and what the component holds is what stands there.
-/

namespace SfcJsx.Markup

open List SfcJsx.Span

/-- What is read from a source was read from it, and tags stand in it. -/
def soundLaw (source : Text) (reached : Nat) : WalkLaw where
  reads r := r.Valid source reached
  opens r _ tag := source.IsBoundary tag.start ∧ tag.start < r.tokenEnd ∧
    ∀ attr ∈ tag.attributes, attr.ReadFrom source ∧ attr.span.IsPart source
  holds _ node := node.Sound source
  stays h goesOn opened :=
    ⟨opened.1, Nat.lt_of_lt_of_le opened.2.1 (h.sound.goesOn goesOn).2, opened.2.2⟩
  report h := h.report
  expectName h := h.advance.expect _
  passClosingTag h := h.passClosingTag
  skipClosingTag h := h.skipClosingTag
  gap h _ := h.gap?
  text h := h.readText
  comment h kind _ := h.readComment kind
  interpolation h := h.readInterpolation
  opening {r} h kind literal := by
    have more : r.kind ≠ .endOfFile := by simp [kind]
    have tag := (Reader.passes_readOpenTag r literal).of_advance
    obtain ⟨opened, read⟩ := h.readOpenTag literal
    have attributes (attr : Attribute) (member : attr ∈ (r.readOpenTag literal).1.attributes) :=
      And.intro (read attr member) (h.sound.spans_readOpenTag literal attr member)
    have reached {next : Reader} (passes : (r.readOpenTag literal).2.Passes next) :
        r.offset < next.tokenEnd := (h.sound.lt_of_passes more (tag.trans passes)).2
    refine forall_mem_cons.2 ⟨⟨opened.advance, ?_⟩, forall_mem_singleton.2 ⟨opened.expect _, ?_⟩⟩
    · exact ⟨h.offset, reached (Reader.passes_advance _), attributes⟩
    · exact ⟨h.offset, reached (Reader.passes_expect _ _), attributes⟩
  element h opened below := by
    obtain ⟨start, lt, attributes⟩ := opened
    have span := isPart_of_lt start h.sound.tokenEnd lt
    exact ⟨.element (fun attr member => (attributes attr member).1) fun child member =>
      (below child member).1, located_element ⟨span, fun attr member => (attributes attr member).2⟩
        fun child member => (below child member).2⟩

variable {start : Nat}

namespace Reader

variable {source : Text} {reached : Nat} {r : Reader}

theorem Valid.fits_read (h : r.Valid source start) (boundary : source.IsBoundary start) :
    Fits source ⟨start, r.tokenEnd⟩ :=
  fits_of_le boundary h.sound.tokenEnd h.further

theorem Valid.readBlockTag (h : r.Valid source reached) (more : r.kind ≠ .endOfFile) :
    r.readBlockTag.2.Valid source r.offset := by
  obtain ⟨valid, -⟩ := (h.advance_past more).advance.readAttributes true
  unfold Reader.readBlockTag
  dsimp only
  split
  · exact valid.advance
  · exact valid.expect _

theorem Valid.readRawBlock (h : r.Valid source reached) (name : Text) :
    (r.readRawBlock name).2.Valid source reached ∧ (r.readRawBlock name).1.Fits source := by
  have closed {next : Reader} (valid : next.Valid source reached) :
      (if next.kind = .closingOpen then next.advance.advance.expect .tagClose
        else next).Valid source reached := by
    split
    · exact valid.advance.advance.expect _
    · exact valid
  obtain ⟨before, whole, place⟩ := h.sound.tokenEnd.exists_dropBytes
  rw [← h.sound.same, ← Reader.ahead] at whole
  unfold Reader.readRawBlock
  dsimp only
  split
  · next content tail found =>
    rw [Text.eq_append_of_cut? found, h.sound.same] at whole
    refine ⟨closed (h.seek _), content, before, "</" ++ name ++ tail, ?_, ?_⟩
    · rw [whole]
      simp
    · rw [Text.width_append, place]
  · have here : Fits source (.emptyAt r.tokenEnd) :=
      fits_of_le h.sound.tokenEnd h.sound.tokenEnd (Nat.le_refl _)
    refine ⟨closed ((h.reportAt here _).seek _), ?_⟩
    rw [h.sound.same] at whole ⊢
    refine fits_of_le h.sound.tokenEnd (Text.isBoundary_width source) ?_
    rw [← place, whole]
    simp

theorem Valid.checkLanguage (h : r.Valid source start) (boundary : source.IsBoundary start)
    (block : BlockTag) : (r.checkLanguage block start).Valid source start := by
  unfold Reader.checkLanguage
  split
  · split
    · exact h
    · exact h.reportAt (fits_of_le boundary h.offset h.le_offset) _
  · exact h

theorem Valid.readTemplate (h : r.Valid source reached) (more : r.kind ≠ .endOfFile) :
    r.readTemplate.2.Valid source r.offset ∧ r.readTemplate.1.span.Fits source ∧
      ∀ node ∈ r.readTemplate.1.children, node.Sound source := by
  have checked := (h.readBlockTag more).checkLanguage h.offset r.readBlockTag.1
  obtain ⟨read, valid⟩ := (soundLaw source r.offset).readTemplate r checked
  exact ⟨valid, valid.fits_read h.offset, read⟩

end Reader

structure ScriptBlock.ReadFrom (source : Text) (block : ScriptBlock) : Prop where
  span : block.span.Fits source
  content : block.contentSpan.Covers source block.content

structure StyleBlock.ReadFrom (source : Text) (block : StyleBlock) : Prop where
  span : block.span.Fits source
  content : block.contentSpan.Covers source block.content

namespace Reader

variable {source : Text} {reached : Nat} {r : Reader}

section

variable (h : r.Valid source reached)

include h

theorem Valid.covers_readRawBlock (name : Text) :
    (r.readRawBlock name).1.Covers source
      ((r.readRawBlock name).1.slice (r.readRawBlock name).2.source) := by
  obtain ⟨valid, content, covers⟩ := h.readRawBlock name
  rw [valid.sound.same, covers.slice]
  exact covers

theorem Valid.readScript (more : r.kind ≠ .endOfFile) :
    r.readScript.2.Valid source r.offset ∧ ∀ block ∈ r.readScript.1, block.ReadFrom source := by
  have opened := h.readBlockTag more
  unfold Reader.readScript
  dsimp only
  split
  · exact ⟨opened, by simp⟩
  · obtain ⟨valid, -⟩ := opened.readRawBlock "script"
    refine ⟨valid, ?_⟩
    rintro _ ⟨⟩
    exact ⟨valid.fits_read h.offset, opened.covers_readRawBlock _⟩

theorem Valid.readStyle (more : r.kind ≠ .endOfFile) :
    r.readStyle.2.Valid source r.offset ∧ ∀ block ∈ r.readStyle.1, block.ReadFrom source := by
  have opened := h.readBlockTag more
  unfold Reader.readStyle
  dsimp only
  split
  · exact ⟨opened, by simp⟩
  · obtain ⟨valid, -⟩ := opened.readRawBlock "style"
    refine ⟨valid, ?_⟩
    rintro _ ⟨⟩
    exact ⟨valid.fits_read h.offset, opened.covers_readRawBlock _⟩

theorem Valid.skipBlock (more : r.kind ≠ .endOfFile) : r.skipBlock.Valid source r.offset := by
  have opened := h.readBlockTag more
  unfold Reader.skipBlock
  dsimp only
  split
  · exact opened
  · exact (opened.readRawBlock _).1

end

end Reader

namespace Component

variable {source : Text} {component : Component} {r : Reader}

/-- All spans of a component fit its source, and the texts are those at their spans. -/
structure ReadFrom (source : Text) (component : Component) : Prop where
  root : ∀ template ∈ component.template, template.span.Fits source
  template : ∀ node ∈ component.templateNodes, node.ReadFrom source
  scripts : ∀ block ∈ component.scripts, block.ReadFrom source
  styles : ∀ block ∈ component.styles, block.ReadFrom source

structure Valid (source : Text) (component : Component) (r : Reader) : Prop where
  reader : r.Valid source 0
  read : component.ReadFrom source
  located : Located source component.templateNodes

section

variable (h : Valid source component r)

include h

theorem Valid.addTemplate (opens : r.kind = .tagOpen) :
    Valid source (component.addTemplate r).1 (component.addTemplate r).2 := by
  obtain ⟨valid, root, read⟩ := h.reader.readTemplate (by simp [opens])
  unfold Component.addTemplate
  dsimp only
  split
  · obtain ⟨before, whole, place⟩ :=
      h.reader.exists_ahead_of_spelling (s := ['<']) (by rw [opens]; rfl)
    have bracket : Fits source ⟨r.offset, r.offset + 1⟩ :=
      ⟨['<'], before, _, whole, by rw [Text.width_append, place]; rfl⟩
    exact ⟨(valid.reportAt bracket _).weaken, h.read, h.located⟩
  · refine ⟨valid.weaken, ⟨?_, fun node member => (read node member).1, h.read.scripts,
      h.read.styles⟩, located_iff.2 fun node member => (read node member).2⟩
    rintro _ ⟨⟩
    exact root

theorem Valid.addScript (more : r.kind ≠ .endOfFile) :
    Valid source (component.addScript r).1 (component.addScript r).2 := by
  obtain ⟨valid, read⟩ := h.reader.readScript more
  unfold Component.addScript
  split
  · next after same =>
    rw [same] at valid
    exact ⟨valid.weaken, h.read, h.located⟩
  · next script after same =>
    rw [same] at valid read
    have block := read script rfl
    split
    · exact ⟨(valid.reportAt block.span _).weaken, h.read, h.located⟩
    · exact ⟨valid.weaken, { h.read with
        scripts := forall_mem_append.2 ⟨h.read.scripts, forall_mem_singleton.2 block⟩ }, h.located⟩

theorem Valid.addStyle (more : r.kind ≠ .endOfFile) :
    Valid source (component.addStyle r).1 (component.addStyle r).2 := by
  obtain ⟨valid, read⟩ := h.reader.readStyle more
  have styles : ∀ block ∈ (component.addStyle r).1.styles, block.ReadFrom source :=
    forall_mem_append.2 ⟨h.read.styles, fun block member =>
      read block (Option.mem_toList.1 member)⟩
  exact ⟨valid.weaken, { h.read with styles }, h.located⟩

theorem Valid.readNext : Valid source (component.readNext r).1 (component.readNext r).2 := by
  have more (opens : r.kind = .tagOpen) : r.kind ≠ .endOfFile := by simp [opens]
  exact readNext_cases (P := fun last => Valid source last.1 last.2)
    (fun opens _ => h.addTemplate opens) (fun opens _ => h.addScript (more opens))
    (fun opens _ => h.addStyle (more opens)) ⟨h.reader.advance, h.read, h.located⟩
    (fun opens => ⟨(h.reader.skipBlock (more opens)).weaken, h.read, h.located⟩)
    fun opens => ⟨(h.reader.readComment opens).1, h.read, h.located⟩

theorem Valid.readAll : Valid source (component.readAll r).1 (component.readAll r).2 := by
  fun_induction Component.readAll component r with
  | case1 component r => exact h
  | case2 component r atEnd next ih => exact ih h.readNext

end

theorem valid_ofSource (source : Text) : Valid source { source } (.ofSource source) :=
  ⟨Reader.valid_ofSource source, ⟨by simp, by simp [templateNodes], by simp, by simp⟩,
    located_iff.2 (by simp [templateNodes])⟩

theorem valid_parse (source : Text) : Valid source (parse source).1
    (readAll { source } (.ofSource source)).2 := (valid_ofSource source).readAll

theorem located_parse (source : Text) :
    (parse source).1.source = source ∧ Located source (parse source).1.templateNodes :=
  ⟨source_readAll _ _, (valid_parse source).located⟩

end Component

section Spans

def Attribute.spans : Attribute → List Span
  | .plain attr => [attr.span]
  | .directive d => d.span :: d.expression.toList.map (·.span)

def Tag.spans (tag : Tag) : List Span := tag.span :: tag.attributes.flatMap Attribute.spans

mutual

def Node.spans : Node → List Span
  | .element tag children => tag.spans ++ spansOfList children
  | .text span _ | .interpolation span _ | .comment span _ => [span]

def Node.spansOfList : List Node → List Span
  | [] => []
  | node :: rest => spans node ++ spansOfList rest

end

/-- All spans of blocks and nodes. -/
def Component.spans (component : Component) : List Span :=
  component.template.toList.flatMap (fun template =>
      template.span :: Node.spansOfList template.children) ++
    component.scripts.flatMap (fun block => [block.span, block.contentSpan]) ++
    component.styles.flatMap fun block => [block.span, block.contentSpan]

variable {source : Text}

theorem Attribute.ReadFrom.fits {attr : Attribute} (h : attr.ReadFrom source)
    (here : attr.span.IsPart source) : ∀ span ∈ attr.spans, span.Fits source := by
  cases attr with
  | plain attr => exact forall_mem_singleton.2 here.fits
  | directive d =>
    refine forall_mem_cons.2 ⟨here.fits, fun span member => ?_⟩
    obtain ⟨bound, found, rfl⟩ := mem_map.1 member
    exact ⟨bound.content, h bound (Option.mem_toList.1 found)⟩

theorem Node.spansOfList_eq_flatMap (nodes : List Node) :
    spansOfList nodes = nodes.flatMap spans := by
  induction nodes with
  | nil => rfl
  | cons node nodes ih => rw [spansOfList, ih, flatMap_cons]

theorem Node.ReadFrom.fits {node : Node} (h : node.ReadFrom source)
    (located : Located source [node]) : ∀ span ∈ node.spans, span.Fits source := by
  induction h with
  | text covers | interpolation covers | comment covers =>
    exact forall_mem_singleton.2 ⟨_, covers⟩
  | @element tag children attributes below ih =>
    obtain ⟨here, given⟩ := located tag (by simp [tagsOfList, tags])
    refine forall_mem_append.2 ⟨forall_mem_cons.2 ⟨here.fits, ?_⟩, ?_⟩
    · exact forall_mem_flatMap.2 fun attr among =>
        (attributes attr among).fits (given attr among)
    · have inside : Located source children := fun other found =>
        located other (by simpa [tagsOfList, tags] using .inr found)
      rw [spansOfList_eq_flatMap]
      exact forall_mem_flatMap.2 fun child among =>
        ih child among (located_iff.1 inside child among)

end Spans

namespace Component

theorem ReadFrom.fits {source : Text} {component : Component} (h : component.ReadFrom source)
    (located : Located source component.templateNodes) :
    ∀ span ∈ component.spans, span.Fits source := by
  have both {outer inner : Span} {content : Text} (fits : outer.Fits source)
      (covers : inner.Covers source content) : ∀ span ∈ [outer, inner], span.Fits source :=
    forall_mem_cons.2 ⟨fits, forall_mem_singleton.2 ⟨content, covers⟩⟩
  refine forall_mem_append.2 ⟨forall_mem_append.2 ⟨?_, ?_⟩, ?_⟩
  · refine forall_mem_flatMap.2 fun template found => ?_
    have same := Option.mem_toList.1 found
    have nodes : component.templateNodes = template.children := by
      rw [templateNodes, Option.mem_def.1 same]
      rfl
    rw [nodes] at located
    have read := h.template
    rw [nodes] at read
    refine forall_mem_cons.2 ⟨h.root template same, ?_⟩
    rw [Node.spansOfList_eq_flatMap]
    exact forall_mem_flatMap.2 fun node among =>
      (read node among).fits (located_iff.1 located node among)
  · exact forall_mem_flatMap.2 fun block among =>
      both (h.scripts block among).span (h.scripts block among).content
  · exact forall_mem_flatMap.2 fun block among =>
      both (h.styles block among).span (h.styles block among).content

/-- Whatever faults a source has, every span that comes out of reading it is one of the source, and
what the component holds is what stands there. -/
theorem spans_valid_of_parse (source : Text) :
    (∀ span ∈ (parse source).1.spans, span.Valid source) ∧
      (∀ fault ∈ (parse source).2, fault.span.Valid source) ∧
      (parse source).1.ReadFrom source := by
  have valid := valid_parse source
  refine ⟨fun span member => ?_, fun fault member => ?_, valid.read⟩
  · exact (valid.read.fits (located_parse source).2 span member).valid
  · exact (valid.reader.faults fault member).valid

end Component

end SfcJsx.Markup
