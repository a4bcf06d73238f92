import SfcJsx.Proofs.ValidSpans

/-!
The blocks of a component stand apart in its source. A script or style is taken as it is, up to the
first `</` with its name, whatever tokens its content looks like; the reader then goes on with the
closing tag, since no token runs over a `<`. Each block starts behind what has been read and ends
where the reader has come to, so blocks that are kept share no byte.
-/

namespace SfcJsx

open List Text

namespace Span

def Before (s t : Span) : Prop := s.stop ≤ t.start

def Apart (s t : Span) : Prop := s.Before t ∨ t.Before s

theorem Apart.symm {s t : Span} (h : s.Apart t) : t.Apart s := Or.symm h

/-- Spans that share no byte, in the part of a source that has been read. -/
structure Spread (reached : Nat) (spans : List Span) : Prop where
  apart : spans.Pairwise Apart
  passed : ∀ span ∈ spans, span.stop ≤ reached

theorem Spread.mono {reached further : Nat} {spans : List Span} (h : Spread reached spans)
    (le : reached ≤ further) : Spread further spans :=
  ⟨h.apart, fun span member => Nat.le_trans (h.passed span member) le⟩

theorem Spread.insert {reached further : Nat} {span : Span} {spans more : List Span}
    (h : Spread reached spans) (perm : more.Perm (span :: spans)) (start : reached ≤ span.start)
    (forward : span.start ≤ span.stop) (stop : span.stop ≤ further) : Spread further more where
  apart := by
    rw [perm.pairwise_iff Apart.symm, pairwise_cons]
    exact ⟨fun other member => .inr (Nat.le_trans (h.passed other member) start), h.apart⟩
  passed := by
    intro other member
    rcases mem_cons.1 (perm.mem_iff.1 member) with rfl | earlier
    · exact stop
    · exact Nat.le_trans (h.passed other earlier) (by omega)

end Span

namespace Markup

open Token (scanFrom isSkipped isNameChar Reads)

namespace Reader

variable {source name : Text} {r : Reader}

theorem GoesOn.opening (h : (ofSource source).GoesOn r) (opens : r.kind = .tagOpen)
    (named : r.nextName = name) (ne : name ≠ []) :
    ∃ gap, gap.all isSkipped ∧ ['<'] ++ gap ++ name <+: source.dropBytes r.offset := by
  obtain ⟨before, rest, behind⟩ := h.exists_behind (tokens_ne_nil_of_kind (by simp [opens]))
  obtain ⟨space, after, rfl, -, reads, stands⟩ := behind.place.spelled opens rfl
  have same : r.fresh.nextName = name := named
  obtain ⟨kind, text⟩ := advance_of_nextName (r := r.fresh) (by rwa [same])
  obtain ⟨gap, word, left, rfl, blank, readsName, standsName, -⟩ :=
    (stands.advance reads).token (by simp [kind])
  obtain rfl : word = name := by rw [← standsName.currentText readsName, text, same]
  have offset : r.offset = (before ++ space).width := stands.offset reads
  have whole : source = (before ++ space) ++ (['<'] ++ (gap ++ (word ++ left))) :=
    h.source.symm.trans stands.source
  refine ⟨gap, all_eq_true.2 blank, left, ?_⟩
  rw [offset, whole, dropBytes_width_append]
  simp

theorem Behind.readRawBlock {before content tail : Text} (ne : name ≠ [])
    (word : ∀ c ∈ name, isNameChar c)
    (h : r.fresh.Behind before (content ++ (("</" ++ name) ++ tail))) :
    (r.seek (before ++ content).width).kind = .closingOpen ∧
      (before ++ content).width + width ("</" ++ name) ≤
        (r.seek (before ++ content).width).advance.advance.tokenEnd := by
  have parted : Token.Parted content (("</" ++ name) ++ tail) := by
    rintro a - b ⟨⟩
    exact Token.joins_bracket a
  have stands := h.place.seek parted.cut
  have opens := Token.reads_closingOpen (name ++ tail)
  have stands' : (r.seek (before ++ content).width).fresh.At (before ++ content)
      (['<', '/'] ++ (name ++ tail)) := stands
  refine ⟨stands'.kind opens, ?_⟩
  -- The name token goes on with whatever follows the name.
  have reads := Token.reads_word ne word tail
  have named := stands'.advance opens
  rw [← takeWhile_append_dropWhile (p := isNameChar) (l := tail), ← append_assoc] at named
  have tokenEnd := named.tokenEnd_advance reads
  rw [← fresh_advance, ← fresh_advance] at tokenEnd
  have reached : (r.seek (before ++ content).width).advance.advance.tokenEnd = _ := tokenEnd
  rw [reached]
  simp only [width_append]
  have mark : width "</" = width ['<', '/'] := rfl
  omega

end Reader

/-- A block with a name that is kept as it stands in a source, given the faults of the source. -/
structure IsRawBlock (source : Text) (faults : List Fault) (name : Text) (span contentSpan : Span)
    (content : Text) : Prop where
  /-- The block starts with the opening of its tag. -/
  opening : ∃ gap, gap.all isSkipped ∧
    ['<'] ++ gap ++ name <+: source.dropBytes span.start
  inside : span.start < contentSpan.start
  sliced : contentSpan.slice? source = some content
  unbroken : ¬ ("</" ++ name : Text) <:+: content
  /-- The content ends with the source, which is a fault, or at a closing tag in the block. -/
  ending : contentSpan.stop = source.width ∧
      ⟨.unclosedTag name, .emptyAt contentSpan.start⟩ ∈ faults ∨
    ("</" ++ name : Text) <+: source.dropBytes contentSpan.stop ∧
      contentSpan.stop + width ("</" ++ name) ≤ span.stop

theorem IsRawBlock.mono {source name content : Text} {span contentSpan : Span}
    {faults more : List Fault} (h : IsRawBlock source faults name span contentSpan content)
    (grows : faults <+: more) : IsRawBlock source more name span contentSpan content :=
  { h with ending := h.ending.imp_left (And.imp_right fun member => grows.subset member) }

namespace Reader

variable {source : Text} {r : Reader}

theorem lastEnd_scanFrom (tokenEnd : Nat) (before t : Text) :
    lastEnd tokenEnd (scanFrom before.width t) = (before ++ t).width := by
  induction before, t using Token.reading_induction generalizing tokenEnd with
  | nil before => simp [scanFrom, lastEnd, Span.emptyAt]
  | skip before c rest skipped ih =>
    rw [Token.scanFrom_skip skipped, ih, append_assoc, singleton_append]
  | token before c t rest kind kept read ih =>
    rw [(Token.reads_of_lead kept read).scanFrom, ← append_assoc]
    exact ih _

theorem GoesOn.tokens_ne_nil (h : (ofSource source).GoesOn r) (more : r.tokenEnd < source.width) :
    r.tokens ≠ [] := by
  intro none
  obtain ⟨passed, ahead, ends⟩ := h.tokens
  have all : scanFrom 0 source = passed := by
    rw [none, append_nil] at ahead
    exact ahead
  have reached : lastEnd _ (scanFrom 0 source) = source.width :=
    lastEnd_scanFrom (ofSource source).tokenEnd [] source
  rw [all] at reached
  omega

section RawBlock

variable {name content tail : Text}

theorem readRawBlock_of_none (none : cut? ("</" ++ name) (r.ahead r.tokenEnd) = none) :
    (r.readRawBlock name).1 = ⟨r.tokenEnd, r.source.width⟩ ∧
      ⟨.unclosedTag name, .emptyAt r.tokenEnd⟩ ∈ (r.readRawBlock name).2.faults := by
  simp only [readRawBlock, none]
  refine ⟨trivial, ?_⟩
  have later := passes_seek_closing (r.reportAt (.unclosedTag name) (.emptyAt r.tokenEnd))
    r.source.width
  exact later.faults.subset (by simp [reportAt])

theorem readRawBlock_of_some (ne : name ≠ []) (word : ∀ c ∈ name, isNameChar c)
    (valid : r.Valid source 0) (came : (ofSource source).GoesOn r)
    (found : cut? ("</" ++ name) (r.ahead r.tokenEnd) = some (content, tail)) :
    (r.readRawBlock name).1 = ⟨r.tokenEnd, r.tokenEnd + content.width⟩ ∧
      r.tokenEnd + content.width + width ("</" ++ name) ≤
        (r.readRawBlock name).2.tokenEnd := by
  have ahead_eq := eq_append_of_cut? found
  have more : r.tokenEnd < source.width := by
    obtain ⟨before, whole, place⟩ := valid.sound.tokenEnd.exists_dropBytes
    rw [← valid.sound.same, ← ahead, ahead_eq, valid.sound.same] at whole
    rw [whole]
    have opens : 0 < width "</" := by decide
    simp only [width_append]
    omega
  obtain ⟨before, rest, behind⟩ := came.exists_behind (came.tokens_ne_nil more)
  have place : r.tokenEnd = before.width := behind.tokenEnd
  have here : r.ahead r.tokenEnd = rest := by
    rw [place]
    exact ahead_of_source behind.place.source
  obtain rfl : rest = content ++ (("</" ++ name) ++ tail) := by
    rw [← here, ahead_eq, append_assoc]
  obtain ⟨closes, reaches⟩ := behind.readRawBlock ne word
  rw [width_append, ← place] at closes reaches
  simp only [readRawBlock, found]
  refine ⟨trivial, ?_⟩
  rw [if_pos closes]
  have sought := valid.seek (r.tokenEnd + content.width)
  have expects := sought.advance.advance.sound.passes (passes_expect _ .tagClose)
  exact Nat.le_trans reaches expects.2

end RawBlock

theorem GoesOn.isRawBlock {name : Text} {start : Nat} (h : (ofSource source).GoesOn r)
    (valid : r.Valid source 0) (later : start < r.tokenEnd)
    (opening : ∃ gap, gap.all isSkipped ∧ ['<'] ++ gap ++ name <+: source.dropBytes start)
    (ne : name ≠ []) (word : ∀ c ∈ name, isNameChar c) :
    IsRawBlock source (r.readRawBlock name).2.faults name ⟨start, (r.readRawBlock name).2.tokenEnd⟩
      (r.readRawBlock name).1 ((r.readRawBlock name).1.slice (r.readRawBlock name).2.source) := by
  have covers := valid.covers_readRawBlock name
  have ahead_eq : r.ahead r.tokenEnd = source.dropBytes r.tokenEnd := by
    rw [ahead, valid.sound.same]
  generalize (r.readRawBlock name).1.slice (r.readRawBlock name).2.source = kept at covers ⊢
  have sliced := covers.slice?
  obtain ⟨before, after, whole, span⟩ := covers
  cases found : cut? ("</" ++ name) (r.ahead r.tokenEnd) with
  | none =>
    have absent : ¬ ("</" ++ name : Text) <:+: r.ahead r.tokenEnd := by
      rw [← isSome_cut?_iff, found]
      simp
    obtain ⟨place, reported⟩ := readRawBlock_of_none found
    rw [span] at place
    obtain ⟨start_eq, stop_eq⟩ := Span.mk.inj place
    refine ⟨opening, ?_, sliced, ?_, .inl ⟨?_, ?_⟩⟩
    · exact later
    · intro occurs
      apply absent
      rw [ahead_eq, ← start_eq, whole, dropBytes_width_append]
      exact occurs.trans (prefix_append _ _).isInfix
    · rw [span, stop_eq, valid.sound.same]
    · exact reported
  | some parts =>
    obtain ⟨content, tail⟩ := parts
    obtain ⟨place, reaches⟩ := readRawBlock_of_some ne word valid h found
    rw [span] at place
    obtain ⟨start_eq, stop_eq⟩ := Span.mk.inj place
    have split := eq_append_of_cut? found
    rw [ahead_eq, ← start_eq, whole, dropBytes_width_append, append_assoc] at split
    rw [split] at whole
    obtain rfl : kept = content := by
      have same : Span.Covers source (r.readRawBlock name).1 content :=
        ⟨before, _, whole, by rw [span, stop_eq, ← start_eq, width_append]⟩
      exact Option.some.inj (sliced.symm.trans same.slice?)
    refine ⟨opening, ?_, sliced, ?_, .inr ⟨?_, ?_⟩⟩
    · exact later
    · intro occurs
      have first := not_infix_of_cut? (by simp) found
      exact first (occurs.trans (prefix_append _ _).isInfix)
    · rw [span, whole, ← append_assoc, dropBytes_width_append]
      exact prefix_append _ _
    · rw [span, stop_eq]
      exact reaches

theorem GoesOn.isRawBlock_tag {name : Text} (h : (ofSource source).GoesOn r)
    (valid : r.Valid source 0) (opens : r.kind = .tagOpen) (named : r.nextName = name)
    (ne : name ≠ []) (word : ∀ c ∈ name, isNameChar c) :
    let (contentSpan, after) := r.readBlockTag.2.readRawBlock name
    IsRawBlock source after.faults name ⟨r.offset, after.tokenEnd⟩ contentSpan
      (contentSpan.slice after.source) := by
  have more : r.kind ≠ .endOfFile := by simp [opens]
  have later := (valid.sound.lt_of_passes more (passes_readBlockTag r)).2
  exact (h.trans (passes_readBlockTag r).of_advance.goesOn).isRawBlock
    (valid.readBlockTag more).weaken later (h.opening opens named ne) ne word

section Blocks

variable (h : (ofSource source).GoesOn r) (valid : r.Valid source 0) (opens : r.kind = .tagOpen)

include h valid opens

theorem GoesOn.readScript (named : r.nextName = "script") : ∀ block ∈ r.readScript.1,
    IsRawBlock source r.readScript.2.faults "script" block.span block.contentSpan block.content ∧
      block.span = ⟨r.offset, r.readScript.2.tokenEnd⟩ := by
  have raw := h.isRawBlock_tag valid opens named (by decide) (all_eq_true.1 (by decide))
  unfold Reader.readScript
  dsimp only
  split
  · simp
  · rintro _ ⟨⟩
    exact ⟨raw, rfl⟩

theorem GoesOn.readStyle (named : r.nextName = "style") : ∀ block ∈ r.readStyle.1,
    IsRawBlock source r.readStyle.2.faults "style" block.span block.contentSpan block.content ∧
      block.span = ⟨r.offset, r.readStyle.2.tokenEnd⟩ := by
  have raw := h.isRawBlock_tag valid opens named (by decide) (all_eq_true.1 (by decide))
  unfold Reader.readStyle
  dsimp only
  split
  · simp
  · rintro _ ⟨⟩
    exact ⟨raw, rfl⟩

end Blocks

end Reader

namespace Component

variable {source : Text} {component : Component} {r next : Reader} {spans : List Span}

/-- The spans of the template, the scripts and the styles. -/
def blockSpans (component : Component) : List Span :=
  component.template.toList.map (·.span) ++ component.scripts.map (·.span) ++
    component.styles.map (·.span)

/-- A component whose blocks stand apart in the part of a source that has been read. -/
structure Separate (source : Text) (component : Component) (r : Reader) : Prop where
  came : (Reader.ofSource source).GoesOn r
  scripts : ∀ block ∈ component.scripts,
    IsRawBlock source r.faults "script" block.span block.contentSpan block.content
  styles : ∀ block ∈ component.styles,
    IsRawBlock source r.faults "style" block.span block.contentSpan block.content
  unique : component.scripts.Pairwise fun script other => script.isSetup ≠ other.isSetup
  spread : Span.Spread r.tokenEnd component.blockSpans
  scriptOrder : (component.scripts.map (·.span)).Pairwise Span.Before
  styleOrder : (component.styles.map (·.span)).Pairwise Span.Before

section

variable (h : Separate source component r) (valid : component.Valid source r)

include h

theorem Separate.goesOn (goesOn : r.GoesOn next) : Separate source component next where
  came := h.came.trans goesOn
  scripts block member := (h.scripts block member).mono goesOn.faults
  styles block member := (h.styles block member).mono goesOn.faults
  unique := h.unique
  spread := h.spread.mono (h.came.sound.goesOn goesOn).2
  scriptOrder := h.scriptOrder
  styleOrder := h.styleOrder

include valid

omit h in
theorem Valid.tokenEnd_le : r.tokenEnd ≤ r.offset :=
  Reader.Valid.le_offset { valid.reader with further := Nat.le_refl _ }

theorem Separate.spread_insert (reached : next.Valid source r.offset)
    (perm : spans.Perm (⟨r.offset, next.tokenEnd⟩ :: component.blockSpans)) :
    Span.Spread next.tokenEnd spans :=
  h.spread.insert perm valid.tokenEnd_le reached.further (Nat.le_refl _)

theorem Separate.pairwise_concat
    (order : spans.Pairwise Span.Before) (kept : ∀ span ∈ spans, span ∈ component.blockSpans)
    (stop : Nat) : (spans ++ [(⟨r.offset, stop⟩ : Span)]).Pairwise Span.Before := by
  rw [pairwise_append]
  refine ⟨order, pairwise_singleton _ _, fun span member => forall_mem_singleton.2 ?_⟩
  exact Nat.le_trans (h.spread.passed span (kept span member)) valid.tokenEnd_le

theorem Separate.addTemplate (opens : r.kind = .tagOpen) :
    Separate source (component.addTemplate r).1 (component.addTemplate r).2 := by
  have kept := h.goesOn (Reader.goesOn_readTemplate r).of_advance
  obtain ⟨reached, -⟩ := valid.reader.readTemplate (by simp [opens])
  unfold Component.addTemplate
  dsimp only
  split
  · exact kept.goesOn (Reader.passes_reportAt _ _ _).goesOn
  · next first =>
    have none : component.template = none := by simpa using first
    refine { kept with spread := h.spread_insert valid reached ?_ }
    rw [blockSpans, blockSpans, none]
    exact List.Perm.refl _

theorem Separate.addScript (opens : r.kind = .tagOpen) (named : r.nextName = "script") :
    Separate source (component.addScript r).1 (component.addScript r).2 := by
  have kept := h.goesOn (Reader.passes_readScript r).of_advance.goesOn
  have raw := h.came.readScript valid.reader opens named
  obtain ⟨reached, -⟩ := valid.reader.readScript (by simp [opens])
  unfold Component.addScript
  rcases result : r.readScript with ⟨- | script, after⟩
  · rw [result] at kept
    exact kept
  · rw [result] at kept raw reached
    obtain ⟨block, place⟩ := raw script rfl
    dsimp only at block place ⊢
    split
    · exact kept.goesOn (Reader.passes_reportAt _ _ _).goesOn
    · next first =>
      have others : ∀ other ∈ component.scripts, other.isSetup ≠ script.isSetup := by
        simpa using first
      refine { kept with scripts := ?_, unique := ?_, spread := ?_, scriptOrder := ?_ }
      · exact forall_mem_append.2 ⟨kept.scripts, forall_mem_singleton.2 block⟩
      · rw [pairwise_append]
        refine ⟨h.unique, pairwise_singleton _ _, fun other member => ?_⟩
        exact forall_mem_singleton.2 (others other member)
      · apply h.spread_insert valid reached
        rw [← place, blockSpans, map_append, map_singleton,
          ← append_assoc, append_assoc _ [script.span]]
        exact perm_middle
      · rw [map_append, map_singleton, place]
        apply h.pairwise_concat valid h.scriptOrder
        exact fun span member => mem_append_left _ (mem_append_right _ member)

theorem Separate.addStyle (opens : r.kind = .tagOpen) (named : r.nextName = "style") :
    Separate source (component.addStyle r).1 (component.addStyle r).2 := by
  have kept := h.goesOn (Reader.passes_readStyle r).of_advance.goesOn
  have raw := h.came.readStyle valid.reader opens named
  obtain ⟨reached, -⟩ := valid.reader.readStyle (by simp [opens])
  unfold Component.addStyle
  rcases result : r.readStyle with ⟨- | style, after⟩
  · rw [result] at kept
    simpa using kept
  · rw [result] at kept raw reached
    obtain ⟨block, place⟩ := raw style rfl
    dsimp only at block place ⊢
    refine { kept with styles := ?_, spread := ?_, styleOrder := ?_ }
    · exact forall_mem_append.2 ⟨kept.styles, forall_mem_singleton.2 block⟩
    · apply h.spread_insert valid reached
      rw [← place, blockSpans, Option.toList_some, map_append, ← append_assoc]
      exact perm_append_singleton _ _
    · rw [Option.toList_some, map_append, map_singleton, place]
      apply h.pairwise_concat valid h.styleOrder
      exact fun span member => mem_append_right _ member

theorem Separate.readNext : Separate source (component.readNext r).1 (component.readNext r).2 := by
  exact readNext_cases (P := fun last => Separate source last.1 last.2)
    (fun opens _ => h.addTemplate valid opens) (h.addScript valid) (h.addStyle valid)
    (h.goesOn (Reader.passes_advance r).goesOn)
    (fun _ => h.goesOn (Reader.passes_skipBlock r).of_advance.goesOn)
    fun _ => h.goesOn (Reader.passes_readComment r).of_advance.goesOn

theorem Separate.readAll : Separate source (component.readAll r).1 (component.readAll r).2 := by
  fun_induction Component.readAll component r with
  | case1 component r => exact h
  | case2 component r atEnd next ih => exact ih (h.readNext valid) valid.readNext

end

theorem separate_parse (source : Text) : Separate source (parse source).1
    (readAll { source } (.ofSource source)).2 := by
  have start : Separate source { source } (.ofSource source) :=
    { came := .refl _
      scripts := by simp
      styles := by simp
      unique := .nil
      spread := ⟨.nil, by simp [blockSpans]⟩
      scriptOrder := .nil
      styleOrder := .nil }
  exact start.readAll (valid_ofSource source)

theorem length_filter_le_one {scripts : List ScriptBlock}
    (unique : scripts.Pairwise fun script other => script.isSetup ≠ other.isSetup)
    (isSetup : Bool) : (scripts.filter (·.isSetup = isSetup)).length ≤ 1 := by
  have sort : ∀ script ∈ scripts.filter (·.isSetup = isSetup), script.isSetup = isSetup := by
    simp
  have apart := unique.filter (·.isSetup = isSetup)
  generalize scripts.filter (·.isSetup = isSetup) = kept at sort apart ⊢
  rcases kept with - | ⟨script, - | ⟨other, rest⟩⟩
  · exact Nat.zero_le 1
  · exact Nat.le_refl 1
  · obtain ⟨first, -⟩ := pairwise_cons.1 apart
    have same := (sort script (by simp)).trans (sort other (by simp)).symm
    exact absurd same (first other (by simp))

/-- Whatever a source holds, its blocks are kept as they stand in it and share no byte. There is one
setup script and one plain script at most; a script or style ends before the first closing tag with
its name, or with the source, which is then a fault. -/
theorem blocks_apart_of_parse (source : Text) :
    let component := (parse source).1
    let faults := (parse source).2
    (∀ isSetup, (component.scripts.filter (·.isSetup = isSetup)).length ≤ 1) ∧
      (∀ block ∈ component.scripts,
        IsRawBlock source faults "script" block.span block.contentSpan block.content) ∧
      (∀ block ∈ component.styles,
        IsRawBlock source faults "style" block.span block.contentSpan block.content) ∧
      component.blockSpans.Pairwise Span.Apart ∧
      (component.scripts.map (·.span)).Pairwise Span.Before ∧
      (component.styles.map (·.span)).Pairwise Span.Before := by
  have separate := separate_parse source
  exact ⟨length_filter_le_one separate.unique, separate.scripts, separate.styles,
    separate.spread.apart, separate.scriptOrder, separate.styleOrder⟩

end Component

end Markup

end SfcJsx
