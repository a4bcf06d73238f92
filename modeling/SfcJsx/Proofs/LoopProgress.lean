import SfcJsx.Proofs.ValidSpans

/-!
Why reading a source ends. The measure is the number of tokens ahead: each turn of a loop leaves
fewer of them or leaves the loop, and the loop over the children of a nested element starts with
fewer than the turn that it is part of. Leaving a loop may keep all tokens, since an element whose
closing tag is missing leaves that of an outer element to its owner; but then an element less is
open, and in the end the owner passes the closing tag.
-/

namespace SfcJsx.Markup

open List Reader

variable {stop : Nat} {literal : Bool}

namespace Reader

variable {r : Reader}

/-- Reading goes on to an offset of the source, which lies behind the start of the current token. -/
def SeeksTo (r after : Reader) (stop : Nat) : Prop :=
  r.offset < stop ∧ after.tokens = (r.seek stop).tokens

section Seeking

theorem advance_seek (more : r.kind ≠ .endOfFile) (behind : r.offset < stop) :
    r.advance.seek stop = r.seek stop := by
  obtain ⟨token, tokens, ahead⟩ := exists_cons_of_ne_nil (tokens_ne_nil_of_kind more)
  have current : r.current = token := by simp [current, ahead]
  rw [offset, current] at behind
  simp [seek, skipWhile, advance, ahead, passWhile, behind]

theorem tokens_seek_report (more : r.kind ≠ .endOfFile) (behind : r.offset < stop)
    (kind : FaultKind) : ((r.report kind).advance.seek stop).tokens = (r.seek stop).tokens := by
  rw [advance_seek (r := r.report kind) more behind]
  rfl

variable {source : Text} (h : r.Sound source) (more : r.kind ≠ .endOfFile)

include h more

theorem Sound.offset_lt_width : r.offset < source.width := by
  obtain ⟨advanced, -⟩ := h.passes (passes_advance r)
  obtain ⟨before, rest, whole, place⟩ := advanced.tokenEnd
  have behind := (h.current more).2.2.1
  rw [whole, Text.width_append]
  omega

theorem Sound.seeksTo_readText (literal : Bool) :
    r.SeeksTo (r.readText literal).2 (r.readText literal).1.span.stop := by
  have inside := h.offset_lt_width more
  obtain ⟨⟨before, rest, whole, place⟩, -⟩ := h.current more
  have ahead : r.ahead r.offset = rest := by
    rw [place]
    exact ahead_of_source (h.same.trans whole)
  have first : rest ≠ [] := by
    rintro rfl
    rw [whole, append_nil] at inside
    omega
  obtain ⟨c, tail, rfl⟩ := exists_cons_of_ne_nil first
  have positive := c.utf8Size_pos
  have behind : r.offset < (r.readText literal).1.span.stop := by
    simp only [readText, Node.span, ahead, take_succ_cons, take_zero, cons_append, Text.width_cons]
    omega
  refine ⟨behind, ?_⟩
  rw [← advance_seek more behind]
  rfl

theorem Sound.seeksTo_readInterpolation :
    r.SeeksTo r.readInterpolation.2 r.readInterpolation.1.span.stop := by
  have inside := h.offset_lt_width more
  rw [← h.same] at inside
  unfold readInterpolation
  dsimp only
  split
  · have behind (width : Nat) : r.offset < r.offset + 2 + width + 2 := by omega
    refine ⟨behind _, ?_⟩
    rw [advance_seek more (behind _)]
    rfl
  · exact ⟨inside, tokens_seek_report more inside _⟩

theorem Sound.seeksTo_readComment : r.SeeksTo r.readComment.2
    ((r.readComment.1.map (·.span.stop)).getD r.source.width) := by
  have inside := h.offset_lt_width more
  rw [← h.same] at inside
  unfold readComment
  dsimp only
  split
  · have behind (width : Nat) : r.offset < r.offset + 4 + width + 3 := by omega
    refine ⟨behind _, ?_⟩
    rw [advance_seek more (behind _)]
    rfl
  · exact ⟨inside, tokens_seek_report more inside _⟩

end Seeking

/-- A turn of the loop over the attributes of a tag: the attributes it reads and the reader behind
them, or nothing where the loop ends. -/
def attributeTurn (r : Reader) (literal : Bool) : Option (List Attribute × Reader) :=
  let next := r.skipNewlines
  if endsTag next.kind then none
  else if next.kind = .name then
    some ([(next.readAttribute literal).1], (next.readAttribute literal).2)
  else if next.kind = .slash then some ([], next.advance)
  else some ([], (next.report (.unexpectedToken .attributeName next.kind)).advance)

theorem readAttributes_of_turn_none (ends : r.attributeTurn literal = none) :
    r.readAttributes literal = ([], r.skipNewlines) := by
  unfold attributeTurn at ends
  rw [readAttributes]
  split
  · rfl
  · next more =>
    rw [if_neg more] at ends
    split at ends
    · cases ends
    · split at ends <;> cases ends

theorem readAttributes_of_turn {attributes : List Attribute} {after : Reader}
    (turn : r.attributeTurn literal = some (attributes, after)) :
    after.tokens.length < r.tokens.length ∧ r.readAttributes literal =
      (attributes ++ (after.readAttributes literal).1, (after.readAttributes literal).2) := by
  unfold attributeTurn at turn
  dsimp only at turn
  rw [readAttributes]
  have shrinks := (passes_skipNewlines r).goesOn.length_le
  split at turn
  · cases turn
  · next more =>
    have passes : r.skipNewlines.advance.tokens.length < r.skipNewlines.tokens.length := by
      apply length_advance_lt
      intro atEnd
      simp [endsTag, atEnd] at more
    rw [dif_neg more]
    split at turn
    · next named =>
      cases turn
      rw [if_pos named]
      have read := (passes_readAttribute r.skipNewlines literal).goesOn.length_le
      exact ⟨by omega, rfl⟩
    · next named =>
      rw [if_neg named]
      split at turn
      · next slash =>
        cases turn
        rw [if_pos slash]
        exact ⟨by omega, rfl⟩
      · next slash =>
        cases turn
        rw [if_neg slash]
        rw [tokens_advance] at passes ⊢
        rw [tokens_report]
        exact ⟨by omega, rfl⟩

theorem skipWhile_turn (r : Reader) {sort : Token → Bool}
    (bounded : ∀ token, sort token → token.kind ≠ .endOfFile) :
    if sort r.current then
      r.advance.tokens.length < r.tokens.length ∧ r.skipWhile sort = r.advance.skipWhile sort
    else r.skipWhile sort = r := by
  rcases ahead : r.tokens with - | ⟨token, tokens⟩
  · have current : sort r.current = false := by
      rw [Bool.eq_false_iff]
      intro sorted
      exact bounded _ sorted (by simp [current, ahead])
    rw [current, if_neg (by simp), skipWhile, ahead]
    simp only [passWhile]
    rw [← ahead]
  · have current : r.current = token := by simp [current, ahead]
    rw [current]
    split
    · next sorted => simp [skipWhile, advance, ahead, passWhile, sorted]
    · next sorted =>
      rw [skipWhile, ahead, passWhile, if_neg sorted]
      rw [← ahead]

def inClosingTag (token : Token) : Bool := token.kind ≠ .tagClose ∧ token.kind ≠ .endOfFile

theorem skipClosingTag_eq (r : Reader) : r.skipClosingTag =
    if (r.advance.skipWhile inClosingTag).kind = .tagClose
    then (r.advance.skipWhile inClosingTag).advance else r.advance.skipWhile inClosingTag := rfl

theorem kind_of_inClosingTag {token : Token} (inside : inClosingTag token) :
    token.kind ≠ .endOfFile := by
  simp only [inClosingTag, decide_eq_true_eq] at inside
  exact inside.2

theorem length_skipClosingTag_lt (more : r.kind ≠ .endOfFile) :
    r.skipClosingTag.tokens.length < r.tokens.length :=
  (passes_skipClosingTag r).goesOn.length_lt more

theorem length_passClosingTag_lt {name : Text} (closes : r.kind = .closingOpen)
    (named : r.nextName = name) : (r.passClosingTag name).tokens.length < r.tokens.length := by
  rw [passClosingTag, if_pos (by simp [closes, named])]
  exact ((passes_skipNewlines _).trans (passes_expect _ _)).of_advance.goesOn.length_lt
    (by simp [closes])

theorem length_readBlockTag_lt (more : r.kind ≠ .endOfFile) :
    r.readBlockTag.2.tokens.length < r.tokens.length :=
  (passes_readBlockTag r).goesOn.length_lt more

end Reader

namespace Walk

variable {w last : Walk}

/-- What a step does to the loops over children: it is a turn of the innermost loop, starts the loop
of a nested element, or leaves the innermost loop, to that of the parent if there is one. -/
inductive Turn (w : Walk) : Step → Prop
  | stays {next : Walk} (top : next.top.toOpenTag = w.top.toOpenTag) (outer : next.outer = w.outer)
      (fewer : next.reader.tokens.length < w.reader.tokens.length) : Turn w (.going next)
  | nests {next : Walk} {parent : Frame} (top : parent.toOpenTag = w.top.toOpenTag)
      (outer : next.outer = parent :: w.outer)
      (fewer : next.reader.tokens.length < w.reader.tokens.length) : Turn w (.going next)
  | leaves {next : Walk} {parent : Frame} (top : next.top.toOpenTag = parent.toOpenTag)
      (outer : w.outer = parent :: next.outer)
      (kept : next.reader.tokens.length ≤ w.reader.tokens.length) : Turn w (.going next)
  | ends {children : List Node} {reader : Reader} (outer : w.outer = [])
      (kept : reader.tokens.length ≤ w.reader.tokens.length) : Turn w (.done children reader)

theorem Turn.of_same {start : Walk} {step : Step} (h : start.Turn step)
    (tokens : start.reader.tokens = w.reader.tokens) (top : start.top.toOpenTag = w.top.toOpenTag)
    (outer : start.outer = w.outer) : w.Turn step := by
  cases h with
  | stays same inside fewer => exact .stays (same.trans top) (inside.trans outer) (tokens ▸ fewer)
  | nests same inside fewer => exact .nests (same.trans top) (outer ▸ inside) (tokens ▸ fewer)
  | leaves same inside kept => exact .leaves same (outer ▸ inside) (tokens ▸ kept)
  | ends inside kept => exact .ends (outer ▸ inside) (tokens ▸ kept)

theorem turn_close (w : Walk) : w.Turn w.close := by
  have kept := (passes_passClosingTag w.reader w.top.name).goesOn.length_le
  unfold close
  split
  · next outermost => exact .ends outermost kept
  · next parent outer nested =>
    have same : (parent.add (w.top.element (w.reader.passClosingTag w.top.name).tokenEnd)).toOpenTag
      = parent.toOpenTag := rfl
    exact .leaves same nested kept

theorem turn_abandon (w : Walk) : w.Turn w.abandon :=
  (turn_close { w with reader := w.reader.report (.unclosedTag w.top.name) }).of_same rfl rfl rfl

theorem turn_enter (opens : w.reader.kind = .tagOpen) : w.Turn (.going w.enter) := by
  have fewer := (passes_enter w).goesOn.length_lt (by simp [opens])
  have kept : w.enter.top.toOpenTag = w.top.toOpenTag ∧ w.enter.outer = w.outer ∨
      w.enter.outer = w.top :: w.outer := by
    unfold enter
    split
    · exact .inl ⟨rfl, rfl⟩
    · dsimp only
      split
      · exact .inl ⟨rfl, rfl⟩
      · split
        · exact .inl ⟨rfl, rfl⟩
        · exact .inr rfl
  rcases kept with ⟨top, outer⟩ | outer
  · exact .stays top outer fewer
  · have same : w.top.toOpenTag = w.top.toOpenTag := rfl
    exact .nests same outer fewer

section

variable (more : w.reader.kind ≠ .endOfFile)

include more

theorem turn_addText : w.Turn (.going w.addText) :=
  .stays rfl rfl ((goesOn_readText _ _).length_lt more)

theorem turn_addInterpolation : w.Turn (.going w.addInterpolation) :=
  .stays rfl rfl ((passes_readInterpolation _).goesOn.length_lt more)

theorem turn_addComment : w.Turn (.going w.addComment) :=
  .stays rfl rfl ((passes_readComment _).goesOn.length_lt more)

end

theorem turn_dispatch (w : Walk) : w.Turn w.dispatch := by
  refine dispatch_cases (turn_abandon w) (fun _ => turn_close w) (fun closes => ?_) turn_enter
    turn_addText (fun opens => turn_addComment (by simp [opens]))
    fun opens _ => turn_addInterpolation (by simp [opens])
  have more : (w.reader.report (.strayClosingTag w.reader.nextName)).kind ≠ .endOfFile := by
    change w.reader.kind ≠ .endOfFile
    simp [closes]
  exact .stays rfl rfl (length_skipClosingTag_lt more)

theorem turn_step (w : Walk) : w.Turn w.step :=
  (turn_dispatch w.addGap).of_same (by simp) (by simp) (by simp)

section Returns

/-- Steps from one walk to another during which some elements stay open as they are. -/
inductive Reaches (kept : List Frame) : Nat → Walk → Walk → Prop
  | refl {w : Walk} (inside : kept <:+ w.outer) : Reaches kept 0 w w
  | step {n : Nat} {w next last : Walk} (inside : kept <:+ w.outer) (step : w.step = .going next)
      (rest : Reaches kept n next last) : Reaches kept (n + 1) w last

theorem Reaches.inside {kept : List Frame} {n : Nat} (h : Reaches kept n w last) :
    kept <:+ w.outer := by
  cases h with
  | refl inside => exact inside
  | step inside => exact inside

/-- From within an element of the loop of `parent`, steps lead to the walk `last` that closes the
element, and the loop goes on at `next`. -/
structure Returns (w : Walk) (parent : Frame) (outer : List Frame) (n : Nat) (last next : Walk) :
    Prop where
  steps : Reaches (parent :: outer) n w last
  innermost : last.outer = parent :: outer
  closes : last.step = .going next
  outer : next.outer = outer
  top : next.top.toOpenTag = parent.toOpenTag
  kept : next.reader.tokens.length ≤ w.reader.tokens.length

variable {parent : Frame}

theorem exists_returns {outer : List Frame} (inside : parent :: outer <:+ w.outer) :
    ∃ n last next, w.Returns parent outer n last next := by
  induction size : w.size using Nat.strong_induction_on generalizing w with
  | _ bound ih =>
    have turn := turn_step w
    cases step : w.step with
    | done children reader =>
      rw [step] at turn
      cases turn with
      | ends outermost =>
        rw [outermost] at inside
        simpa using inside.length_le
    | going next =>
      have smaller : next.size < bound := size ▸ size_lt_of_step step
      -- Unless the step closes the element itself, the loop of the parent is still waiting.
      have waits (still : parent :: outer <:+ next.outer)
          (fewer : next.reader.tokens.length ≤ w.reader.tokens.length) :
          ∃ n last back, w.Returns parent outer n last back := by
        obtain ⟨n, last, back, later⟩ := ih next.size smaller still rfl
        exact ⟨n + 1, last, back, { later with
          steps := .step inside step later.steps
          kept := Nat.le_trans later.kept fewer }⟩
      rw [step] at turn
      cases turn with
      | stays top same fewer => exact waits (same ▸ inside) (Nat.le_of_lt fewer)
      | nests top below fewer =>
        exact waits (below ▸ inside.trans (suffix_cons _ _)) (Nat.le_of_lt fewer)
      | leaves top above kept =>
        rw [above] at inside
        rcases suffix_cons_iff.1 inside with here | deeper
        · cases here
          exact ⟨0, w, next, .refl (above ▸ suffix_refl _), above, step, rfl, top, kept⟩
        · exact waits deeper kept

theorem exists_returns_of_nests {inner : Walk} (step : w.step = .going inner)
    (nested : inner.outer = parent :: w.outer) :
    ∃ n last next, inner.Returns parent w.outer n last next ∧
      next.top.toOpenTag = w.top.toOpenTag ∧
      next.reader.tokens.length < w.reader.tokens.length := by
  have inside : parent :: w.outer <:+ inner.outer := nested ▸ suffix_refl _
  obtain ⟨n, last, next, returns⟩ := exists_returns inside
  have turn := turn_step w
  rw [step] at turn
  cases turn with
  | stays top outer fewer => simp [outer] at nested
  | nests top outer fewer =>
    obtain ⟨rfl, -⟩ := cons.inj (nested.symm.trans outer)
    exact ⟨n, last, next, returns, returns.top.trans top, Nat.lt_of_le_of_lt returns.kept fewer⟩
  | leaves top outer kept =>
    rw [outer] at nested
    have lengths := congrArg length nested
    simp only [length_cons] at lengths
    omega

theorem exists_done (w : Walk) :
    ∃ n last, n ≤ w.size ∧ Reaches [] n w last ∧ last.step = .done w.run.1 w.run.2 := by
  fun_induction run w with
  | case1 w children reader step =>
    exact ⟨0, w, Nat.zero_le _, .refl nil_suffix, step⟩
  | case2 w next step ih =>
    obtain ⟨n, last, bound, reaches, ends⟩ := ih
    have smaller := size_lt_of_step step
    exact ⟨n + 1, last, by omega, .step nil_suffix step reaches, ends⟩

end Returns

section ClosingTags

theorem step_of_closing (closes : w.reader.kind = .closingOpen)
    (named : w.reader.nextName = w.top.name) : w.step = w.addGap.close := by
  simp [step, dispatch, closes, named]

variable {parent : Frame} {outer : List Frame}

theorem step_of_closing_outer (closes : w.reader.kind = .closingOpen)
    (other : w.reader.nextName ≠ w.top.name) (nested : w.outer = parent :: outer)
    (opened : ∃ frame ∈ parent :: outer, frame.name = w.reader.nextName) :
    ∃ next, w.step = .going next ∧ next.top.toOpenTag = parent.toOpenTag ∧ next.outer = outer ∧
      next.reader.tokens = w.reader.tokens ∧ next.reader.source = w.reader.source := by
  have same : w.addGap.top.name = w.top.name := congrArg OpenTag.name (toOpenTag_addGap w)
  have found : (w.outer.any fun frame => frame.name = w.reader.nextName) := by
    rw [nested]
    simpa using opened
  have ahead : (w.reader.report (.unclosedTag w.top.name)).passClosingTag w.top.name =
      w.reader.report (.unclosedTag w.top.name) := by
    have unnamed : (w.reader.report (.unclosedTag w.top.name)).nextName ≠ w.top.name := other
    rw [passClosingTag]
    simp [unnamed]
  have step : w.step = w.addGap.abandon := by
    simp [step, dispatch, closes, other, found]
  rw [step, abandon, close]
  simp only [reader_addGap, outer_addGap, nested, same, ahead]
  exact ⟨_, rfl, rfl, rfl, rfl, rfl⟩

/-- The innermost open element that the closing tag ahead names. The steps close the elements
`skipped` in it, which keeps all tokens, and then the element itself, which passes the tag. -/
structure Owned (w : Walk) (skipped : List OpenTag) (owner : OpenTag) (outer : List Frame)
    (last : Walk) : Prop where
  opened : (w.top :: w.outer).map (·.toOpenTag) = skipped ++ owner :: outer.map (·.toOpenTag)
  others : ∀ tag ∈ skipped, tag.name ≠ w.reader.nextName
  named : owner.name = w.reader.nextName
  steps : Reaches outer skipped.length w last
  top : last.top.toOpenTag = owner
  outer : last.outer = outer
  kept : last.reader.tokens = w.reader.tokens
  closes : last.step = last.addGap.close
  passed : last.step.reader.tokens.length < w.reader.tokens.length

theorem owned_of_named (closes : w.reader.kind = .closingOpen)
    (named : w.reader.nextName = w.top.name) : w.Owned [] w.top.toOpenTag w.outer w where
  opened := rfl
  others := by simp
  named := named.symm
  steps := .refl (suffix_refl _)
  top := rfl
  outer := rfl
  kept := rfl
  closes := step_of_closing closes named
  passed := by
    have same : w.addGap.top.name = w.top.name := congrArg OpenTag.name (toOpenTag_addGap w)
    rw [step_of_closing closes named, reader_close, reader_addGap, same]
    exact length_passClosingTag_lt closes named

theorem Owned.of_step {next : Walk} {skipped : List OpenTag} {owner : OpenTag}
    (h : next.Owned skipped owner outer last) (step : w.step = .going next)
    (nested : w.outer = parent :: next.outer) (top : next.top.toOpenTag = parent.toOpenTag)
    (tokens : next.reader.tokens = w.reader.tokens)
    (name : next.reader.nextName = w.reader.nextName) (other : w.reader.nextName ≠ w.top.name) :
    w.Owned (w.top.toOpenTag :: skipped) owner outer last where
  opened := by
    rw [nested, cons_append, ← h.opened]
    simp [top]
  others := forall_mem_cons.2 ⟨other.symm, name ▸ h.others⟩
  named := name ▸ h.named
  steps := .step (nested ▸ h.steps.inside.trans (suffix_cons _ _)) step h.steps
  top := h.top
  outer := h.outer
  kept := h.kept.trans tokens
  closes := h.closes
  passed := tokens ▸ h.passed

theorem exists_owned (closes : w.reader.kind = .closingOpen)
    (opened : ∃ frame ∈ w.top :: w.outer, frame.name = w.reader.nextName) :
    ∃ skipped owner outer last, w.Owned skipped owner outer last := by
  -- The elements that are open get fewer with each step, until the owner is the innermost one.
  induction nested : w.outer generalizing w with
  | nil =>
    obtain ⟨frame, member, here⟩ := opened
    rw [nested, mem_singleton] at member
    exact ⟨_, _, _, _, owned_of_named closes (member ▸ here.symm)⟩
  | cons parent rest ih =>
    by_cases named : w.reader.nextName = w.top.name
    · exact ⟨_, _, _, _, owned_of_named closes named⟩
    · obtain ⟨frame, member, here⟩ := opened
      rw [nested] at member
      have outer : frame ∈ parent :: rest := by
        rcases mem_cons.1 member with rfl | outer
        · exact absurd here.symm named
        · exact outer
      obtain ⟨next, step, top, below, tokens, source⟩ :=
        step_of_closing_outer closes named nested ⟨frame, outer, here⟩
      have name : next.reader.nextName = w.reader.nextName := by
        rw [nextName, tokens, source, nextName]
      have kind : next.reader.kind = w.reader.kind := by
        rw [kind, current, tokens, source, kind, current]
      have still : ∃ frame ∈ next.top :: next.outer, frame.name = next.reader.nextName := by
        rw [below, name]
        rcases mem_cons.1 outer with rfl | deeper
        · exact ⟨next.top, mem_cons_self, (congrArg OpenTag.name top).trans here⟩
        · exact ⟨frame, mem_cons_of_mem _ deeper, here⟩
      obtain ⟨skipped, owner, around, last, owned⟩ := ih (kind.trans closes) still below
      exact ⟨_, _, _, _, owned.of_step step (below ▸ nested) top tokens name named⟩

end ClosingTags

end Walk

namespace Component

theorem kind_readAll (component : Component) (r : Reader) :
    (component.readAll r).2.kind = .endOfFile := by
  fun_induction readAll component r with
  | case1 component r atEnd => exact atEnd
  | case2 component r more next ih => exact ih

theorem length_readNext_lt (component : Component) {r : Reader} (more : r.kind ≠ .endOfFile) :
    (component.readNext r).2.tokens.length < r.tokens.length :=
  (goesOn_readNext component r).length_lt more

end Component

/-- The loops of a reader. Each turn of the loop over the blocks of a document, the attributes of a
tag or the tokens of a closing tag that is skipped leaves the loop or fewer tokens. -/
structure Reader.Progresses (r : Reader) (component : Component) (literal : Bool) : Prop where
  block : if r.kind = .endOfFile then component.readAll r = (component, r)
    else (component.readNext r).2.tokens.length < r.tokens.length ∧
      component.readAll r = (component.readNext r).1.readAll (component.readNext r).2
  lastBlock : (component.readAll r).2.kind = .endOfFile
  lastAttribute : r.attributeTurn literal = none →
    r.readAttributes literal = ([], r.skipNewlines)
  nextAttribute : ∀ attributes after, r.attributeTurn literal = some (attributes, after) →
    after.tokens.length < r.tokens.length ∧ r.readAttributes literal =
      (attributes ++ (after.readAttributes literal).1, (after.readAttributes literal).2)
  skipped : if inClosingTag r.current then r.advance.tokens.length < r.tokens.length ∧
      r.skipWhile inClosingTag = r.advance.skipWhile inClosingTag
    else r.skipWhile inClosingTag = r
  closingTag : r.skipClosingTag =
    if (r.advance.skipWhile inClosingTag).kind = .tagClose
    then (r.advance.skipWhile inClosingTag).advance else r.advance.skipWhile inClosingTag
  tag : r.kind ≠ .endOfFile → r.skipClosingTag.tokens.length < r.tokens.length ∧
    r.readBlockTag.2.tokens.length < r.tokens.length
  seeking : ∀ source, r.Sound source → r.kind ≠ .endOfFile →
    r.SeeksTo (r.readText literal).2 (r.readText literal).1.span.stop ∧
      r.SeeksTo r.readInterpolation.2 r.readInterpolation.1.span.stop ∧
      r.SeeksTo r.readComment.2 ((r.readComment.1.map (·.span.stop)).getD r.source.width)

/-- The loops over children. The loop of a nested element starts with fewer tokens and comes back
with fewer, a walk ends, and a closing tag is passed by the element that owns it. -/
structure Walk.Progresses (w : Walk) : Prop where
  turn : w.Turn w.step
  nested : ∀ inner parent, w.step = .going inner → inner.outer = parent :: w.outer →
    ∃ n last next, inner.Returns parent w.outer n last next ∧
      next.top.toOpenTag = w.top.toOpenTag ∧
      next.reader.tokens.length < w.reader.tokens.length
  done : ∃ n last, n ≤ w.size ∧ Reaches [] n w last ∧ last.step = .done w.run.1 w.run.2
  closingTag : w.reader.kind = .closingOpen →
    (∃ frame ∈ w.top :: w.outer, frame.name = w.reader.nextName) →
    ∃ skipped owner outer last, w.Owned skipped owner outer last

/-- Reading ends, since all its loops go on. -/
theorem reading_makes_progress (component : Component) (r : Reader) (w : Walk) (literal : Bool) :
    r.Progresses component literal ∧ w.Progresses := by
  refine ⟨{
    block := ?_
    lastBlock := component.kind_readAll r
    lastAttribute := Reader.readAttributes_of_turn_none
    nextAttribute := fun _ _ => Reader.readAttributes_of_turn
    skipped := r.skipWhile_turn fun _ => Reader.kind_of_inClosingTag
    closingTag := r.skipClosingTag_eq
    tag := fun more => ⟨Reader.length_skipClosingTag_lt more, Reader.length_readBlockTag_lt more⟩
    seeking := fun source sound more => ⟨sound.seeksTo_readText more literal,
      sound.seeksTo_readInterpolation more, sound.seeksTo_readComment more⟩ },
    w.turn_step, fun _ _ => Walk.exists_returns_of_nests, w.exists_done, Walk.exists_owned⟩
  split
  · next atEnd => rw [Component.readAll, dif_pos atEnd]
  · next more => exact ⟨component.length_readNext_lt more, by rw [Component.readAll, dif_neg more]⟩

end SfcJsx.Markup
