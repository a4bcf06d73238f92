import SfcJsx.Markup.Parser

/-!
What every walk keeps. A law says what holds of the reader, of an element that is open and of a
node; where the steps of reading keep to it, so does all that a walk reads.
-/

namespace SfcJsx.Markup

open List Reader

/-- Elements and nodes are looked at with whether the markup around them is literal. -/
structure WalkLaw where
  reads : Reader → Prop
  opens : Reader → Bool → OpenTag → Prop
  holds : Bool → Node → Prop
  stays {r next literal tag} (h : reads r) (goesOn : r.GoesOn next)
    (opened : opens r literal tag) : opens next literal tag
  report {r} (h : reads r) (kind : FaultKind) : reads (r.report kind)
  expectName {r} (h : reads r) : reads (r.advance.expect .name)
  passClosingTag {r} (h : reads r) (name : Text) : reads (r.passClosingTag name)
  skipClosingTag {r} (h : reads r) : reads r.skipClosingTag
  gap {r} (h : reads r) (literal : Bool) : ∀ node ∈ r.gap?, holds literal node
  text {r} (h : reads r) (literal : Bool) :
    reads (r.readText literal).2 ∧ holds literal (r.readText literal).1
  comment {r} (h : reads r) (kind : r.kind = .commentOpen) (literal : Bool) :
    reads r.readComment.2 ∧ ∀ node ∈ r.readComment.1, holds literal node
  interpolation {r} (h : reads r) (kind : r.kind = .interpolationOpen) :
    reads r.readInterpolation.2 ∧ holds false r.readInterpolation.1
  opening {r} (h : reads r) (kind : r.kind = .tagOpen) (literal : Bool) :
    ∀ next ∈ [(r.readOpenTag literal).2.advance, (r.readOpenTag literal).2.expect .tagClose],
      reads next ∧ opens next literal (r.readOpenTag literal).1
  element {r literal selfClosing} {tag : OpenTag} {children : List Node} (h : reads r)
    (opened : opens r literal tag) (below : ∀ child ∈ children, holds tag.literal child) :
    holds literal (.element (tag.tag r.tokenEnd selfClosing) children)

namespace WalkLaw

variable {law : WalkLaw} {root : Bool} {r next : Reader} {frame : Frame}
  {frames outer : List Frame} {nodes : List Node} {w : Walk}

/-- Open elements, innermost first, each open in the one around it. -/
inductive Nested (law : WalkLaw) (r : Reader) (root : Bool) : List Frame → Prop
  | root {frame : Frame} (literal : frame.literal = root)
      (children : ∀ child ∈ frame.children, law.holds root child) : Nested law r root [frame]
  | inner {frame parent : Frame} {outer : List Frame}
      (opened : law.opens r parent.literal frame.toOpenTag)
      (children : ∀ child ∈ frame.children, law.holds frame.literal child)
      (around : Nested law r root (parent :: outer)) : Nested law r root (frame :: parent :: outer)

theorem Nested.addAll (h : law.Nested r root (frame :: outer))
    (read : ∀ node ∈ nodes, law.holds frame.literal node) :
    law.Nested r root (frame.addAll nodes :: outer) := by
  cases h with
  | root literal children =>
    rw [literal] at read
    exact .root literal (forall_mem_append.2 ⟨children, read⟩)
  | inner opened children around =>
    exact .inner opened (forall_mem_append.2 ⟨children, read⟩) around

theorem Nested.goesOn (h : law.Nested r root frames) (reader : law.reads r)
    (goesOn : r.GoesOn next) : law.Nested next root frames := by
  induction h with
  | root literal children => exact .root literal children
  | inner opened children _ ih => exact .inner (law.stays reader goesOn opened) children ih

structure Keeps (law : WalkLaw) (root : Bool) (w : Walk) : Prop where
  reader : law.reads w.reader
  frames : law.Nested w.reader root (w.top :: w.outer)

def KeepsStep (law : WalkLaw) (root : Bool) : Walk.Step → Prop
  | .going next => law.Keeps root next
  | .done children reader => (∀ child ∈ children, law.holds root child) ∧ law.reads reader

section

variable (h : law.Keeps root w)

include h

theorem Keeps.goesOn (goesOn : w.reader.GoesOn next) : law.Nested next root (w.top :: w.outer) :=
  h.frames.goesOn h.reader goesOn

theorem Keeps.read (goesOn : w.reader.GoesOn next) (reader : law.reads next)
    (read : ∀ node ∈ nodes, law.holds w.top.literal node) :
    law.Keeps root ⟨next, w.top.addAll nodes, w.outer⟩ :=
  ⟨reader, (h.goesOn goesOn).addAll read⟩

theorem Keeps.addGap : law.Keeps root w.addGap := by
  unfold Walk.addGap
  split
  · exact h.read (.refl _) h.reader fun node member =>
      law.gap h.reader _ node (Option.mem_toList.1 member)
  · exact h

theorem Keeps.close : law.KeepsStep root w.close := by
  have reader := law.passClosingTag h.reader w.top.name
  have frames := h.goesOn (passes_passClosingTag w.reader w.top.name).goesOn
  unfold Walk.close
  split
  · next alone =>
    rw [alone] at frames
    cases frames with
    | root _ children => exact ⟨children, reader⟩
  · next around =>
    rw [around] at frames
    cases frames with
    | inner opened children around =>
      exact ⟨reader, around.addAll (forall_mem_singleton.2 (law.element reader opened children))⟩

theorem Keeps.enter (kind : w.reader.kind = .tagOpen) : law.Keeps root w.enter := by
  have tag := (passes_readOpenTag w.reader w.top.literal).of_advance
  obtain ⟨⟨advanced, selfClosed⟩, expected, opened⟩ : _ ∧ _ := by
    simpa using law.opening h.reader kind w.top.literal
  have expects := (tag.trans (passes_expect _ .tagClose)).of_advance.goesOn
  unfold Walk.enter
  split
  · exact ⟨law.expectName h.reader, h.goesOn (passes_expect _ _).of_advance.goesOn⟩
  · dsimp only
    split
    · exact h.read (tag.trans (passes_advance _)).of_advance.goesOn advanced
        (forall_mem_singleton.2 (law.element advanced selfClosed (by simp)))
    · split
      · exact h.read expects expected
          (forall_mem_singleton.2 (law.element expected opened (by simp)))
      · exact ⟨expected, .inner opened (by simp) (h.goesOn expects)⟩

theorem Keeps.dispatch : law.KeepsStep root w.dispatch := by
  have turn {next : Reader} (goesOn : w.reader.GoesOn next) (reader : law.reads next) :
      law.Keeps root ⟨next, w.top, w.outer⟩ := ⟨reader, h.goesOn goesOn⟩
  have reported (kind : FaultKind) := law.report h.reader kind
  refine Walk.dispatch_cases (turn (passes_report _ _).goesOn (reported _)).close
    (fun _ => h.close) (fun _ => turn ((passes_report _ _).trans
      (passes_skipClosingTag _).of_advance).goesOn (law.skipClosingTag (reported _)))
    h.enter (fun _ => ?_) (fun kind => ?_) fun kind outside => ?_
  · obtain ⟨reader, holds⟩ := law.text h.reader w.top.literal
    exact h.read (goesOn_readText _ _).of_advance reader (forall_mem_singleton.2 holds)
  · obtain ⟨reader, holds⟩ := law.comment h.reader kind w.top.literal
    exact h.read (passes_readComment _).of_advance.goesOn reader fun node member =>
      holds node (Option.mem_toList.1 member)
  · obtain ⟨reader, holds⟩ := law.interpolation h.reader kind
    exact h.read (passes_readInterpolation _).of_advance.goesOn reader
      (forall_mem_singleton.2 (outside ▸ holds))

theorem Keeps.run : law.KeepsStep root (.done w.run.1 w.run.2) := by
  fun_induction Walk.run w with
  | case1 w children reader step => exact step ▸ h.addGap.dispatch
  | case2 w next step ih =>
    have kept := h.addGap.dispatch
    rw [show w.addGap.dispatch = _ from step] at kept
    exact ih kept

end

theorem readTemplate (law : WalkLaw) (r : Reader)
    (checked : law.reads (r.readBlockTag.2.checkLanguage r.readBlockTag.1 r.offset)) :
    law.KeepsStep false (.done r.readTemplate.1.children r.readTemplate.2) := by
  unfold Reader.readTemplate
  dsimp only
  split
  · exact ⟨by simp, checked⟩
  · exact Keeps.run ⟨checked, .root rfl (by simp)⟩

end WalkLaw

end SfcJsx.Markup
