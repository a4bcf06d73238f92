import SfcJsx.Proofs.Identifiers
import SfcJsx.Proofs.IgnoredDirectives
import SfcJsx.Proofs.KeptWalks
import SfcJsx.Proofs.WrittenAttributes

/-!
Literal markup. Below an element with `v-pre` nothing is read as more than it is: no attribute is a
directive and no text an interpolation, at any depth. Directives on the element itself become plain
attributes again, under the name they were written with but for blanks at its end.
-/

namespace SfcJsx

open List Text

theorem Text.trimEnd_eq_self_iff {t : Text} : t.trimEnd = t ↔ t.getLast?.any isBlank = false := by
  rw [trimEnd, reverse_eq_iff, ← head?_reverse]
  refine ⟨fun same => ?_, dropWhile_of_head?⟩
  rw [← same]
  exact head?_dropWhile isBlank t.reverse

namespace Markup

open Token (isSkipped)

namespace Attribute

/-- An attribute of an element with `v-pre`: only `v-pre` itself is still a directive. -/
def IsDemoted (source : Text) (attr : Attribute) : Prop :=
  let written := PlainAttribute.written source attr.span
  match DirectiveName.parse? written.name with
  | some name =>
    if name.kind = .vPre then attr.IsDirective source name
    else attr = .plain { written with name := written.name.trim }
  | none => attr.IsLiteral source

theorem isOf_toLiteral (source : Text) (attr : Attribute) :
    (attr.toLiteral source).isOf .vPre = attr.isOf .vPre := by
  cases attr with
  | plain attr => rfl
  | directive d =>
    rw [toLiteral]
    split
    · rfl
    · next other => simp [isOf, directive?, other]

theorem isBlank_of_isSkipped {c : Char} (skipped : isSkipped c) : isBlank c := by
  simp only [isSkipped, Bool.or_eq_true, beq_iff_eq, or_assoc] at skipped
  rcases skipped with rfl | rfl | rfl | rfl <;> decide

theorem IsNamed.toLiteral {source : Text} {attr : Attribute} (h : attr.IsNamed source)
    (spelled : attr.IsSpelled source) : (attr.toLiteral source).IsDemoted source := by
  unfold IsNamed at h
  simp only [IsDemoted, span_toLiteral]
  cases found : DirectiveName.parse? (PlainAttribute.written source attr.span).name with
  | none =>
    rw [found] at h
    cases attr with
    | plain => exact h
    | directive => cases h
  | some name =>
    rw [found] at h
    cases attr with
    | plain => exact h.elim
    | directive d =>
      obtain ⟨rfl, value⟩ := h
      dsimp only [Attribute.toLiteral]
      split
      · exact ⟨rfl, value⟩
      · obtain ⟨gap, blank, text⟩ := spelled
        have name : trim ((d.span.slice source).takeWhile (· != '=')) =
            (PlainAttribute.written source d.span).name.trim := by
          have written : (d.span.slice source).takeWhile (· != '=') = _ := text
          rw [written]
          exact trim_append_blanks fun c member =>
            isBlank_of_isSkipped (all_eq_true.1 blank c member)
        rw [name, value]
        rfl

end Attribute

/-- The attributes of a tag in literal markup or outside of it, and whether its children are literal
markup. -/
structure OpensIn (source : Text) (literal : Bool) (attributes : List Attribute) (inner : Bool) :
    Prop where
  inner : inner = (literal || attributes.any (·.isOf .vPre))
  attributes : ∀ attr ∈ attributes,
    if literal then attr.IsLiteral source
    else if attributes.any (·.isOf .vPre) then attr.IsDemoted source
    else attr.IsNamed source

variable {r : Reader}

theorem Reader.GoesOn.readOpenTag {source : Text} (came : (Reader.ofSource source).GoesOn r)
    (literal : Bool) : OpensIn source literal (r.readOpenTag literal).1.attributes
      (r.readOpenTag literal).1.literal := by
  have same : r.source = source := came.source
  have behind := came.trans ((Reader.passes_advance r).trans (Reader.passes_advance _)).goesOn
  have read := behind.readAttributes literal
  cases literal with
  | true => exact ⟨rfl, fun attr member => (read attr member).1⟩
  | false =>
    have attributes : (r.readOpenTag false).1.attributes =
        if (r.advance.advance.readAttributes false).1.any (·.isOf .vPre)
        then (r.advance.advance.readAttributes false).1.map (·.toLiteral source)
        else (r.advance.advance.readAttributes false).1 := by
      rw [← same]
      rfl
    have inner : (r.readOpenTag false).1.literal =
      (r.advance.advance.readAttributes false).1.any (·.isOf .vPre) := rfl
    rw [attributes, inner]
    generalize (r.advance.advance.readAttributes false).1 = given at read ⊢
    cases pre : given.any (·.isOf .vPre) with
    | true =>
      have still : (given.map (·.toLiteral source)).any (·.isOf .vPre) := by
        simpa [Attribute.isOf_toLiteral] using pre
      refine ⟨by simp [still], ?_⟩
      simp only [if_true, still, forall_mem_map]
      intro attr member
      obtain ⟨named, spelled⟩ := read attr member
      exact named.toLiteral spelled
    | false =>
      refine ⟨by simp [pre], ?_⟩
      simp only [pre, Bool.false_eq_true, if_false]
      exact fun attr member => (read attr member).1

inductive Node.ReadIn (source : Text) : Bool → Node → Prop
  | text {literal : Bool} {span : Span} {data : Text} : ReadIn source literal (.text span data)
  | comment {literal : Bool} {span : Span} {data : Text} :
      ReadIn source literal (.comment span data)
  | interpolation {span : Span} {expression : Text} :
      ReadIn source false (.interpolation span expression)
  | element {literal inner : Bool} {tag : Tag} {children : List Node}
      (opens : OpensIn source literal tag.attributes inner)
      (below : ∀ child ∈ children, ReadIn source inner child) :
      ReadIn source literal (.element tag children)

/-- Elements open as the markup around them demands, and nodes are where they are read to be. -/
def literalLaw (source : Text) : WalkLaw where
  reads r := (Reader.ofSource source).GoesOn r
  opens _ literal tag := OpensIn source literal tag.attributes tag.literal
  holds := Node.ReadIn source
  stays _ _ opened := opened
  report came kind := came.trans (Reader.passes_report _ kind).goesOn
  expectName came := came.trans (Reader.passes_expect _ _).of_advance.goesOn
  passClosingTag came name := came.trans (Reader.passes_passClosingTag _ name).goesOn
  skipClosingTag came := came.trans (Reader.passes_skipClosingTag _).of_advance.goesOn
  gap _ _ := by
    unfold Reader.gap?
    split
    · rintro _ ⟨⟩
      exact .text
    · simp
  text came _ := ⟨came.trans (Reader.goesOn_readText _ _).of_advance, .text⟩
  comment came _ _ := by
    refine ⟨came.trans (Reader.passes_readComment _).of_advance.goesOn, ?_⟩
    unfold Reader.readComment
    dsimp only
    split
    · rintro _ ⟨⟩
      exact .comment
    · simp
  interpolation came _ := by
    refine ⟨came.trans (Reader.passes_readInterpolation _).of_advance.goesOn, ?_⟩
    unfold Reader.readInterpolation
    dsimp only
    split
    · exact .interpolation
    · exact .text
  opening came _ literal := by
    have read := came.trans (Reader.passes_readOpenTag _ literal).of_advance.of_advance.goesOn
    refine forall_mem_cons.2 ⟨⟨read.trans (Reader.passes_advance _).goesOn, ?_⟩,
      forall_mem_singleton.2 ⟨read.trans (Reader.passes_expect _ _).goesOn, ?_⟩⟩
    all_goals exact came.readOpenTag literal
  element _ opened below := .element opened below

theorem Reader.GoesOn.readTemplate {source : Text} (came : (Reader.ofSource source).GoesOn r) :
    ∀ node ∈ r.readTemplate.1.children, node.ReadIn source false :=
  have tag := (Reader.passes_readBlockTag r).of_advance.trans
    (Reader.passes_checkLanguage _ r.readBlockTag.1 r.offset)
  ((literalLaw source).readTemplate r (came.trans tag.goesOn)).1

namespace Component

theorem readIn_parse (source : Text) :
    ∀ node ∈ (parse source).1.templateNodes, node.ReadIn source false :=
  templateNodes_parse (P := fun nodes => ∀ node ∈ nodes, node.ReadIn source false) (by simp)
    fun _ came _ => came.readTemplate

end Component

section Below

namespace Node

/-- A node below some nodes, and the tags of the elements around it, innermost first. -/
inductive Below (nodes : List Node) : List Tag → Node → Prop
  | root {node : Node} (member : node ∈ nodes) : Below nodes [] node
  | child {around : List Tag} {tag : Tag} {children : List Node} {node : Node}
      (parent : Below nodes around (.element tag children)) (member : node ∈ children) :
      Below nodes (tag :: around) node

/-- A node that is no interpolation and has no directive, but attributes as they are written. -/
def IsLiteral (source : Text) : Node → Prop
  | element tag _ => ∀ attr ∈ tag.attributes, attr.IsLiteral source
  | interpolation _ _ => False
  | text _ _ | comment _ _ => True

end Node

theorem Tag.has_eq_any (tag : Tag) (kind : DirectiveKind) :
    tag.has kind = tag.attributes.any (·.isOf kind) := by
  rw [Bool.eq_iff_iff, Tag.has, Tag.directive?, find?_isSome, any_eq_true]
  constructor
  · rintro ⟨d, member, same⟩
    obtain ⟨attr, given, found⟩ := mem_filterMap.1 member
    exact ⟨attr, given, by rw [Attribute.isOf, found]; exact same⟩
  · rintro ⟨attr, given, same⟩
    obtain ⟨d, found, kind⟩ := (Option.any_eq_true _ _).1 same
    exact ⟨d, mem_filterMap.2 ⟨attr, given, found⟩, kind⟩

variable {source : Text} {nodes : List Node} {node : Node}

theorem Node.ReadIn.opens {literal : Bool} {tag : Tag} {children : List Node}
    (h : ReadIn source literal (.element tag children)) :
    ∃ inner, OpensIn source literal tag.attributes inner ∧
      ∀ child ∈ children, child.ReadIn source inner := by
  cases h with
  | element opens below => exact ⟨_, opens, below⟩

theorem Node.Below.readIn {around : List Tag} (h : Below nodes around node)
    (read : ∀ root ∈ nodes, root.ReadIn source false) :
    node.ReadIn source (around.any (·.has .vPre)) := by
  induction h with
  | root member => exact read _ member
  | child parent member ih =>
    obtain ⟨inner, opens, below⟩ := ih.opens
    have inside := below _ member
    rw [opens.inner, ← Tag.has_eq_any, Bool.or_comm] at inside
    rwa [any_cons]

theorem Node.ReadIn.isLiteral (h : node.ReadIn source true) : node.IsLiteral source := by
  cases h with
  | text | comment => trivial
  | element opens below => exact opens.attributes

end Below

theorem DirectiveName.head?_of_parse? {name : Text} (h : (parse? name).isSome) :
    name.head?.any isBlank = false := by
  unfold parse? at h
  split at h
  · rfl
  · rfl
  · rfl
  · rfl
  · rfl
  · cases h

namespace Component

/-- Below an element with `v-pre` all markup is literal, whatever the source holds. Of the
attributes of the element itself only `v-pre` is a directive; the others keep their value, and their
name as it is written unless it ends with a blank. Elsewhere an attribute is what its name says. -/
theorem literal_below_pre (source : Text) :
    let nodes := (parse source).1.templateNodes
    (∀ around node, Node.Below nodes around node → around.any (·.has .vPre) = true →
        node.IsLiteral source) ∧
      (∀ around tag children, Node.Below nodes around (.element tag children) →
        around.any (·.has .vPre) = false → ∀ attr ∈ tag.attributes,
          if tag.has .vPre then attr.IsDemoted source else attr.IsNamed source) ∧
      ∀ name, (DirectiveName.parse? name).isSome = true →
        (name.trim = name ↔ name.getLast?.any Text.isBlank = false) := by
  have read := readIn_parse source
  refine ⟨fun around node below literal => ?_, fun around tag children below outside => ?_, ?_⟩
  · have inside := below.readIn read
    rw [literal] at inside
    exact inside.isLiteral
  · obtain ⟨inner, opens, -⟩ := (below.readIn read).opens
    have attributes := opens.attributes
    rw [outside, ← Tag.has_eq_any] at attributes
    exact attributes
  · intro name accepted
    rw [Text.trim, Text.trimStart,
      Text.dropWhile_of_head? (DirectiveName.head?_of_parse? accepted), Text.trimEnd_eq_self_iff]

def paddedNames : Text :=
  "<template><p v-pre :id\u00a0=\"x\">\x7b\x7b a \x7d\x7d<b :id\u00a0=\"x\" /></p></template>"

/-- The blank at the end of a name gets lost on the element with `v-pre` only. -/
theorem literal_name_cut :
    (parse paddedNames).2 = [] ∧
      (parse paddedNames).1.tags.map (·.attributes) =
        [[.directive ⟨⟨13, 18⟩, .vPre, none, none, []⟩, .plain ⟨⟨19, 28⟩, ":id", some "x"⟩],
          [.plain ⟨⟨39, 48⟩, ":id\u00a0", some "x"⟩]] ∧
      (PlainAttribute.written paddedNames ⟨19, 28⟩).name = ":id\u00a0" := by
  decide +kernel

end Component

end Markup

end SfcJsx
