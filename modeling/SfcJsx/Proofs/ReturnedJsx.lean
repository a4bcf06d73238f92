import Mathlib.Data.List.Forall2
import SfcJsx.Conversion
import SfcJsx.Proofs.RenderSteps

/-!
What the render function of a module returns. A sibling list shows one unit for each of its groups
that is not white space. The unit of an element, an interpolation, a comment or a chain starts with
`<` or with a brace, that of a text node with neither; so the returned text is an element or a
fragment unless a text node is all that the template shows.
-/

namespace SfcJsx

open List Markup Placeholder SfcJsx.Module Render

namespace Text

variable {c : Char} {t : Text}

theorem mem_intercalate {separator word : Text} {words : List Text} (inside : word ∈ words)
    (member : c ∈ word) : c ∈ intercalate separator words := by
  induction words with
  | nil => cases inside
  | cons first rest ih =>
    cases rest with
    | nil => simpa [mem_singleton.1 inside] using member
    | cons second rest =>
      rw [intercalate_cons_cons]
      rcases mem_cons.1 inside with rfl | inside
      · exact mem_append_left _ (mem_append_left _ member)
      · exact mem_append_right _ (ih inside)

theorem mem_words (member : c ∈ t) (visible : isBlank c = false) :
    c ∈ intercalate " ".toList t.words := by
  have inWords : c ∈ t.words.flatten := by
    rw [flatten_words]
    exact mem_filter.2 ⟨member, by simp [visible]⟩
  obtain ⟨word, listed, here⟩ := mem_flatten.1 inWords
  exact mem_intercalate listed here

end Text

variable {mark : Char}

namespace Jsx

def IsBare (t : Text) : Prop := t.head? ≠ some '<' ∧ t.head? ≠ some '{'

section TextNodes

variable {c : Char} {data t : Text}

theorem not_mem_escapeChar (isMark : mark = '<' ∨ mark = '{') (c : Char) : mark ∉ escapeChar c := by
  unfold escapeChar
  repeat' split
  all_goals rcases isMark with rfl | rfl <;> simp_all [eq_comm]

theorem not_mem_edge (isMark : mark = '<' ∨ mark = '{') (blanks : Text) : mark ∉ edge blanks := by
  unfold edge
  split
  · exact not_mem_nil
  · rcases isMark with rfl | rfl <;> simp

theorem isBlankText_escape (member : c ∈ t) (visible : Text.isBlank c = false) :
    (escape t).isBlankText = false := by
  have shown : ∃ d ∈ escapeChar c, Text.isBlank d = false := by
    unfold escapeChar
    repeat' split
    all_goals first
      | exact ⟨c, mem_singleton_self c, visible⟩
      | exact ⟨'&', by simp, by decide⟩
  obtain ⟨d, inside, kept⟩ := shown
  exact isBlankText_eq_false (mem_flatMap.2 ⟨c, member, inside⟩) kept

theorem isBlankText_of_renderText (blank : data.isBlankText) (h : renderText data = some t) :
    t.isBlankText := by
  rw [renderText, if_pos blank] at h
  split at h
  · cases h
  · cases h
    decide

theorem exists_renderText (visible : data.isBlankText = false) :
    ∃ t, renderText data = some t ∧ t.isBlankText = false ∧ IsBare t := by
  refine ⟨_, by rw [renderText, if_neg (by simp [visible])], ?_, ?_⟩
  · obtain ⟨c, member, shown⟩ := all_eq_false.1 visible
    have inner := isBlankText_escape (Text.mem_words member (by simpa using shown))
      (by simpa using shown)
    obtain ⟨d, inside, kept⟩ := all_eq_false.1 inner
    exact isBlankText_eq_false (mem_append_left _ (mem_append_right _ inside)) (by simpa using kept)
  · have absent {mark : Char} (isMark : mark = '<' ∨ mark = '{') :
        mark ∉ edge data.leadingBlanks ++ escape (intercalate " ".toList data.words) ++
          edge data.trailingBlanks := by
      simp only [mem_append, escape, mem_flatMap, not_or, not_exists, not_and]
      exact ⟨⟨not_mem_edge isMark _, fun c _ => not_mem_escapeChar isMark c⟩, not_mem_edge isMark _⟩
    exact ⟨fun first => absent (.inl rfl) (mem_of_head? first),
      fun first => absent (.inr rfl) (mem_of_head? first)⟩

end TextNodes

namespace Group

def isBlank : Group → Bool
  | single node => node.isBlank
  | chain _ _ => false

def isText : Group → Bool
  | single (.text _ _) => true
  | _ => false

def shown (group : Group) : List Node := group.nodes.filter (!·.isBlank)

theorem shown_eq_nil_iff (group : Group) : group.shown = [] ↔ group.isBlank := by
  cases group with
  | single node => simp [shown, isBlank, Group.nodes]
  | chain first links => simp [shown, isBlank, Group.nodes, Branch.node, Node.isBlank]

theorem filter_eq_shown (nodes : List Node) :
    nodes.filter (!·.isBlank) = ((ofNodes nodes).filter (!·.isBlank)).flatMap shown := by
  have all (groups : List Group) : (groups.flatMap Group.nodes).filter (!·.isBlank) =
      (groups.filter (!·.isBlank)).flatMap shown := by
    induction groups with
    | nil => rfl
    | cons group groups ih =>
      rw [flatMap_cons, filter_append, ih]
      by_cases blank : group.isBlank
      · have none : group.nodes.filter (!·.isBlank) = [] := (shown_eq_nil_iff group).2 blank
        simp [none, blank]
      · simp [blank, shown]
  rw [← all, nodes_ofNodes]

theorem shown_eq_text_iff {group : Group} (visible : group.isBlank = false) :
    (∃ span data, group.shown = [.text span data]) ↔ group.isText := by
  cases group with
  | chain first links => simp [shown, isText, Group.nodes, Branch.node, Node.isBlank]
  | single node =>
    have only : (single node).shown = [node] := by
      rw [isBlank] at visible
      simp [shown, Group.nodes, visible]
    rw [only]
    cases node with
    | element | interpolation | comment => simp [isText]
    | text span data => simp [isText]

theorem flatMap_eq_singleton_iff {α β : Type} {f : α → List β} {items : List α}
    (filled : ∀ a ∈ items, f a ≠ []) {b : β} :
    items.flatMap f = [b] ↔ ∃ a, items = [a] ∧ f a = [b] := by
  constructor
  · intro only
    cases items with
    | nil => cases only
    | cons a items =>
      cases items with
      | nil => exact ⟨a, rfl, by simpa using only⟩
      | cons second items =>
        have first := length_pos_iff.2 (filled a mem_cons_self)
        have next := length_pos_iff.2 (filled second (mem_cons_of_mem _ mem_cons_self))
        have long := congrArg length only
        simp only [flatMap_cons, length_append, length_singleton] at long
        omega
  · rintro ⟨a, rfl, only⟩
    simpa using only

theorem shows_text_iff (nodes : List Node) :
    (∃ span data, nodes.filter (!·.isBlank) = [.text span data]) ↔
      ∃ group, (ofNodes nodes).filter (!·.isBlank) = [group] ∧ group.isText := by
  have visible : ∀ group ∈ (ofNodes nodes).filter (!·.isBlank), group.isBlank = false := by
    simp
  have filled : ∀ group ∈ (ofNodes nodes).filter (!·.isBlank), group.shown ≠ [] := by
    intro group member
    rw [Ne, shown_eq_nil_iff, visible group member]
    decide
  rw [filter_eq_shown]
  simp only [flatMap_eq_singleton_iff filled]
  constructor
  · rintro ⟨span, data, group, only, isText⟩
    have member : group ∈ (ofNodes nodes).filter (!·.isBlank) := by
      rw [only]
      exact mem_cons_self
    exact ⟨group, only, (shown_eq_text_iff (visible group member)).1 ⟨span, data, isText⟩⟩
  · rintro ⟨group, only, isText⟩
    have member : group ∈ (ofNodes nodes).filter (!·.isBlank) := by
      rw [only]
      exact mem_cons_self
    obtain ⟨span, data, same⟩ := (shown_eq_text_iff (visible group member)).2 isText
    exact ⟨span, data, group, only, same⟩

end Group

section Units

variable (element : ElementRenderer) (env : Environment) (found : Findings) {group : Group}
  {t : Text}

def Shows (group : Group) (unit : Text) : Prop := group.isText ↔ IsBare unit

theorem isBlankText_of_head? {c : Char} (first : t.head? = some c)
    (visible : Text.isBlank c = false) : t.isBlankText = false :=
  isBlankText_eq_false (mem_of_head? first) visible

theorem head?_asChild (t : Text) : (asChild t).head? = some '<' ∨ (asChild t).head? = some '{' := by
  unfold asChild
  split
  · next first => exact .inl first
  · exact .inr rfl

theorem isBlankText_of_markup (first : t.head? = some '<' ∨ t.head? = some '{') :
    t.isBlankText = false := by
  rcases first with first | first <;> exact isBlankText_of_head? first (by decide)

theorem not_isBare (first : t.head? = some '<' ∨ t.head? = some '{') : ¬ IsBare t := by
  rintro ⟨notTag, notBrace⟩
  exact first.elim notTag notBrace

theorem renderGroup_of_isBlank (blank : group.isBlank) :
    ∀ unit ∈ (renderGroup element group env found).1, unit.isBlankText := by
  cases group with
  | chain first links => cases blank
  | single node =>
    cases node with
    | element | interpolation | comment => cases blank
    | text span data => exact fun unit rendered => isBlankText_of_renderText blank rendered

theorem exists_renderGroup (visible : group.isBlank = false) :
    ∃ unit, (renderGroup element group env found).1 = some unit ∧ unit.isBlankText = false ∧
      Shows group unit := by
  have markup {unit : Text} (rendered : (renderGroup element group env found).1 = some unit)
      (first : unit.head? = some '<' ∨ unit.head? = some '{') (other : group.isText = false) :
      ∃ unit, (renderGroup element group env found).1 = some unit ∧ unit.isBlankText = false ∧
        Shows group unit :=
    ⟨unit, rendered, isBlankText_of_markup first, by simp [Shows, other, not_isBare first]⟩
  cases group with
  | chain first links => exact markup rfl (.inr rfl) rfl
  | single node =>
    cases node with
    | element tag children => exact markup rfl (head?_asChild _) rfl
    | interpolation | comment => exact markup rfl (.inr rfl) rfl
    | text span data =>
      obtain ⟨unit, rendered, shown, bare⟩ := exists_renderText visible
      exact ⟨unit, rendered, shown, by simp [Shows, Group.isText, bare]⟩

theorem shows_renderUnits (groups : List Group) :
    List.Forall₂ Shows (groups.filter (!·.isBlank))
      ((groups.filterMapM (renderGroup element) env found).1.filter (!·.isBlankText)) := by
  induction groups generalizing found with
  | nil => exact .nil
  | cons group groups ih =>
    have rest := ih (renderGroup element group env found).2
    have step : ((group :: groups).filterMapM (renderGroup element) env found).1 =
        (renderGroup element group env found).1.toList ++
          (groups.filterMapM (renderGroup element) env
            (renderGroup element group env found).2).1 := by
      rw [filterMapM_cons, bind_apply]
      cases (renderGroup element group env found).1 <;> rfl
    rw [step]
    by_cases blank : group.isBlank
    · have hidden := renderGroup_of_isBlank element env found blank
      rw [filter_cons_of_neg (by simp [blank])]
      cases rendered : (renderGroup element group env found).1 with
      | none => exact rest
      | some unit => simpa [hidden unit rendered] using rest
    · obtain ⟨unit, rendered, visible, shows⟩ :=
        exists_renderGroup element env found (by simpa using blank)
      rw [filter_cons_of_pos (by simpa using blank), rendered]
      simpa [visible] using List.Forall₂.cons shows rest

end Units

theorem head?_returned_iff (jsx : Text) : (returned jsx).head? = some '<' ↔ ¬ IsBare jsx := by
  unfold returned IsBare
  split
  · next brace => simp [brace]
  · next other => simp [other]

theorem head?_returned_renderTemplate (nodes : List Node) (env : Environment) (found : Findings) :
    (returned (renderTemplate nodes env found).1).head? = some '<' ↔
      ¬ ∃ span data, nodes.filter (!·.isBlank) = [.text span data] := by
  have shows := shows_renderUnits (renderElement (Node.depthOfList nodes)) env found
    (Group.ofNodes nodes)
  rw [Group.shows_text_iff]
  rw [renderTemplate, bind_apply]
  change List.Forall₂ Shows _ ((renderChildren nodes env found).1.filter (!·.isBlankText)) at shows
  generalize (renderChildren nodes env found).1.filter (!·.isBlankText) = units at shows ⊢
  generalize (Group.ofNodes nodes).filter (!·.isBlank) = groups at shows ⊢
  cases shows with
  | nil => simp [pure_apply, head?_returned_iff, IsBare]
  | @cons group unit groups units first rest =>
    cases rest with
    | nil => simpa [pure_apply, head?_returned_iff] using not_congr first.symm
    | cons => simp [pure_apply, head?_returned_iff, IsBare]

end Jsx

theorem Module.exists_assemble (parts : Parts) (f : Findings) :
    ∃ start, assemble parts f =
      start ++ "    return () => (\n      ".toList ++ returned parts.jsx ++
        "\n    );\n" ++ "  \x7d,\n\x7d);\n" ++ exportLines parts.setup.exports := by
  refine ⟨moduleStart parts f, ?_⟩
  unfold assemble renderFunction
  simp only [append_assoc]

/-- The JSX that the render function of a component returns. -/
def returnedJsx (c : Component) (o : ConversionOptions) : Text :=
  Module.returned ((Blocks.ofComponent c o).renderTemplate c o).1

/-- The module returns the text in parentheses, and it is an element or a fragment exactly when the
template does not show a text node and nothing else. -/
theorem returnedJsx_is_markup_iff (c : Component) (o : ConversionOptions) :
    (∃ start, (convertComponent c o).code =
      start ++ "    return () => (\n      ".toList ++ returnedJsx c o ++
        "\n    );\n" ++ "  \x7d,\n\x7d);\n" ++
        Module.exportLines (Blocks.ofComponent c o).setup.exports) ∧
    ((returnedJsx c o).head? = some '<' ↔
      ¬ ∃ span data, c.templateNodes.filter (!·.isBlank) = [.text span data]) := by
  constructor
  · exact Module.exists_assemble _ _
  · exact Jsx.head?_returned_renderTemplate _ _ _

/-- A template of bare text is read without faults and returned as it is. -/
theorem returnedJsx_bareText :
    (Component.parse "<template>hello</template>").2 = [] ∧
      returnedJsx (Component.parse "<template>hello</template>").1 {} = "hello" := by
  decide +kernel

end SfcJsx
