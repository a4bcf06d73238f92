import SfcJsx.Proofs.KeptTemplate
import SfcJsx.Proofs.LineStarts
import SfcJsx.Proofs.ValidSpans

/-!
Where the fragments that a conversion leaves stand. A fragment is the text of a span of a tag, and
the line and column that are recorded with it lead back to where the span starts.
-/

namespace SfcJsx

open Markup

variable {source : Text}

namespace LineIndex

theorem exists_position? (short : source.width < UInt32.size) {offset : Nat}
    (inside : offset ≤ source.width) :
    ∃ p, (ofText source).position? offset = some p ∧
      (ofText source).offset? p = .ok (some offset) := by
  obtain ⟨s, early, first⟩ := exists_start (t := source) offset
  have starts := getElem?_starts.1 first
  have sum := Nat.add_sub_cancel' early
  exact ⟨⟨_, offset - s⟩, position?_eq_some_iff.2 ⟨inside, rfl, s, starts, sum⟩,
    (offset?_eq_some_iff short).2 ⟨inside, s, starts, sum⟩⟩

end LineIndex

/-- An item whose snippet is a part of the source that is not empty and stands at its line and
column. -/
def FallbackItem.PointsAtSnippet (source : Text) (item : FallbackItem) : Prop :=
  item.snippet ≠ [] ∧ ∃ line column, item.line = some line ∧ item.column = some column ∧
    ∃ before after, source = before ++ (item.snippet ++ after) ∧
      (LineIndex.ofText source).offset? ⟨line - 1, column - 1⟩ = .ok (some before.width)

theorem FallbackItem.pointsAtSnippet_at (short : source.width < UInt32.size) {span : Span}
    (isPart : span.IsPart source) (reason placeholder : Text) :
    (FallbackItem.at source span reason placeholder).PointsAtSnippet source := by
  obtain ⟨before, part, after, rfl, ne, rfl⟩ := isPart
  have inside : before.width ≤ (before ++ (part ++ after)).width := by simp
  obtain ⟨p, position, back⟩ := LineIndex.exists_position? short inside
  have snippet : Span.slice ⟨before.width, (before ++ part).width⟩ (before ++ (part ++ after)) =
      part := by
    rw [Span.slice, Text.width_append, ← List.append_assoc, Text.slice, Text.slice?_append]
    rfl
  unfold FallbackItem.at
  rw [snippet, position]
  exact ⟨ne, p.line + 1, p.column + 1, rfl, rfl, before, after, rfl, back⟩

theorem pointsAtSnippet_of_notes (short : source.width < UInt32.size) {f g : Findings}
    (notes : Relation.ReflTransGen (Note source (Span.IsPart source)) f g)
    (fresh : f.fallbackItems = []) : ∀ item ∈ g.fallbackItems, item.PointsAtSnippet source := by
  induction notes with
  | refl => simp [fresh]
  | tail _ note ih =>
    cases note with
    | framework | warning | slots | special | list => exact ih
    | once name message =>
      rw [Findings.warnOnce]
      split <;> exact ih
    | fragment isPart reason placeholder =>
      intro item member
      rcases List.mem_append.1 member with earlier | last
      · exact ih item earlier
      · rw [List.mem_singleton.1 last]
        exact FallbackItem.pointsAtSnippet_at short isPart reason placeholder

theorem pointsAtSnippet_of_located {c : Component} (short : c.source.width < UInt32.size)
    (located : Located c.source c.templateNodes) (o : ConversionOptions) :
    ∀ item ∈ (convertComponent c o).fallbackItems, item.PointsAtSnippet c.source := by
  have rendered : (convertComponent c o).fallbackItems =
      ((Blocks.ofComponent c o).renderTemplate c o).2.fallbackItems :=
    Module.fallbackItems_complete _ _
  have notes := Render.notes.renderTemplate located ((Blocks.ofComponent c o).environment c o)
    (Blocks.ofComponent c o).findings
  rw [rendered]
  exact pointsAtSnippet_of_notes short notes (fallbackItems_warnings _ _)

/-- Every fragment that the conversion of a source leaves, whatever faults the source has, is a part
of the source that is not empty, and its line and column lead to where that part stands. -/
theorem fallbackItems_point_at_snippet {source : Text} (short : source.width < UInt32.size)
    (o : ConversionOptions) :
    ∀ item ∈ (convertComponent (Component.parse source).1 o).fallbackItems,
      item.PointsAtSnippet source := by
  obtain ⟨same, located⟩ := Component.located_parse source
  have points := pointsAtSnippet_of_located (c := (Component.parse source).1)
    (by rwa [same]) (by rwa [same]) o
  rwa [same] at points

def unclosedSource : Text :=
  "<template>\n  <p v-focus>\n  é<b @[name]=go>\n <component :is=\"c\" v-memo='[a'/></template>"

theorem fallbackItems_point_at_snippet_unclosed :
    unclosedSource.width < UInt32.size ∧ (Component.parse unclosedSource).2 ≠ [] ∧
      (convertComponent (Component.parse unclosedSource).1 {}).fallbackItems.map
        (fun item => (item.snippet, item.line, item.column)) =
          [("<component :is=\"c\" v-memo='[a'/>".toList, some 4, some 2),
            ("@[name]=go".toList, some 3, some 8), ("v-focus".toList, some 2, some 6)] ∧
      ∀ item ∈ (convertComponent (Component.parse unclosedSource).1 {}).fallbackItems,
        item.PointsAtSnippet unclosedSource := by
  have short : unclosedSource.width < UInt32.size := by decide +kernel
  exact ⟨short, by decide +kernel, by decide +kernel, fallbackItems_point_at_snippet short {}⟩

end SfcJsx
