import SfcJsx.Conversion
import SfcJsx.Proofs.RenderNotes

/-!
No placeholder is lost on its way into the module. A step that leaves a fragment writes its
placeholder, the other steps record none, and what follows keeps the texts in which placeholders
stand; the module holds the text of the template as it is.
-/

namespace SfcJsx.Render

open List Text

variable {α : Type}

/-- The placeholders that a computation records, and those `owed` from before, stand in what it
writes. -/
def Keeps (owed : List Text) (write : α → List Text) (m : Render α) : Prop :=
  ∀ env found, ∃ added : List FallbackItem,
    (m env found).2.fallbackItems = found.fallbackItems ++ added ∧
      Kept (owed ++ added.map (·.placeholder)) (write (m env found).1)

theorem Notes.keeps {m : Render α} (h : Notes (fun _ => False) m) : Keeps [] (fun _ => []) m := by
  intro env found
  refine ⟨[], ?_, kept_nil []⟩
  have taken := h env found
  rw [append_nil]
  generalize (m env found).2 = last at taken ⊢
  induction taken with
  | refl => rfl
  | tail _ note ih =>
    rw [← ih]
    cases note with
    | fragment left => exact left.elim
    | once =>
      unfold Findings.warnOnce
      split <;> rfl
    | framework | warning | slots | special | list => rfl

theorem keeps : Steps (fun _ => True) Keeps where
  pure kept env found := ⟨[], (append_nil _).symm, by rwa [map_nil, append_nil]⟩
  bind {_ _ m g _ _ _} first later := by
    intro env found
    obtain ⟨added, recorded, kept⟩ := first env found
    obtain ⟨more, again, all⟩ := later _ _ kept env (m env found).2
    refine ⟨added ++ more, ?_, ?_⟩
    · calc ((m >>= g) env found).2.fallbackItems
          = (g (m env found).1 env (m env found).2).2.fallbackItems := rfl
        _ = found.fallbackItems ++ (added ++ more) := by rw [again, recorded, append_assoc]
    · have written : ((m >>= g) env found).1 = (g (m env found).1 env (m env found).2).1 := rfl
      rw [written, map_append]
      simpa using all
  qualify expression := (notes.qualify expression).keeps
  withScope names inside env := inside (env.push names)
  useFramework name := (notes.useFramework name).keeps
  warn message span := (notes.warn message span).keeps
  slots := notes.slots.keeps
  list := notes.list.keeps
  leave _ _ visible reason env found :=
    ⟨[.at env.source _ reason _], rfl, by simp [FallbackItem.at, visible], _, .refl _,
      placed_singleton_iff.2 (holds_singleton _)⟩
  look _ later env := later env env

end SfcJsx.Render

namespace SfcJsx

open Markup Render SfcJsx.Module

namespace Module

theorem fallbackItems_complete (parts : Parts) (f : Findings) :
    (complete parts f).fallbackItems = f.fallbackItems := by
  have computed (accessors : List Text) (f : Findings) :
      (accessors.foldl (fun f _ => f.useFramework "computed") f).fallbackItems =
        f.fallbackItems := by
    induction accessors generalizing f with
    | nil => rfl
    | cons _ _ ih => exact ih _
  unfold complete
  split <;> split <;> exact computed _ f

theorem holds_assemble (parts : Parts) (f : Findings) :
    Text.Holds [parts.jsx] (assemble parts f) := by
  have written : Text.Holds [parts.jsx] (renderFunction parts.jsx) := by
    unfold renderFunction returned
    split
    · exact (((Text.holds_singleton _).within _ _).within _ _)
    · exact (Text.holds_singleton _).within _ _
  exact ((written.after _).before _).before _

end Module

theorem fallbackItems_warnings (warnings : List Text) (f : Findings) :
    (warnings.foldl (fun f warning => f.warnAt warning none none) f).fallbackItems =
      f.fallbackItems := by
  induction warnings generalizing f with
  | nil => rfl
  | cons warning warnings ih => exact ih _

theorem kept_assemble {nodes : List Node} {env : Environment} {found : Findings} {parts : Parts}
    (fresh : found.fallbackItems = []) (jsx : parts.jsx = (Jsx.renderTemplate nodes env found).1) :
    let final := complete parts (Jsx.renderTemplate nodes env found).2
    Kept (final.fallbackItems.map (·.placeholder)) [assemble parts final] := by
  intro final
  obtain ⟨added, recorded, kept⟩ := keeps.renderTemplate (fun tag _ => tag.allSpans_true) env found
  have all : final.fallbackItems = added := by
    rw [fallbackItems_complete, recorded, fresh, List.nil_append]
  rw [all]
  rw [← jsx] at kept
  exact kept.inside (holds_assemble parts final)

theorem kept_convertComponent (c : Component) (o : ConversionOptions) :
    Kept ((convertComponent c o).fallbackItems.map (·.placeholder)) [(convertComponent c o).code] :=
  kept_assemble (fallbackItems_warnings _ _) rfl

theorem Kept.count_le {parts : List Text} {t sought : Text} (h : Kept parts [t]) :
    parts.count sought ≤ Text.occurrenceCount sought t := by
  by_cases empty : sought = []
  · have absent : sought ∉ parts := by
      intro member
      have shown := h.visible sought member
      rw [empty] at shown
      cases shown
    rw [List.count_eq_zero_of_not_mem absent]
    exact Nat.zero_le _
  · obtain ⟨order, reordered, placed⟩ := h.placed
    rw [← reordered.count_eq, Text.le_occurrenceCount_iff empty, ← List.filter_beq]
    exact (Text.placed_singleton_iff.1 placed).sublist List.filter_sublist

/-- All placeholders of a conversion stand in its code, side by side in some order; so for every
text the code has as many disjoint occurrences of it as there are items with that placeholder. -/
theorem convertComponent_keeps_placeholders (c : Component) (o : ConversionOptions) :
    (∃ order, order.Perm ((convertComponent c o).fallbackItems.map (·.placeholder)) ∧
      Text.Holds order (convertComponent c o).code) ∧
    ∀ placeholder, ((convertComponent c o).fallbackItems.filter
        (·.placeholder = placeholder)).length ≤
      Text.occurrenceCount placeholder (convertComponent c o).code := by
  have kept := kept_convertComponent c o
  constructor
  · obtain ⟨order, reordered, placed⟩ := kept.placed
    exact ⟨order, reordered, Text.placed_singleton_iff.1 placed⟩
  · intro placeholder
    have counted : ((convertComponent c o).fallbackItems.filter
        (·.placeholder = placeholder)).length =
          ((convertComponent c o).fallbackItems.map (·.placeholder)).count placeholder := by
      rw [List.count_eq_length_filter, List.filter_map, List.length_map]
      congr 2
      funext item
      exact Bool.eq_iff_iff.2 (by simp)
    rw [counted]
    exact kept.count_le

end SfcJsx
