import SfcJsx.Proofs.DisjointParts
import SfcJsx.Session.Placeholder

/-!
Texts that stand, side by side, in what is written. Placeholders are never blank, so they stay where
only blank texts are left out.
-/

namespace SfcJsx

open List Text
open Text (Holds Placed)

/-- Visible texts that stand in some units, in some order. -/
structure Kept (parts units : List Text) : Prop where
  visible : ∀ part ∈ parts, part.isBlankText = false
  placed : ∃ order : List Text, order.Perm parts ∧ Placed order units

section Kept

variable {parts more units others : List Text} {t : Text}

theorem kept_nil (units : List Text) : Kept [] units := ⟨by simp, [], .refl _, placed_nil units⟩

theorem Kept.eq_nil (h : Kept parts []) : parts = [] := by
  obtain ⟨order, reordered, placed⟩ := h.placed
  cases placed
  exact reordered.nil_eq.symm

theorem Kept.perm (h : Kept parts units) (same : parts.Perm more) : Kept more units := by
  obtain ⟨order, reordered, placed⟩ := h.placed
  exact ⟨fun part member => h.visible part (same.mem_iff.2 member), order,
    reordered.trans same, placed⟩

theorem Kept.append (first : Kept parts units) (second : Kept more others) :
    Kept (parts ++ more) (units ++ others) := by
  obtain ⟨order, reordered, placed⟩ := first.placed
  obtain ⟨later, moved, settled⟩ := second.placed
  refine ⟨?_, order ++ later, reordered.append moved, placed.append settled⟩
  intro part member
  rcases mem_append.1 member with member | member
  · exact first.visible part member
  · exact second.visible part member

theorem Kept.inside (h : Kept parts units) (holds : Holds units t) : Kept parts [t] := by
  obtain ⟨order, reordered, placed⟩ := h.placed
  exact ⟨h.visible, order, reordered, placed_singleton_iff.2 (placed.holds holds)⟩

theorem Kept.within (h : Kept parts [t]) (lead tail : Text) : Kept parts [lead ++ t ++ tail] :=
  h.inside ((holds_singleton t).within lead tail)

theorem eq_nil_of_visible {here : List Text} (blank : t.isBlankText) (holds : Holds here t)
    (visible : ∀ part ∈ here, part.isBlankText = false) : here = [] := by
  rw [eq_nil_iff_forall_not_mem]
  intro part member
  have shown := visible part member
  rw [holds.isBlankText blank part member] at shown
  cases shown

theorem Kept.filter {keeps : Text → Bool} (h : Kept parts units)
    (blank : ∀ unit, keeps unit = false → unit.isBlankText) : Kept parts (units.filter keeps) := by
  obtain ⟨order, reordered, placed⟩ := h.placed
  refine ⟨h.visible, order, reordered, placed.filter ?_⟩
  intro unit here gone holds subset
  exact eq_nil_of_visible (blank unit gone) holds fun part member =>
    h.visible part (reordered.mem_iff.1 (subset member))

end Kept

namespace Placeholder

theorem isBlankText_eq_false {c : Char} {t : Text} (inside : c ∈ t)
    (visible : isBlank c = false) : t.isBlankText = false := by
  rw [isBlankText, all_eq_false]
  exact ⟨c, inside, by simp [visible]⟩

theorem slash_mem_inTag (tool reason snippet : Text) : '/' ∈ inTag tool reason snippet :=
  mem_append_right _ (by decide)

theorem isBlankText_inTag (tool reason snippet : Text) :
    (inTag tool reason snippet).isBlankText = false :=
  isBlankText_eq_false (slash_mem_inTag tool reason snippet) (by decide)

theorem lines_ne_nil {t : Text} (ne : t ≠ []) : t.lines ≠ [] := by
  obtain ⟨c, rest, rfl⟩ := exists_cons_of_ne_nil ne
  obtain ⟨piece, pieces, read⟩ := @exists_fields_cons (· == '\n') rest
  rw [lines, fields, read]
  by_cases broken : c = '\n' <;> cases pieces <;> simp [broken, getLast?_cons] <;> split <;> simp

theorem isBlankText_asChild (tool reason snippet : Text) :
    (asChild tool reason snippet).isBlankText = false := by
  have ne : inTag tool reason snippet ≠ [] := ne_nil_of_mem (slash_mem_inTag _ _ _)
  obtain ⟨line, rest, first⟩ := exists_cons_of_ne_nil (lines_ne_nil ne)
  refine isBlankText_eq_false (c := '{') ?_ (by decide)
  cases rest <;> simp [asChild, first, intercalate_cons_cons]

end Placeholder

end SfcJsx
