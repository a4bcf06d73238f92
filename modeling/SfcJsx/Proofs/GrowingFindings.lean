import SfcJsx.Proofs.RenderNotes

/-!
Findings only grow. Every note keeps what was found before: messages and fragments are put behind
the earlier ones, a name of the framework is added once, and no flag is taken back. So whatever a
renderer does, it goes on from the findings it was given.
-/

namespace SfcJsx

/-- A list that goes on with entries that are new and all different. -/
def GainsNew (old new : List Text) : Prop :=
  ∃ added, new = old ++ added ∧ added.Nodup ∧ ∀ name ∈ added, name ∉ old

section GainsNew

variable {first second third : List Text}

theorem gainsNew_refl (names : List Text) : GainsNew names names := ⟨[], by simp⟩

theorem GainsNew.trans (h : GainsNew first second) (later : GainsNew second third) :
    GainsNew first third := by
  obtain ⟨added, rfl, once, fresh⟩ := h
  obtain ⟨more, rfl, onceMore, freshMore⟩ := later
  refine ⟨added ++ more, List.append_assoc _ _ _, ?_, ?_⟩
  · rw [List.nodup_append]
    refine ⟨once, onceMore, ?_⟩
    rintro name member _ again rfl
    exact freshMore name again (List.mem_append_right _ member)
  · intro name member
    rcases List.mem_append.1 member with earlier | last
    · exact fresh name earlier
    · exact fun old => freshMore name last (List.mem_append_left _ old)

theorem gainsNew_addOnce (names : List Text) (name : Text) :
    GainsNew names (addOnce names name) := by
  unfold addOnce
  split
  · exact gainsNew_refl names
  · next absent => exact ⟨[name], rfl, by simp, by simpa using absent⟩

end GainsNew

structure UsedMembers.Grows (u v : UsedMembers) : Prop where
  emit : u.emit → v.emit
  slots : u.slots → v.slots
  attrs : u.attrs → v.attrs
  expose : u.expose → v.expose

namespace UsedMembers

theorem Grows.refl (u : UsedMembers) : u.Grows u := ⟨id, id, id, id⟩

theorem Grows.trans {u v w : UsedMembers} (h : u.Grows v) (later : v.Grows w) : u.Grows w :=
  ⟨later.emit ∘ h.emit, later.slots ∘ h.slots, later.attrs ∘ h.attrs, later.expose ∘ h.expose⟩

theorem grows_noteSpecial (u : UsedMembers) (name : Text) :
    u.Grows (Expression.noteSpecial u name) := by
  unfold Expression.noteSpecial
  split
  · exact ⟨id, id, fun _ => rfl, id⟩
  · split
    · exact ⟨id, fun _ => rfl, id, id⟩
    · split
      · exact ⟨fun _ => rfl, id, id, id⟩
      · exact .refl u

end UsedMembers

/-- Nothing that was found is lost or changed. -/
structure Findings.Grows (f g : Findings) : Prop where
  diagnostics : f.diagnostics <+: g.diagnostics
  fallbackItems : f.fallbackItems <+: g.fallbackItems
  frameworkImports : GainsNew f.frameworkImports g.frameworkImports
  frameworkTypes : g.frameworkTypes = f.frameworkTypes
  used : f.used.Grows g.used
  usesListHelper : f.usesListHelper → g.usesListHelper

namespace Findings

variable {f g h : Findings}

theorem Grows.refl (f : Findings) : f.Grows f :=
  ⟨List.prefix_refl _, List.prefix_refl _, gainsNew_refl _, rfl, .refl _, id⟩

theorem Grows.trans (first : f.Grows g) (later : g.Grows h) : f.Grows h :=
  ⟨first.diagnostics.trans later.diagnostics, first.fallbackItems.trans later.fallbackItems,
    first.frameworkImports.trans later.frameworkImports,
    later.frameworkTypes.trans first.frameworkTypes, first.used.trans later.used,
    later.usesListHelper ∘ first.usesListHelper⟩

end Findings

variable {leaves : Span → Prop}

theorem Note.grows {source : Text} {f g : Findings} (note : Note source leaves f g) :
    f.Grows g := by
  have same := Findings.Grows.refl f
  cases note with
  | framework name => exact { same with frameworkImports := gainsNew_addOnce _ name }
  | warning => exact { same with diagnostics := List.prefix_append _ _ }
  | once name message =>
    unfold Findings.warnOnce
    split
    · exact same
    · exact { same with diagnostics := List.prefix_append _ _ }
  | slots => exact { same with used := ⟨id, fun _ => rfl, id, id⟩ }
  | special name => exact { same with used := UsedMembers.grows_noteSpecial _ name }
  | list => exact { same with usesListHelper := fun _ => rfl }
  | fragment => exact { same with fallbackItems := List.prefix_append _ _ }

theorem Render.Notes.grows {α : Type} {m : Render α} (h : Notes leaves m) (env : Environment)
    (found : Findings) : found.Grows (m env found).2 := by
  have taken := h env found
  generalize (m env found).2 = last at taken ⊢
  induction taken with
  | refl => exact .refl found
  | tail _ note ih => exact ih.trans note.grows

end SfcJsx
