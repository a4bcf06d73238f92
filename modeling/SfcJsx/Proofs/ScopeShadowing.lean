import SfcJsx.Proofs.RenderSteps

/-!
Names bound around a place hide the component's names. A computation is `Shadowed` when it cannot
tell, wherever a name is bound, whether the component has that name too; expressions are.
-/

namespace SfcJsx

open Render

variable {env : Environment} {text : Text}

namespace Environment

/-- The environment in which a name is neither a reference nor an input. -/
def forget (env : Environment) (name : Text) : Environment :=
  { env with names := ⟨env.names.refs.filter (· ≠ name), env.names.props.filter (· ≠ name)⟩ }

theorem inScope_push {name : Text} (bound : env.inScope name)
    (names : List Text) : (env.push names).inScope name := by
  exact Bool.or_eq_true_iff.2 (.inr bound)

end Environment

namespace Render

/-- Whether a computation gives the same result and findings without the component's `name`,
wherever that is bound. -/
def Shadowed (name : Text) {α : Type} (m : Render α) : Prop :=
  ∀ env : Environment, env.inScope name → m (env.forget name) = m env

section Closure

variable {name : Text} {α β : Type}

theorem composes_shadowed : Composes (Shadowed name) where
  pure _ _ _ := rfl
  bind {_ _ m g} first later env bound := by
    have same : (fun a => g a (env.forget name)) = fun a => g a env :=
      funext fun a => later a env bound
    calc (m >>= g) (env.forget name)
        = m (env.forget name) >>= fun a => g a (env.forget name) := rfl
      _ = m env >>= fun a => g a env := by rw [first env bound, same]

theorem shadowed_read_bind {g : Environment → Render α}
    (blind : ∀ env : Environment, env.inScope name → g (env.forget name) = g env)
    (later : ∀ env, Shadowed name (g env)) : Shadowed name (read >>= g) := by
  intro env bound
  calc (read >>= g) (env.forget name)
      = g (env.forget name) (env.forget name) := rfl
    _ = g env env := by rw [blind env bound, later env env bound]

end Closure

theorem mapM_eq_pure {α β : Type} {g : α → Render β} {h : α → β} {items : List α}
    (each : ∀ a ∈ items, g a env = pure (h a)) : items.mapM g env = pure (items.map h) := by
  induction items with
  | nil => rfl
  | cons item items ih =>
    have first := each item (by simp)
    have rest := ih (List.forall_mem_cons.1 each).2
    rw [List.mapM_cons]
    calc (g item >>= fun b => items.mapM g >>= fun bs => pure (b :: bs)) env
        = g item env >>= fun b => items.mapM g env >>= fun bs => pure (b :: bs) := rfl
      _ = pure ((item :: items).map h) := by rw [first, rest]; rfl

end Render

namespace Expression

theorem special_of_lookup {replacement : Text}
    (found : specialNames.lookup text = some replacement) : '$' ∈ text := by
  have marked : ∀ entry ∈ specialNames, '$' ∈ entry.1 := by decide
  obtain ⟨before, after, whole, -⟩ := List.lookup_eq_some_iff.1 found
  exact marked (text, replacement) (by rw [whole]; simp)

theorem special_of_advisory (advisory : advisoryNames.contains text) : '$' ∈ text := by
  have marked : ∀ entry ∈ advisoryNames, '$' ∈ entry := by decide
  exact marked _ (by simpa using advisory)

theorem classified_of_isEmpty {names : Names} (empty : names.isEmpty) (text : Text)
    (use : NameUse) : classified names text use = text := by
  simp only [Names.isEmpty, Bool.and_eq_true, List.isEmpty_iff] at empty
  simp [classified, empty]

theorem renderName_of_isEmpty (empty : env.names.isEmpty) (plain : '$' ∉ text)
    (use : NameUse) : renderName text use env = pure text := by
  have special : specialNames.lookup text = none := by
    cases found : specialNames.lookup text with
    | none => rfl
    | some replacement => exact absurd (special_of_lookup found) plain
  have advisory : advisoryNames.contains text = false := by
    cases found : advisoryNames.contains text with
    | false => rfl
    | true => exact absurd (special_of_advisory found) plain
  have opened : renderName text use env =
      (if use.isBound || env.inScope text then pure text
        else pure (classified env.names text use) : Render Text) env := by
    simp only [renderName, special, advisory]
    rfl
  rw [opened, classified_of_isEmpty empty, ite_self]
  rfl

theorem subset_of_mem_segments {expression : Text} {segment : Segment}
    (member : segment ∈ segments expression) : segment.text ⊆ expression := by
  intro c inside
  rw [← flatMap_segmentsFrom {} expression]
  exact List.mem_flatMap.2 ⟨segment, member, inside⟩

theorem qualify_eq_qualifySegments (expression : Text) (env : Environment) :
    qualify expression env = qualifySegments expression env := by
  by_cases shortcut : (env.names.isEmpty && !expression.contains '$')
  · obtain ⟨empty, plain⟩ : env.names.isEmpty ∧ '$' ∉ expression := by
      simpa [List.contains_eq_mem] using shortcut
    have each : ∀ segment ∈ segments expression,
        renderSegment segment env = pure segment.text := by
      intro segment member
      have unmarked : '$' ∉ segment.text := fun inside =>
        plain (subset_of_mem_segments member inside)
      cases used : segment.use with
      | none => rw [renderSegment, used]; rfl
      | some use => rw [renderSegment, used]; exact renderName_of_isEmpty empty unmarked use
    calc qualify expression env
        = (if env.names.isEmpty && !expression.contains '$' then pure expression
            else qualifySegments expression : Render Text) env := rfl
      _ = pure expression := by rw [if_pos shortcut]; rfl
      _ = pure (((segments expression).map (·.text)).flatten) := by
        rw [← List.flatMap_def, segments, flatMap_segmentsFrom]
      _ = (segments expression).mapM renderSegment env >>= fun texts => pure texts.flatten := by
        rw [mapM_eq_pure each]
        rfl
  · calc qualify expression env
        = (if env.names.isEmpty && !expression.contains '$' then pure expression
            else qualifySegments expression : Render Text) env := rfl
      _ = qualifySegments expression env := by rw [if_neg shortcut]

variable {name : Text}

theorem classified_forget (env : Environment) (other : text ≠ name) (use : NameUse) :
    classified (env.forget name).names text use = classified env.names text use := by
  have refs : (env.forget name).names.refs.contains text = env.names.refs.contains text := by
    simp [Environment.forget, List.contains_eq_mem, other]
  have props : (env.forget name).names.props.contains text = env.names.props.contains text := by
    simp [Environment.forget, List.contains_eq_mem, other]
  simp only [classified, refs, props]

theorem shadowed_renderName (text : Text) (use : NameUse) :
    Shadowed name (renderName text use) := by
  apply shadowed_read_bind
  · intro env bound
    have scopes : (env.forget name).inScope text = env.inScope text := rfl
    by_cases hidden : (use.isBound || env.inScope text)
    · simp only [scopes, hidden, if_true]
    · have other : text ≠ name := by
        rintro rfl
        simp [bound] at hidden
      simp only [scopes, classified_forget env other]
  · intro env
    split
    · exact composes_shadowed.pure _
    · split
      · exact composes_shadowed.bind_pure fun _ _ => rfl
      · split
        · exact composes_shadowed.bind_pure fun _ _ => rfl
        · exact composes_shadowed.pure _

theorem shadowed_qualify (expression : Text) : Shadowed name (qualify expression) := by
  have all : Shadowed name (qualifySegments expression) := by
    refine composes_shadowed.bind_pure (composes_shadowed.mapM fun segment _ => ?_)
    unfold renderSegment
    split
    · exact composes_shadowed.pure _
    · exact shadowed_renderName _ _
  intro env bound
  rw [qualify_eq_qualifySegments, qualify_eq_qualifySegments]
  exact all env bound

end Expression

end SfcJsx
