import SfcJsx.Proofs.ScopeShadowing

/-!
Rendering respects the names bound around a place. Every renderer is `Shadowed`: attributes,
listeners and slots read the component's names through expressions only, loops and slots add scopes
and never remove one, and elements follow by their nesting depth.
-/

namespace SfcJsx.Jsx

open Markup Render Expression

variable {name : Text}

theorem shadowed (name : Text) : Steps (fun _ => True) fun _ _ => Shadowed name where
  pure _ := composes_shadowed.pure _
  bind first later := composes_shadowed.bind first fun a => later a [] (kept_nil _)
  qualify := shadowed_qualify
  withScope names inside env bound := inside (env.push names) (Environment.inScope_push bound names)
  useFramework _ _ _ := rfl
  warn _ _ _ _ := rfl
  slots _ _ := rfl
  list _ _ := rfl
  leave _ _ _ _ _ _ := rfl
  look blind later := shadowed_read_bind (fun env _ => blind env _) later

/-- Where a loop or slot around the place binds a name, rendering children or an element gives the
same text and the same findings whether or not the component has a reference or an input of that
name. -/
theorem render_forget {env : Environment} (bound : env.inScope name = true) (found : Findings) :
    (∀ nodes, renderChildren nodes (env.forget name) found = renderChildren nodes env found) ∧
      ∀ depth tag children, renderElement depth tag children (env.forget name) found =
        renderElement depth tag children env found := by
  constructor
  · intro nodes
    have units : Shadowed name (renderChildren nodes) :=
      (shadowed name).renderUnits ((shadowed name).renderElement _) fun _ _ => Tag.allSpans_true _
    exact congrFun (units env bound) found
  · intro depth tag children
    have below := (shadowed name).renderElement depth tag children fun _ _ => Tag.allSpans_true _
    exact congrFun (below env bound) found

def insideLoops : Environment where
  source := "<li v-for=\"(item, index) in row\">\x7b\x7b item \x7d\x7d</li>"
  names := ⟨["item", "rows"], ["item", "index"]⟩
  classes := {}
  tool := "tool"
  scopes := [["item", "index"], ["row"]]

theorem render_forget_insideLoops :
    insideLoops.inScope "item" = true ∧
      (insideLoops.forget "item").names = ⟨["rows"], ["index"]⟩ ∧
      (∀ nodes, renderChildren nodes (insideLoops.forget "item") {} =
        renderChildren nodes insideLoops {}) ∧
      ∀ depth tag children, renderElement depth tag children (insideLoops.forget "item") {} =
        renderElement depth tag children insideLoops {} :=
  ⟨by decide, by decide, render_forget (by decide) {}⟩

end SfcJsx.Jsx
