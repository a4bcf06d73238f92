import SfcJsx.Jsx.Element
import SfcJsx.Proofs.PlaceholdersKept
import SfcJsx.Proofs.SiblingGroups

/-!
What rendering is made of. A renderer composes a few steps: it qualifies expressions, opens scopes,
takes notes, leaves fragments at the spans of the tags it renders, and looks at its environment, but
at the names only through expressions. Attributes, listeners, slots, chains, loops and elements
write all that their parts have written, but for blanks. A property of the steps that composition
keeps is a property of every renderer.
-/

namespace SfcJsx

open List Markup Node Text

namespace Render

variable {α β : Type} {g : α → Render β} {m : Render α} {items : List α}
  {writeAll : List β → List Text} {f : α → β}

theorem bind_apply (m : Render α) (g : α → Render β) (env : Environment) (found : Findings) :
    (m >>= g) env found = g (m env found).1 env (m env found).2 := rfl

theorem pure_apply (a : α) (env : Environment) (found : Findings) :
    (pure a : Render α) env found = (a, found) := rfl

structure Composes (P : {α : Type} → Render α → Prop) : Prop where
  pure {α : Type} (a : α) : P (pure a : Render α)
  bind {α β : Type} {m : Render α} {g : α → Render β} (first : P m) (later : ∀ a, P (g a)) :
    P (m >>= g)

namespace Composes

variable {P : {α : Type} → Render α → Prop} (h : Composes P)
include h

theorem bind_pure (first : P m) :
    P (m >>= fun a => Pure.pure (f a)) := h.bind first fun _ => h.pure _

theorem mapM (each : ∀ a ∈ items, P (g a)) : P (items.mapM g) := by
  induction items with
  | nil => exact h.pure []
  | cons item items ih =>
    rw [mapM_cons]
    apply h.bind (each item mem_cons_self)
    intro first
    exact h.bind_pure (ih (forall_mem_cons.1 each).2)

end Composes

/-- A property that every step of rendering has, where fragments are left at some spans only. The
texts a step writes hold the placeholders it records and those that are owed from before. -/
structure Steps (leaves : Span → Prop)
    (P : {α : Type} → List Text → (α → List Text) → Render α → Prop) : Prop where
  pure {α : Type} {owed : List Text} {write : α → List Text} {a : α} (kept : Kept owed (write a)) :
    P owed write (pure a)
  bind {α β : Type} {m : Render α} {g : α → Render β} {owed : List Text} {write : α → List Text}
    {writes : β → List Text} (first : P [] write m)
    (later : ∀ a paid, Kept paid (write a) → P (owed ++ paid) writes (g a)) :
    P owed writes (m >>= g)
  qualify (expression : Text) : P [] (fun _ => []) (Expression.qualify expression)
  withScope {α : Type} {m : Render α} {write : α → List Text} (names : List Text)
    (inside : P [] write m) : P [] write (withScope names m)
  useFramework (name : Text) : P [] (fun _ => []) (useFramework name)
  warn (message : Text) (span : Span) : P [] (fun _ => []) (warn message span)
  slots : P [] (fun _ => [])
    (modify fun f => { f with used := { f.used with slots := true } } : Render Unit)
  list : P [] (fun _ => []) (modify fun f => { f with usesListHelper := true } : Render Unit)
  leave {span : Span} (left : leaves span) {placeholder : (tool reason snippet : Text) → Text}
    (visible : ∀ tool reason snippet, (placeholder tool reason snippet).isBlankText = false)
    (reason : Text) :
    P [] (fun t => [t]) (do leave placeholder ((← read).snippet span) reason span)
  look {α : Type} {g : Environment → Render α} {write : α → List Text}
    (blind : ∀ env names, g { env with names } = g env) (later : ∀ env, P [] write (g env)) :
    P [] write (read >>= g)

namespace Steps

variable {leaves : Span → Prop} {P : {α : Type} → List Text → (α → List Text) → Render α → Prop}
  {owed : List Text} {write : α → List Text} {writes : β → List Text} (h : Steps leaves P)
include h

theorem done {a : α} : P [] write (Pure.pure a) := h.pure (kept_nil _)

theorem bind_quiet (first : P [] (fun _ => []) m)
    (later : ∀ a, P owed writes (g a)) : P owed writes (m >>= g) := by
  apply h.bind first
  intro a paid kept
  rw [kept.eq_nil, append_nil]
  exact later a

theorem bind_pure (first : P [] (fun _ => []) m) :
    P [] writes (m >>= fun a => Pure.pure (f a)) := h.bind_quiet first fun _ => h.done

theorem map (first : P [] write m) (same : ∀ a, writes (f a) = write a) : P [] writes (f <$> m) :=
  h.bind first fun a _ kept => h.pure (same a ▸ kept)

theorem mapM (cons : ∀ b rest, writeAll (b :: rest) = writes b ++ writeAll rest)
    (each : ∀ a ∈ items, P [] writes (g a)) : P [] writeAll (items.mapM g) := by
  induction items with
  | nil => exact h.done
  | cons item items ih =>
    rw [mapM_cons]
    apply h.bind (each item mem_cons_self)
    intro first paid kept
    apply h.bind (ih (forall_mem_cons.1 each).2)
    intro rest more settled
    exact h.pure (cons first rest ▸ kept.append settled)

theorem option_mapM (each : ∀ a, P [] (fun _ => []) (g a)) (item : Option α) :
    P [] (fun _ => []) (item.mapM g) := by
  cases item with
  | none => exact h.done
  | some a => exact h.bind_pure (each a)

theorem filterMapM {g : α → Render (Option β)} {write : Option β → List Text}
    (skip : write none = [])
    (cons : ∀ b rest, writeAll (b :: rest) = write (some b) ++ writeAll rest)
    (each : ∀ a ∈ items, P [] write (g a)) : P [] writeAll (items.filterMapM g) := by
  induction items with
  | nil => exact h.done
  | cons item items ih =>
    have later := ih (forall_mem_cons.1 each).2
    rw [filterMapM_cons]
    apply h.bind (each item mem_cons_self)
    intro first paid kept
    cases first with
    | none =>
      rw [skip] at kept
      obtain rfl := kept.eq_nil
      exact later
    | some unit =>
      apply h.bind later
      intro rest more settled
      exact h.pure (cons unit rest ▸ kept.append settled)

theorem leave_bind {span : Span} {g : Text → Render β} (left : leaves span)
    {placeholder : (tool reason snippet : Text) → Text}
    (visible : ∀ tool reason snippet, (placeholder tool reason snippet).isBlankText = false)
    (reason : Text) (later : ∀ t paid, Kept paid [t] → P paid writes (g t)) :
    P [] writes (do g (← Render.leave placeholder ((← read).snippet span) reason span)) := by
  have whole : P [] writes
      ((do Render.leave placeholder ((← read).snippet span) reason span) >>= g) :=
    h.bind (h.leave left visible reason) later
  simpa only [bind_assoc] using whole

end Steps

end Render

namespace Jsx

theorem tags_slotTemplate? {children content : List Node} {d : Directive}
    (member : (d, content) ∈ children.filterMap slotTemplate?) :
    tagsOfList content ⊆ tagsOfList children := by
  obtain ⟨node, inside, found⟩ := mem_filterMap.1 member
  intro t below
  rw [tagsOfList_eq_flatMap children, mem_flatMap]
  refine ⟨node, inside, ?_⟩
  cases node with
  | element tag nodes =>
    rw [slotTemplate?] at found
    split at found
    · obtain ⟨_, -, same⟩ := Option.map_eq_some_iff.1 found
      cases same
      exact mem_cons_of_mem _ below
    · cases found
  | text | interpolation | comment => cases found

section Kept

variable {parts units : List Text}

theorem kept_asChild {t : Text} (h : Kept parts [t]) : Kept parts [asChild t] := by
  unfold asChild
  split
  · exact h
  · exact h.within _ _

theorem kept_asExpression (h : Kept parts units) : Kept parts [asExpression units] := by
  unfold asExpression
  split
  · rw [h.eq_nil]
    exact kept_nil _
  · split
    · exact h
    · exact h.within _ _
  · exact (h.inside (holds_flatten units)).within _ _

theorem kept_nonEmpty (h : Kept parts units) : Kept parts (nonEmpty units) := by
  refine h.filter ?_
  intro unit gone
  obtain rfl : unit = [] := by simpa using gone
  rfl

theorem kept_slotObject {slots : List SlotContent} (h : Kept parts (slots.map SlotContent.body)) :
    Kept parts [slotObject slots] := by
  have bodies (slots : List SlotContent) :
      Text.Placed (slots.map SlotContent.body) (slots.map SlotContent.render) := by
    induction slots with
    | nil => exact .nil
    | cons slot slots ih =>
      have body : Holds [slot.body] slot.render := (holds_singleton _).after _
      exact .cons body ih
  apply h.inside
  apply Holds.within
  exact (bodies slots).holds (holds_intercalate _ _)

end Kept

end Jsx

namespace Render.Steps

open Jsx

variable {leaves : Span → Prop} {P : {α : Type} → List Text → (α → List Text) → Render α → Prop}
  (h : Steps leaves P) {nodes : List Node}
include h

section Attributes

theorem boundClass (expression : Text) : P [] (fun _ => []) (boundClass expression) := by
  apply h.look fun _ _ => rfl
  intro env
  apply h.bind_quiet (h.qualify _)
  intro qualified
  split
  · exact h.done
  · split <;> exact h.done

theorem renderClass (tag : Tag) : P [] (fun _ => []) (renderClass tag) := by
  apply h.bind_quiet (h.option_mapM h.boundClass _)
  intro bound
  apply h.look fun _ _ => rfl
  intro env
  dsimp only
  split <;> exact h.done

theorem directiveValue (d : Directive) : P [] (fun _ => []) (directiveValue d) := by
  unfold Jsx.directiveValue
  split
  · exact h.qualify _
  · exact h.done

theorem renderBind (d : Directive) : P [] (fun _ => []) (renderBind d) := by
  unfold Jsx.renderBind
  split
  · exact h.bind_pure (h.directiveValue d)
  · exact h.bind_quiet (h.qualify _) fun _ => h.bind_pure (h.directiveValue d)
  · split
    · exact h.done
    · exact h.bind_pure (h.qualify _)

theorem renderModel (d : Directive) : P [] (fun _ => []) (renderModel d) := by
  apply h.bind_quiet (h.directiveValue d)
  intro value
  split <;> exact h.done

theorem handler (expression : Option Text) : P [] (fun _ => []) (handler expression) := by
  unfold Jsx.handler
  split
  · exact h.done
  · apply h.bind_quiet (h.qualify _)
    intro qualified
    split <;> exact h.done

theorem wrapModifiers (helper : Text) (modifiers : List Text) (value : Text) :
    P [] (fun _ => []) (wrapModifiers helper modifiers value) := by
  unfold Jsx.wrapModifiers
  split
  · exact h.done
  · exact h.bind_pure (h.useFramework _)

theorem renderAs (key : Text) (d : Directive) : P [] (fun _ => []) (renderAs key d) :=
  h.bind_pure (h.directiveValue d)

variable {d : Directive}

theorem leaveDirective (left : leaves d.span) (reason : Text) :
    P [] (fun t => [t]) (leaveDirective reason d) :=
  h.leave left Placeholder.isBlankText_inTag reason

theorem renderListener (left : leaves d.span) : P [] (fun t => [t]) (renderListener d) := by
  unfold Jsx.renderListener
  split
  · apply h.bind_quiet (h.useFramework _)
    intro _
    split
    · exact h.bind_pure (h.qualify _)
    · exact h.done
  · exact h.leave left Placeholder.isBlankText_inTag _
  · apply h.bind_quiet (h.handler _)
    intro value
    apply h.bind_quiet (h.wrapModifiers _ _ value)
    intro value
    exact h.bind_pure (h.wrapModifiers _ _ value)

theorem renderDirective (left : leaves d.span) : P [] Option.toList (renderDirective d) := by
  unfold Jsx.renderDirective
  cases d.kind with
  | vIf | vElseIf | vElse | vFor | vSlot | vPre | vCloak => exact h.done
  | vBind => exact h.bind_pure (h.renderBind d)
  | vOn => exact h.map (h.renderListener left) fun _ => rfl
  | vShow | vHtml | vText => exact h.bind_pure (h.renderAs _ d)
  | vModel => exact h.bind_pure (h.renderModel d)
  | vMemo | custom => exact h.map (h.leaveDirective left _) fun _ => rfl

theorem renderAttribute {attr : Attribute} (left : leaves attr.span) :
    P [] Option.toList (renderAttribute attr) := by
  cases attr with
  | plain attr =>
    rw [Jsx.renderAttribute]
    split <;> exact h.done
  | directive d => exact h.renderDirective left

theorem renderAttributesFrom (tag : Tag) (classDone : Bool) {attributes : List Attribute}
    (left : ∀ attr ∈ attributes, leaves attr.span) :
    P [] id (renderAttributesFrom tag classDone attributes) := by
  induction attributes generalizing classDone with
  | nil => exact h.done
  | cons attr rest ih =>
    have later (classDone : Bool) := ih classDone (forall_mem_cons.1 left).2
    unfold Jsx.renderAttributesFrom
    split
    · split
      · exact later true
      · apply h.bind_quiet (h.renderClass tag)
        intro first
        apply h.bind (later true)
        intro rest paid kept
        exact h.pure ((kept_nil first.toList).append kept)
    · apply h.bind (h.renderAttribute (left attr mem_cons_self))
      intro first paid kept
      apply h.bind (later classDone)
      intro rest more settled
      exact h.pure (kept.append settled)

end Attributes

section Elements

theorem warnStray (tag : Tag) : P [] (fun _ => []) (warnStray tag) := by
  unfold Jsx.warnStray
  split
  · exact h.warn _ _
  · exact h.done

theorem outletAccessor (tag : Tag) : P [] (fun _ => []) (outletAccessor tag) := by
  unfold Jsx.outletAccessor
  split
  · exact h.bind_pure (h.qualify _)
  · exact h.done
  · exact h.done

theorem outletMember (attr : Attribute) : P [] (fun _ => []) (outletMember attr) := by
  cases attr with
  | plain attr =>
    rw [Jsx.outletMember]
    split <;> exact h.done
  | directive d =>
    rw [Jsx.outletMember]
    split
    · split
      · split
        · exact h.done
        · exact h.bind_pure (h.qualify _)
      · exact h.bind_quiet (h.qualify _) fun _ => h.bind_pure (h.qualify _)
      · exact h.bind_pure (h.qualify _)
    · exact h.done

theorem slotKey (d : Directive) : P [] (fun _ => []) (slotKey d) := by
  unfold Jsx.slotKey
  split
  · exact h.done
  · exact h.bind_pure (h.qualify _)
  · exact h.done

theorem tagName (tag : Tag) : P [] (fun _ => []) (tagName tag) := by
  unfold Jsx.tagName
  split
  · exact h.bind_pure (h.useFramework _)
  · split <;> exact h.done

theorem guarded {owed : List Text} {t : Text} (kept : Kept owed [t]) (condition : Text) :
    P owed (fun t => [t]) (do return guarded (← Expression.qualify condition) t) :=
  h.bind_quiet (h.qualify _) fun _ => h.pure (kept.within _ _)

/-- A renderer with the property for all tags at whose spans fragments may be left. -/
def All (leaves : Span → Prop) (P : {α : Type} → List Text → (α → List Text) → Render α → Prop)
    (element : ElementRenderer) : Prop :=
  ∀ tag children, (∀ t ∈ tag :: Node.tagsOfList children, t.AllSpans leaves) →
    P [] (fun t => [t]) (element tag children)

variable {element : ElementRenderer} (below : All leaves P element)
include below

theorem renderNode {node : Node} (left : ∀ t ∈ node.tags, t.AllSpans leaves) :
    P [] Option.toList (renderNode element node) := by
  cases node with
  | element tag children =>
    apply h.bind (below tag children left)
    intro t paid kept
    exact h.pure (kept_asChild kept)
  | text span data => exact h.done
  | interpolation span expression => exact h.bind_pure (h.qualify _)
  | comment span data => exact h.done

theorem renderBranches {branches : List Branch}
    (left : ∀ t ∈ tagsOfList (branches.map Branch.node), t.AllSpans leaves) :
    P [] (fun t => [t]) (renderBranches element branches) := by
  induction branches with
  | nil => exact h.done
  | cons branch rest ih =>
    have here := below branch.tag branch.children fun t member =>
      left t (mem_append_left _ member)
    have later := ih fun t member => left t (mem_append_right _ member)
    apply h.bind here
    intro body paid kept
    split
    · apply h.bind_quiet (h.qualify _)
      intro condition
      apply h.bind later
      intro others more settled
      apply h.pure
      apply (kept.append settled).inside
      exact ((holds_singleton body).within _ _).append (holds_singleton others)
    · exact h.pure kept

theorem renderGroup {group : Group} (left : ∀ t ∈ tagsOfList group.nodes, t.AllSpans leaves) :
    P [] Option.toList (renderGroup element group) := by
  cases group with
  | chain first links =>
    refine h.bind (h.renderBranches below fun t member => left t ?_) fun t paid kept =>
      h.pure (kept.within _ _)
    rw [tagsOfList_eq_flatMap, mem_flatMap] at member ⊢
    obtain ⟨node, branch, inside⟩ := member
    refine ⟨node, ?_, inside⟩
    simp only [map_cons, map_map, mem_cons, mem_map] at branch
    rw [Group.nodes, mem_cons, mem_flatMap]
    rcases branch with same | ⟨link, member, same⟩
    · exact .inl same
    · exact .inr ⟨link, member, by simp [← same]⟩
  | single node =>
    have alone : P [] Option.toList (Jsx.renderNode element node) := by
      refine h.renderNode below fun t member => left t ?_
      simpa [Group.nodes, tagsOfList] using member
    cases node with
    | element tag children => exact h.bind_quiet (h.warnStray tag) fun _ => alone
    | text | interpolation | comment => exact alone

theorem renderUnits (left : ∀ t ∈ tagsOfList nodes, t.AllSpans leaves) :
    P [] id (renderUnits element nodes) :=
  h.filterMapM rfl (fun _ _ => rfl) fun _ member => h.renderGroup below fun t inside =>
    left t (Group.tags_subset member inside)

theorem renderOutlet (tag : Tag) {children : List Node}
    (left : ∀ t ∈ tagsOfList children, t.AllSpans leaves) :
    P [] (fun t => [t]) (renderOutlet element tag children) := by
  have outlets : P [] (fun _ => []) (tag.attributes.filterMapM Jsx.outletMember) :=
    h.filterMapM rfl (fun _ _ => rfl) fun attr _ => h.outletMember attr
  apply h.bind_quiet h.slots
  intro _
  apply h.bind_quiet (h.outletAccessor tag)
  intro accessor
  apply h.bind_quiet outlets
  intro members
  apply h.bind (h.renderUnits below left)
  intro units paid kept
  have shown := kept_nonEmpty kept
  dsimp only
  split
  · next blank =>
    have gone : Kept paid ((nonEmpty units).filter (!·.isBlankText)) := shown.filter (by simp)
    rw [filter_eq_nil_iff.2 (by simpa using blank)] at gone
    rw [gone.eq_nil]
    exact h.done
  · apply h.pure
    apply (kept_asExpression shown).inside
    exact (holds_singleton _).after _

theorem slotContent (d : Directive) {children : List Node}
    (left : ∀ t ∈ tagsOfList children, t.AllSpans leaves) :
    P [] (fun slot => [slot.body]) (slotContent element d children) := by
  apply h.bind_quiet (h.slotKey d)
  intro key
  apply h.bind (h.withScope _ (h.renderUnits below left))
  intro units paid kept
  exact h.pure (kept_asExpression (kept_nonEmpty kept))

theorem renderComponentChildren (tag : Tag)
    {children : List Node} (left : ∀ t ∈ tagsOfList children, t.AllSpans leaves) :
    P [] id (renderComponentChildren element tag children) := by
  unfold Jsx.renderComponentChildren
  split
  · apply h.bind (h.slotContent below _ left)
    intro slot paid kept
    exact h.pure (kept_slotObject kept)
  · dsimp only
    split
    · exact h.renderUnits below left
    · have each : ∀ entry ∈ children.filterMap slotTemplate?,
          P [] (fun slot => [slot.body]) (Jsx.slotContent element entry.1 entry.2) := by
        intro entry member
        exact h.slotContent below entry.1 fun t inside => left t (tags_slotTemplate? member inside)
      have all : P [] (List.map SlotContent.body)
          ((children.filterMap slotTemplate?).mapM fun entry =>
            Jsx.slotContent element entry.1 entry.2) := h.mapM (fun _ _ => rfl) each
      apply h.bind all
      intro slots paid kept
      split
      · exact h.pure (kept_slotObject kept)
      · refine h.bind (h.renderUnits below fun t member => left t ?_) fun units more settled => ?_
        · rw [tagsOfList_eq_flatMap, mem_flatMap] at member ⊢
          obtain ⟨node, inside, here⟩ := member
          exact ⟨node, (mem_filter.1 inside).1, here⟩
        · apply h.pure
          apply kept_slotObject
          rw [map_append]
          exact kept.append (kept_asExpression (kept_nonEmpty settled))

theorem renderContent (tag : Tag) {children : List Node}
    (left : ∀ t ∈ tagsOfList children, t.AllSpans leaves) :
    P [] id (renderContent element tag children) := by
  unfold Jsx.renderContent
  split
  · exact h.done
  · split
    · exact h.renderComponentChildren below tag left
    · exact h.renderUnits below left

variable {tag : Tag} {children : List Node}

theorem renderPlainElement (left : ∀ t ∈ tag :: tagsOfList children, t.AllSpans leaves) :
    P [] (fun t => [t]) (renderPlainElement element tag children) := by
  have places := left tag mem_cons_self
  unfold Jsx.renderPlainElement
  split
  · exact h.leave_bind places.1 Placeholder.isBlankText_asChild _ fun _ _ kept =>
      h.pure (kept.within _ _)
  · apply h.bind (h.renderContent below tag (forall_mem_cons.1 left).2)
    intro units paid kept
    have content : Kept paid (nonEmpty units) := kept_nonEmpty kept
    dsimp only
    split
    · split
      · next only same =>
        rw [same] at content
        apply h.pure
        split
        · exact content
        · exact content.within _ _
      · exact h.pure ((content.inside (holds_flatten _)).within _ _)
    · apply h.bind_quiet (h.tagName tag)
      intro name
      apply h.bind (h.renderAttributesFrom tag false places.2)
      intro attributes more settled
      have start : Holds attributes ("<" ++ name ++ attributes.flatMap (' ' :: ·)) :=
        (holds_flatMap_cons ' ' attributes).after _
      -- The children are rendered before the attributes and stand after them.
      have both : Kept (paid ++ more) (attributes ++ nonEmpty units) :=
        (settled.append content).perm perm_append_comm
      split
      · next empty =>
        rw [isEmpty_iff.1 empty, append_nil] at both
        exact h.pure (both.inside (start.before _))
      · apply h.pure
        apply both.inside
        have inner := (start.before ">").append (holds_flatten (nonEmpty units))
        exact (inner.before "</").before name |>.before ">"

theorem renderLoop (loop : ForExpression)
    (left : ∀ t ∈ tag :: tagsOfList children, t.AllSpans leaves) :
    P [] (fun t => [t]) (renderLoop element loop tag children) := by
  apply h.bind_quiet (h.qualify _)
  intro source
  have body : P [] (fun t => [t]) (Render.withScope loop.names do
      let body ← Jsx.renderPlainElement element tag children
      if tag.has .vIf then
        return Jsx.guarded (← Expression.qualify (Group.condition tag .vIf)) body
      else return body) := by
    apply h.withScope
    apply h.bind (h.renderPlainElement below left)
    intro body paid kept
    split
    · exact h.guarded kept _
    · exact h.pure kept
  apply h.bind body
  intro body paid kept
  apply h.bind_quiet h.list
  intro _
  exact h.pure (kept.within _ _)

theorem renderUnlooped (d : Directive)
    (left : ∀ t ∈ tag :: tagsOfList children, t.AllSpans leaves) :
    P [] (fun t => [t]) (renderUnlooped element d tag children) := by
  have body := h.renderPlainElement below left
  apply h.bind_quiet (h.warn _ _)
  intro _
  split
  · apply h.bind_quiet (h.qualify _)
    intro condition
    apply h.bind body
    intro body paid kept
    exact h.pure (kept.within _ _)
  · exact body

theorem renderElementWith : All leaves P (renderElementWith element) := by
  intro tag children left
  unfold Jsx.renderElementWith
  split
  · apply h.bind (h.renderOutlet below tag (forall_mem_cons.1 left).2)
    intro outlet paid kept
    split
    · exact h.guarded kept _
    · exact h.pure kept
  · split
    · split
      · exact h.renderLoop below _ left
      · exact h.renderUnlooped below _ left
    · exact h.renderPlainElement below left

end Elements

theorem renderElement (depth : Nat) : All leaves P (renderElement depth) := by
  induction depth with
  | zero => exact fun _ _ _ => h.done
  | succ depth ih => exact h.renderElementWith ih

theorem renderTemplate (left : ∀ t ∈ tagsOfList nodes, t.AllSpans leaves) :
    P [] (fun t => [t]) (renderTemplate nodes) := by
  apply h.bind (h.renderUnits (h.renderElement _) left)
  intro units paid kept
  have shown : Kept paid (units.filter (!·.isBlankText)) := kept.filter (by simp)
  split
  · next unit same =>
    rw [same] at shown
    exact h.pure shown
  · exact h.pure ((shown.inside (holds_flatten _)).within _ _)

end Render.Steps

end SfcJsx
