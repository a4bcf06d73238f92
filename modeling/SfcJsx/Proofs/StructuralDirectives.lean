import SfcJsx.Markup.Parser
import SfcJsx.Proofs.QualifiedText
import SfcJsx.Proofs.SiblingPlaces

/-!
Where loops and conditions are rendered, and where they are lost. A loop is rendered on every
element but an outlet. The condition of a slot template is rendered only where the component around
it has a slot of its own, since its children are then siblings like any others; otherwise the
templates are taken out of the children one by one, without their conditions.
-/

namespace SfcJsx.Jsx

open List Markup SfcJsx.Jsx.Group Render
open Expression (qualify qualifiedFrom qualify_text)

variable {condition t : Text}

section Units

variable {α β : Type} {element : ElementRenderer} {env : Environment}

theorem exists_mem_filterMapM {g : α → Render (Option β)} {holds : β → Prop} {item : α}
    {items : List α} (member : item ∈ items)
    (gives : ∀ found, ∃ b, (g item env found).1 = some b ∧ holds b) (found : Findings) :
    ∃ b ∈ (items.filterMapM g env found).1, holds b := by
  induction items generalizing found with
  | nil => cases member
  | cons first rest ih =>
    rw [filterMapM_cons, bind_apply]
    rcases mem_cons.1 member with rfl | later
    · obtain ⟨b, same, here⟩ := gives found
      rw [same]
      exact ⟨b, mem_cons_self, here⟩
    · obtain ⟨b, inside, here⟩ := ih later (g first env found).2
      cases (g first env found).1 with
      | none => exact ⟨b, inside, here⟩
      | some c => exact ⟨b, mem_cons_of_mem _ inside, here⟩

theorem filterMapM_append_cons {g : α → Render (Option β)} {a b : α} (same : g a = g b)
    (earlier later : List α) :
    (earlier ++ a :: later).filterMapM g = (earlier ++ b :: later).filterMapM g := by
  induction earlier with
  | nil => rw [nil_append, nil_append, filterMapM_cons, filterMapM_cons, same]
  | cons first earlier ih =>
    rw [cons_append, cons_append, filterMapM_cons, filterMapM_cons, ih]

variable (element env) in
theorem renderBranches_cons {branch : Branch} (same : branch.condition = some condition)
    (rest : List Branch) (found : Findings) :
    ∃ later, (renderBranches element (branch :: rest) env found).1 =
      qualifiedFrom env {} condition ++ " ? " ++ (element branch.tag branch.children env found).1 ++
        " : " ++ (renderBranches element rest env later).1 := by
  let body := element branch.tag branch.children env found
  refine ⟨(qualify condition env body.2).2, ?_⟩
  rw [renderBranches, bind_apply, same, ← qualify_text env condition body.2]
  rfl

variable (element env) in
theorem exists_body_isInfix {earlier : List Branch}
    (conditions : ∀ branch ∈ earlier, branch.condition.isSome) (branch : Branch)
    (rest : List Branch) (found : Findings) :
    ∃ later, (element branch.tag branch.children env later).1 <:+:
      (renderBranches element (earlier ++ branch :: rest) env found).1 := by
  induction earlier generalizing found with
  | nil =>
    refine ⟨found, ?_⟩
    rw [nil_append]
    cases condition : branch.condition with
    | none =>
      rw [renderBranches, bind_apply, condition]
      exact infix_refl _
    | some c =>
      obtain ⟨later, text⟩ := renderBranches_cons element env condition rest found
      rw [text, append_assoc]
      exact infix_append _ _ _
  | cons first earlier ih =>
    obtain ⟨here, others⟩ := forall_mem_cons.1 conditions
    obtain ⟨c, condition⟩ := Option.isSome_iff_exists.1 here
    obtain ⟨next, text⟩ := renderBranches_cons element env condition
      (earlier ++ branch :: rest) found
    obtain ⟨later, inside⟩ := ih others next
    refine ⟨later, ?_⟩
    rw [cons_append, text]
    exact inside.trans (suffix_append _ _).isInfix

theorem renderBranches_append_cons {tag other : Tag} {children others : List Node}
    (body : element tag children = element other others) (condition : Option Text)
    (earlier rest : List Branch) :
    renderBranches element (earlier ++ ⟨condition, tag, children⟩ :: rest) =
      renderBranches element (earlier ++ ⟨condition, other, others⟩ :: rest) := by
  induction earlier with
  | nil => rw [nil_append, nil_append, renderBranches, renderBranches, body]
  | cons first earlier ih =>
    rw [cons_append, cons_append, renderBranches, renderBranches, ih]

end Units

section Shown

variable {element : ElementRenderer} {env : Environment} {found : Findings} {sought : Text}
  {children : List Node} {tag : Tag}

def Carries (sought unit : Text) : Prop := sought <:+: unit ∧ unit ≠ []

theorem carries_braced (inside : sought <:+: t) : Carries sought ("\x7b" ++ t ++ "\x7d") :=
  ⟨inside.trans (infix_append _ _ _), by simp⟩

theorem carries_asChild (inside : sought <:+: t) : Carries sought (asChild t) := by
  unfold asChild
  split
  · next tagged =>
    refine ⟨inside, ?_⟩
    rintro rfl
    simp at tagged
  · exact carries_braced inside

theorem isInfix_asExpression {units : List Text} {unit : Text} (member : unit ∈ units) :
    unit <:+: asExpression units := by
  unfold asExpression
  split
  · cases member
  · rw [mem_singleton.1 member]
    split
    · exact infix_refl _
    · exact infix_append _ _ _
  · exact (infix_of_mem_flatten member).trans (infix_append _ _ _)

theorem renderGroup_chain (first : Branch) (links : List Link) :
    (renderGroup element (.chain first links) env found).1 = some ("\x7b" ++
      (renderBranches element (first :: links.map (·.branch)) env found).1 ++ "\x7d") := rfl

theorem carries_chain (condition : Text) (tag : Tag) (children : List Node) (links : List Link)
    (found : Findings) : ∃ unit,
      (renderGroup element (.chain ⟨some condition, tag, children⟩ links) env found).1 = some unit ∧
        Carries (qualifiedFrom env {} condition) unit := by
  have head : (⟨some condition, tag, children⟩ : Branch).condition = some condition := rfl
  obtain ⟨later, text⟩ := renderBranches_cons element env head (links.map (·.branch)) found
  refine ⟨_, renderGroup_chain _ _, carries_braced ?_⟩
  rw [text]
  simp only [append_assoc]
  exact (prefix_append _ _).isInfix

theorem carries_link {first : Branch} {links : List Link}
    (conditions : ∀ branch ∈ first :: links.map (·.branch), branch.condition.isSome)
    (body : ∀ found, sought <:+: (element tag children env found).1)
    (last : List Node) (condition : Option Text) (more : List Link) (found : Findings) : ∃ unit,
      (renderGroup element (.chain first (links ++ ⟨last, condition, tag, children⟩ :: more))
        env found).1 = some unit ∧ Carries sought unit := by
  obtain ⟨later, inside⟩ := exists_body_isInfix element env conditions ⟨condition, tag, children⟩
    (more.map (·.branch)) found
  refine ⟨_, renderGroup_chain _ _, carries_braced ?_⟩
  rw [map_append]
  exact (body later).trans inside

theorem carries_single (body : ∀ found, sought <:+: (element tag children env found).1)
    (found : Findings) : ∃ unit,
      (renderGroup element (.single (.element tag children)) env found).1 = some unit ∧
        Carries sought unit :=
  ⟨_, rfl, carries_asChild (body (warnStray tag env found).2)⟩

end Shown

/-- The loop that `v-for` states, where it can be read. -/
def loopOf? (tag : Tag) : Option ForExpression :=
  (tag.directive? .vFor).bind fun d => ForExpression.parse? (d.expressionText?.getD [])

/-- The environment that a condition on an element is read in: that of its loop, if it has one. -/
def conditionScope (env : Environment) (tag : Tag) : Environment :=
  (loopOf? tag).elim env fun loop => env.push loop.names

def conditionOf? (tag : Tag) : Option Text :=
  (tag.directive? .vIf).bind Directive.expressionText?

/-- A loop as a call of the list helper. -/
def ForExpression.call (loop : ForExpression) (source body : Text) : Text :=
  listHelperName ++ "(" ++ source ++ ", " ++ loop.parameters ++ " => " ++ body ++ ")"

section Loops

variable (element : ElementRenderer) (env : Environment) (found : Findings) {tag : Tag}
  (children : List Node)

theorem has_of_conditionOf? (given : conditionOf? tag = some condition) :
    tag.has .vIf ∧ Group.condition tag .vIf = condition := by
  obtain ⟨d, found, text⟩ := Option.bind_eq_some_iff.1 given
  exact ⟨by simp [Tag.has, found], by simp [Group.condition, found, text]⟩

theorem isInfix_guarded (condition body : Text) : condition <:+: guarded condition body := by
  unfold guarded
  simp only [append_assoc]
  exact (prefix_append _ _).isInfix

def loopBody (tag : Tag) : Render Text := do
  let body ← renderPlainElement element tag children
  if tag.has .vIf then return guarded (← qualify (Group.condition tag .vIf)) body
  else return body

theorem renderLoop_apply (loop : ForExpression) :
    renderLoop element loop tag children env found =
      let source := qualify loop.source env found
      let body := loopBody element children tag (env.push loop.names) source.2
      (loop.call source.1 body.1, { body.2 with usesListHelper := true }) := rfl

theorem renderElementWith_loop {loop : ForExpression} (accepted : loopOf? tag = some loop)
    (inner : isOutlet tag = false) :
    renderElementWith element tag children = renderLoop element loop tag children := by
  obtain ⟨d, given, parsed⟩ := Option.bind_eq_some_iff.1 accepted
  rw [renderElementWith, if_neg (by simp [inner]), given]
  dsimp only
  rw [parsed]

/-- The body inside the loop of an element, if it has one. -/
def loopText (env : Environment) (tag : Tag) (body : Text) : Text :=
  (loopOf? tag).elim body fun loop => loop.call (qualifiedFrom env {} loop.source) body

theorem isInfix_loopText (tag : Tag) (body : Text) : body <:+: loopText env tag body := by
  unfold loopText
  cases loopOf? tag with
  | none => exact infix_refl body
  | some loop => exact infix_append _ _ _

theorem renderElementWith_looped (inner : Group.isOutlet tag = false)
    (looped : tag.has .vFor) (tested : tag.has .vIf) :
    ∃ later, (renderElementWith element tag children env found).1 = loopText env tag
      (guarded (qualifiedFrom (conditionScope env tag) {} (Group.condition tag .vIf))
        (renderPlainElement element tag children (conditionScope env tag) later).1) := by
  unfold loopText conditionScope
  cases accepted : loopOf? tag with
  | some loop =>
    refine ⟨(qualify loop.source env found).2, ?_⟩
    rw [renderElementWith_loop element children accepted inner, renderLoop_apply, loopBody]
    simp only [bind_apply, if_pos tested, Option.elim_some, qualify_text]
    rfl
  | none =>
    obtain ⟨d, directive⟩ := Option.isSome_iff_exists.1 looped
    have unread : ForExpression.parse? (d.expressionText?.getD []) = none := by
      simpa [loopOf?, directive] using accepted
    rw [renderElementWith, if_neg (by simp [inner]), directive]
    dsimp only
    rw [unread]
    dsimp only
    rw [renderUnlooped, if_pos tested, bind_apply, bind_apply, qualify_text]
    exact ⟨_, rfl⟩

theorem isInfix_of_looped (inner : isOutlet tag = false) (looped : tag.has .vFor)
    (given : conditionOf? tag = some condition) :
    qualifiedFrom (conditionScope env tag) {} condition <:+:
      (renderElementWith element tag children env found).1 := by
  obtain ⟨tested, same⟩ := has_of_conditionOf? given
  obtain ⟨later, text⟩ := renderElementWith_looped element env found children inner looped tested
  rw [text, same]
  exact (isInfix_guarded _ _).trans (isInfix_loopText env tag _)

end Loops

section Outlets

variable (element : ElementRenderer) (env : Environment) (found : Findings) (tag : Tag)
  (children : List Node)

theorem head?_slotAccessor (name : Text) : (slotAccessor name).head? = some 's' := by
  unfold slotAccessor
  split <;> rfl

theorem head?_outletAccessor : (outletAccessor tag env found).1.head? = some 's' := by
  unfold outletAccessor
  generalize tag.bound? "name" = bound
  generalize tag.plain? "name" = plain
  cases bound with
  | some d => rfl
  | none =>
    cases plain with
    | some attr => exact head?_slotAccessor _
    | none => exact head?_slotAccessor "default"

theorem head?_renderOutlet : (renderOutlet element tag children env found).1.head? = some 's' := by
  unfold renderOutlet
  rw [bind_apply, bind_apply, bind_apply, bind_apply]
  split <;> simp [pure_apply, head?_append, head?_outletAccessor]

theorem getLast?_guarded (condition body : Text) :
    (guarded condition body).getLast? = some 'l' := by
  rw [guarded, getLast?_append]
  rfl

theorem getLast?_call (loop : ForExpression) (source body : Text) :
    (loop.call source body).getLast? = some ')' := by
  rw [ForExpression.call, getLast?_append]
  rfl

theorem head?_call (loop : ForExpression) (source body : Text) :
    (loop.call source body).head? = some 'r' := rfl

theorem outlet_ne_call (outlet : isOutlet tag) (loop : ForExpression) (source body : Text) :
    (renderElementWith element tag children env found).1 ≠ loop.call source body := by
  have first := head?_renderOutlet element env found tag children
  rw [renderElementWith, if_pos outlet, bind_apply]
  generalize renderOutlet element tag children env found = written at first ⊢
  cases (tag.directive? .vIf).bind Directive.expressionText? with
  | none =>
    intro same
    rw [show written.1 = loop.call source body from same, head?_call] at first
    simp at first
  | some condition =>
    intro same
    have last := getLast?_guarded (qualify condition env written.2).1 written.1
    rw [show guarded (qualify condition env written.2).1 written.1 = _ from same,
      getLast?_call] at last
    simp at last

end Outlets

/-- A `<template>` with a slot, given to a component. -/
structure IsSlotTemplate (template : Tag) : Prop where
  name : template.name = "template"
  slot : template.has .vSlot

/-- The component around a slot template renders the condition of the template: it has a slot of its
own and renders its children, and the template starts a group of them or has a loop. -/
structure RendersCondition (component : Tag) (before : List Node) (template : Tag)
    (content after : List Node) : Prop where
  slot : component.has .vSlot
  children : (component.has .vHtml || component.has .vText) = false
  place : template.has .vFor ∨ Group.StartsAt before (.element template content :: after)

def slotNames (slot : Directive) : List Text :=
  Code.patternNames (slot.expressionText?.getD []).trim

section SlotTemplates

variable {element : ElementRenderer} {component template : Tag} {before content after : List Node}

theorem IsSlotTemplate.not_outlet (h : IsSlotTemplate template) : isOutlet template = false := by
  rw [isOutlet, h.name]
  decide

theorem carries_template (h : IsSlotTemplate template)
    (given : conditionOf? template = some condition)
    (place : template.has .vFor ∨ Group.StartsAt before (.element template content :: after))
    (depth : Nat) (env : Environment) (found : Findings) :
    ∃ unit ∈ (renderUnits (renderElement (depth + 1))
        (before ++ .element template content :: after) env found).1,
      Carries (qualifiedFrom (conditionScope env template) {} condition) unit := by
  obtain ⟨tested, same⟩ := has_of_conditionOf? given
  cases looped : template.has .vFor with
  | true =>
    have body (found : Findings) : qualifiedFrom (conditionScope env template) {} condition <:+:
        (renderElement (depth + 1) template content env found).1 :=
      isInfix_of_looped _ env found content h.not_outlet looped given
    cases Group.place before template content after with
    | starts here =>
      obtain ⟨earlier, split, -⟩ := here
      have alone : Group.startsChain template = false := by simp [Group.startsChain, looped]
      have member : Group.single (.element template content) ∈
          Group.ofNodes (before ++ .element template content :: after) := by
        rw [split, Group.ofNodes_single (by rintro _ _ ⟨⟩; exact alone)]
        simp
      exact exists_mem_filterMapM member (carries_single body) found
    | goesOn earlier first links last link more later conditions groups =>
      have chain := groups template (.refl template)
      have member : Group.chain first (links ++ ⟨last, link, template, content⟩ :: more) ∈
          Group.ofNodes (before ++ .element template content :: after) := by
        rw [chain]
        simp
      exact exists_mem_filterMapM member (carries_link conditions body last link more) found
  | false =>
    obtain ⟨earlier, split, -⟩ := place.resolve_left (by simp [looped])
    have starts : Group.startsChain template := by
      simp [Group.startsChain, tested, looped, h.not_outlet]
    have scope : conditionScope env template = env := by
      have none : template.directive? .vFor = none := by simpa [Tag.has] using looped
      simp [conditionScope, loopOf?, none]
    have member : Group.chain ⟨some condition, template, content⟩ (Group.takeLinks [] after).1 ∈
        Group.ofNodes (before ++ .element template content :: after) := by
      rw [split, Group.ofNodes_chain starts, same]
      simp
    rw [scope]
    exact exists_mem_filterMapM member (carries_chain condition template content _) found

theorem isInfix_slotObject (slot : SlotContent) : slot.body <:+: slotObject [slot] := by
  have inside : slot.body <:+: slot.render := (suffix_append _ _).isInfix
  refine inside.trans ?_
  rw [slotObject, map_singleton, intercalate_singleton]
  exact infix_append _ _ _

theorem exists_isInfix_of_slot {slot : Directive} {children : List Node} {sought : Text}
    {env : Environment} (own : component.directive? .vSlot = some slot)
    (isComponent : component.isComponent)
    (shown : (component.has .vHtml || component.has .vText) = false)
    (units : ∀ found, ∃ unit ∈ (renderUnits element children (env.push (slotNames slot)) found).1,
      Carries sought unit) (found : Findings) :
    ∃ unit ∈ (renderContent element component children env found).1, sought <:+: unit := by
  obtain ⟨unit, member, inside, ne⟩ := units (slotKey slot env found).2
  rw [renderContent, if_neg (by simp [shown]), if_pos isComponent, renderComponentChildren, own]
  refine ⟨slotObject [(slotContent element slot children env found).1], mem_singleton.2 rfl, ?_⟩
  have kept : unit ∈ nonEmpty (renderUnits element children (env.push (slotNames slot))
      (slotKey slot env found).2).1 := mem_filter.2 ⟨member, by simpa using ne⟩
  have body : unit <:+: (slotContent element slot children env found).1.body :=
    isInfix_asExpression kept
  exact inside.trans (body.trans (isInfix_slotObject _))

theorem renderComponentChildren_of_template (h : IsSlotTemplate template)
    (own : component.directive? .vSlot = none) :
    renderComponentChildren element component (before ++ .element template content :: after) =
      renderComponentChildren element component
        (before ++ .element (template.without .vIf) content :: after) := by
  have named : template.name = "template" := h.name
  obtain ⟨slot, given⟩ := Option.isSome_iff_exists.1 h.slot
  have here : slotTemplate? (.element template content) = some (slot, content) := by
    simp [slotTemplate?, named, given]
  have there : slotTemplate? (.element (template.without .vIf) content) = some (slot, content) := by
    simp [slotTemplate?, named, template.directive?_without, given]
  have templates (node : Node) (same : slotTemplate? node = some (slot, content)) :
      (before ++ node :: after).filterMap slotTemplate? =
        before.filterMap slotTemplate? ++ (slot, content) :: after.filterMap slotTemplate? := by
    rw [filterMap_append, filterMap_cons_some same]
  have loose (node : Node) (same : slotTemplate? node = some (slot, content)) :
      (before ++ node :: after).filter (fun child => (slotTemplate? child).isNone) =
        before.filter (fun child => (slotTemplate? child).isNone) ++
          after.filter fun child => (slotTemplate? child).isNone := by
    rw [filter_append, filter_cons_of_neg (by simp [same])]
  rw [renderComponentChildren, renderComponentChildren, own]
  rw [templates _ here, templates _ there, loose _ here, loose _ there, if_neg (by simp),
    if_neg (by simp)]

theorem renderUnits_of_template (h : IsSlotTemplate template)
    (unlooped : template.has .vFor = false)
    (chained : ¬Group.StartsAt before (.element template content :: after)) (depth : Nat) :
    renderUnits (renderElement depth) (before ++ .element template content :: after) =
      renderUnits (renderElement depth)
        (before ++ .element (template.without .vIf) content :: after) := by
  cases place before template content after with
  | starts here => exact absurd here chained
  | goesOn earlier first links last link more later conditions groups =>
    have body := renderElement_without_condition template content depth h.not_outlet unlooped
    have same := renderBranches_append_cons body.symm link (first :: links.map (·.branch))
    rw [renderUnits, renderUnits, groups template (.refl template),
      groups _ (alike_without_condition template)]
    apply filterMapM_append_cons
    rw [renderGroup, renderGroup, map_append, map_append, map_cons, map_cons,
      ← cons_append, ← cons_append, same]

theorem renderContent_without_condition (h : IsSlotTemplate template)
    (isComponent : component.isComponent) (depth : Nat)
    (lost : ¬RendersCondition component before template content after) :
    renderContent (renderElement depth) component (before ++ .element template content :: after) =
      renderContent (renderElement depth) component
        (before ++ .element (template.without .vIf) content :: after) := by
  by_cases hidden : (component.has .vHtml || component.has .vText)
  · rw [renderContent, renderContent, if_pos hidden, if_pos hidden]
  · rw [renderContent, renderContent, if_neg hidden, if_neg hidden, if_pos isComponent,
      if_pos isComponent]
    cases own : component.directive? .vSlot with
    | none => exact renderComponentChildren_of_template h own
    | some slot =>
      have place : ¬(template.has .vFor ∨
          Group.StartsAt before (.element template content :: after)) := fun place =>
        lost ⟨by simp [Tag.has, own], by simpa using hidden, place⟩
      obtain ⟨unlooped, chained⟩ := not_or.1 place
      have units := renderUnits_of_template h (by simpa using unlooped) chained depth
      rw [renderComponentChildren, renderComponentChildren, own]
      dsimp only
      rw [slotContent, slotContent, units]

end SlotTemplates

/-- Where loops and the conditions of slot templates are kept. A loop that can be read becomes a
call of the list helper on every element but an outlet, and on an outlet it changes nothing. The
condition of a slot template stands in what the component around it renders if that component has a
slot of its own and renders its children, and the template starts a group of them or has a loop;
otherwise it changes nothing. -/
theorem structural_directives_kept_or_lost (depth : Nat) (env : Environment) (found : Findings)
    {tag : Tag} {loop : ForExpression} (accepted : loopOf? tag = some loop) (children : List Node)
    {component template : Tag} {condition : Text} (isComponent : component.isComponent = true)
    (isTemplate : IsSlotTemplate template) (given : conditionOf? template = some condition)
    (before content after : List Node) :
    (Group.isOutlet tag = false → ∃ body, (renderElement (depth + 1) tag children env found).1 =
        loop.call (qualify loop.source env found).1 body ∧
      (renderElement (depth + 1) tag children env found).2.usesListHelper = true) ∧
    (Group.isOutlet tag = true → (renderElement (depth + 1) tag children env found =
        renderElement (depth + 1) (tag.without .vFor) children env found) ∧
      ∀ source body, (renderElement (depth + 1) tag children env found).1 ≠
        loop.call source body) ∧
    (RendersCondition component before template content after →
      ∀ slot, component.directive? .vSlot = some slot →
        ∃ unit ∈ (renderContent (renderElement (depth + 1)) component
            (before ++ .element template content :: after) env found).1,
          (qualify condition (conditionScope (env.push (slotNames slot)) template) found).1 <:+:
            unit) ∧
    (¬RendersCondition component before template content after →
      renderContent (renderElement (depth + 1)) component
          (before ++ .element template content :: after) env found =
        renderContent (renderElement (depth + 1)) component
          (before ++ .element (template.without .vIf) content :: after) env found) := by
  refine ⟨fun inner => ?_, fun outlet => ?_, fun kept slot own => ?_, fun lost => ?_⟩
  · rw [renderElement, renderElementWith_loop _ children accepted inner, renderLoop_apply]
    exact ⟨_, rfl, rfl⟩
  · refine ⟨?_, outlet_ne_call _ env found tag children outlet loop⟩
    rw [renderElement, renderElementWith_outlet _ tag children outlet]
  · rw [qualify_text]
    exact exists_isInfix_of_slot own isComponent kept.children
      (carries_template isTemplate given kept.place depth _) found
  · rw [renderContent_without_condition isTemplate isComponent (depth + 1) lost]

def listItem : Tag where
  span := ⟨0, 26⟩
  name := "li"
  attributes := [.directive ⟨⟨4, 22⟩, .vFor, none, some ⟨⟨11, 21⟩, "row of rows"⟩, []⟩]
  selfClosing := true

def rowSlot : Directive := ⟨⟨7, 19⟩, .vSlot, none, some ⟨⟨15, 18⟩, "row"⟩, []⟩

def ownSlot : Tag where
  span := ⟨0, 70⟩
  name := "Panel"
  attributes := [.directive rowSlot]
  selfClosing := false

def conditionalTemplate : Tag where
  span := ⟨20, 61⟩
  name := "template"
  attributes := [.directive ⟨⟨30, 35⟩, .vSlot, some (.named "head"), none, []⟩,
    .directive ⟨⟨36, 47⟩, .vIf, none, some ⟨⟨42, 46⟩, "open"⟩, []⟩]
  selfClosing := false

def topLevel (refs : List Text) : Environment where
  source := []
  names := ⟨refs, []⟩
  classes := {}
  tool := "tool"

theorem structural_directives_kept_ownSlot :
    (∃ body, (renderElement 1 listItem [] (topLevel ["open", "rows"]) {}).1 =
        ForExpression.call ⟨"row", "rows"⟩ "rows.value" body ∧
      (renderElement 1 listItem [] (topLevel ["open", "rows"]) {}).2.usesListHelper = true) ∧
    ∃ unit ∈ (renderContent (renderElement 1) ownSlot [.element conditionalTemplate []]
        (topLevel ["open", "rows"]) {}).1, "open.value".toList <:+: unit := by
  have accepted : loopOf? listItem = some ⟨"row", "rows"⟩ := by decide +kernel
  have given : conditionOf? conditionalTemplate = some "open".toList := by decide +kernel
  have isComponent : ownSlot.isComponent = true := by decide +kernel
  have isTemplate : IsSlotTemplate conditionalTemplate := ⟨rfl, by decide +kernel⟩
  have kept : RendersCondition ownSlot [] conditionalTemplate [] [] :=
    ⟨by decide +kernel, by decide +kernel, .inr ⟨[], rfl, rfl⟩⟩
  have source : (qualify "rows" (topLevel ["open", "rows"]) {}).1 = "rows.value".toList := by
    decide +kernel
  have condition : (qualify "open" (conditionScope ((topLevel ["open", "rows"]).push
      (slotNames rowSlot)) conditionalTemplate) {}).1 = "open.value".toList := by decide +kernel
  obtain ⟨loops, -, shows, -⟩ := structural_directives_kept_or_lost 0 (topLevel ["open", "rows"]) {}
    accepted [] isComponent isTemplate given [] [] []
  refine ⟨?_, ?_⟩
  · rw [Nat.zero_add, source] at loops
    exact loops (by decide +kernel)
  · rw [← condition]
    exact shows kept rowSlot rfl

def loopedOutlet : Text := "<template><slot v-for=\"a in xs\" /></template>"

def conditionalSlot : Text :=
  "<template><Panel><template #head v-if=\"open\">a</template></Panel></template>"

/-- The loop of an outlet and the condition of a slot template are lost without a word. -/
theorem structural_directives_silently_lost :
    (Component.parse loopedOutlet).2 = [] ∧
      (renderTemplate (Component.parse loopedOutlet).1.templateNodes (topLevel []) {}).1 =
        "\x7bslots.default?.()\x7d" ∧
      (renderTemplate (Component.parse loopedOutlet).1.templateNodes (topLevel []) {}).2 =
        { used := { slots := true } } ∧
      (Component.parse conditionalSlot).2 = [] ∧
      (renderTemplate (Component.parse conditionalSlot).1.templateNodes (topLevel []) {}).1 =
        "<Panel>\x7b\x7b head: () => <>a</> \x7d\x7d</Panel>" ∧
      (renderTemplate (Component.parse conditionalSlot).1.templateNodes (topLevel []) {}).2 =
        {} := by
  decide +kernel

end SfcJsx.Jsx
