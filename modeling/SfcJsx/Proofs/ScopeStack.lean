import SfcJsx.Proofs.GrowingFindings

/-!
Rendering on one session. A session has one environment, whose scopes are a stack, and the findings.
The walker of this module changes a session as it goes: it pushes the names of a loop or a slot and
pops them by hand, and everything in between sees the stack as it is at that moment. It writes what
the renderer writes, and on every path it leaves the environment as it found it; the findings only
grow.
-/

namespace SfcJsx

open Markup

/-- What a conversion holds while it renders. -/
structure Session where
  environment : Environment
  findings : Findings

abbrev OnSession (α : Type) := StateM Session α

namespace OnSession

variable {α β : Type}

def push (names : List Text) : OnSession Unit :=
  modify fun s => { s with environment := s.environment.push names }

def pop : OnSession Unit := modify fun s => { s with environment := s.environment.pop }

def perform (m : Render α) : OnSession α := fun s =>
  let (a, found) := m s.environment s.findings
  (a, { s with findings := found })

theorem perform_pure (a : α) : perform (pure a) = pure a := rfl

theorem perform_bind (m : Render α) (g : α → Render β) :
    perform (m >>= g) = perform m >>= fun a => perform (g a) := rfl

theorem perform_ite {p : Prop} [Decidable p] (m n : Render α) :
    perform (if p then m else n) = if p then perform m else perform n := apply_ite _ _ _ _

theorem perform_mapM (g : α → Render β) (items : List α) :
    perform (items.mapM g) = items.mapM fun a => perform (g a) := by
  induction items with
  | nil => rfl
  | cons item items ih =>
    rw [List.mapM_cons, List.mapM_cons, ← ih]
    rfl

theorem perform_filterMapM (g : α → Render (Option β)) (items : List α) :
    perform (items.filterMapM g) = items.filterMapM fun a => perform (g a) := by
  induction items with
  | nil => rfl
  | cons item items ih =>
    rw [List.filterMapM_cons, List.filterMapM_cons, ← ih, perform_bind]
    congr 1
    funext first
    cases first <;> rfl

end OnSession

namespace Jsx

open OnSession

abbrev ElementWalker := Tag → List Node → OnSession Text

section Walker

variable (element : ElementWalker)

def walkNode : Node → OnSession (Option Text)
  | .element tag children => do return some (asChild (← element tag children))
  | .text _ data => pure (renderText data)
  | .interpolation _ expression => do
    return some ("\x7b" ++ (← perform (Expression.qualify expression)) ++ "\x7d")
  | .comment _ data => pure (some (renderComment data))

def walkBranches : List Branch → OnSession Text
  | [] => pure "null"
  | branch :: rest => do
    let body ← element branch.tag branch.children
    match branch.condition with
    | some condition =>
      let condition ← perform (Expression.qualify condition)
      return condition ++ " ? " ++ body ++ " : " ++ (← walkBranches rest)
    | none => return body

def walkGroup : Group → OnSession (Option Text)
  | .chain first links => do
    return some ("\x7b" ++ (← walkBranches element (first :: links.map (·.branch))) ++ "\x7d")
  | .single node => do
    if let .element tag _ := node then perform (warnStray tag)
    walkNode element node

def walkUnits (nodes : List Node) : OnSession (List Text) :=
  (Group.ofNodes nodes).filterMapM (walkGroup element)

def walkOutlet (tag : Tag) (children : List Node) : OnSession Text := do
  perform (modify fun f => { f with used := { f.used with slots := true } })
  let accessor ← perform (outletAccessor tag)
  let members ← perform (tag.attributes.filterMapM outletMember)
  let arguments : Text :=
    if members.isEmpty then [] else "\x7b " ++ List.intercalate ", " members ++ " \x7d"
  let call := accessor ++ "?.(" ++ arguments ++ ")"
  let fallback := nonEmpty (← walkUnits element children)
  if fallback.all Text.isBlankText then return call
  else return call ++ " ?? " ++ asExpression fallback

/-- The parameters of a slot are in scope for its content. -/
def walkSlot (d : Directive) (children : List Node) : OnSession SlotContent := do
  let key ← perform (slotKey d)
  let parameters := (d.expressionText?.getD []).trim
  push (Code.patternNames parameters)
  let units ← walkUnits element children
  pop
  return ⟨key, parameters, asExpression (nonEmpty units)⟩

def walkComponentChildren (tag : Tag) (children : List Node) : OnSession (List Text) := do
  match tag.directive? .vSlot with
  | some d => return [slotObject [← walkSlot element d children]]
  | none =>
    let templates := children.filterMap slotTemplate?
    if templates.isEmpty then walkUnits element children
    else
      let slots ← templates.mapM fun (d, content) => walkSlot element d content
      let loose := children.filter fun child => (slotTemplate? child).isNone
      if loose.all Node.isBlank || slots.any (fun slot => slot.key == "default".toList) then
        return [slotObject slots]
      else
        let body := asExpression (nonEmpty (← walkUnits element loose))
        return [slotObject (slots ++ [⟨"default", [], body⟩])]

def walkContent (tag : Tag) (children : List Node) : OnSession (List Text) :=
  if tag.has .vHtml || tag.has .vText then pure []
  else if tag.isComponent then walkComponentChildren element tag children
  else walkUnits element children

def walkPlainElement (tag : Tag) (children : List Node) : OnSession Text := do
  if isDynamicComponent tag then
    let snippet := (← get).environment.snippet tag.span
    let placeholder ← perform (Render.leaveAsChild snippet "dynamic component" tag.span)
    return "<>" ++ placeholder ++ "</>"
  let content := nonEmpty (← walkContent element tag children)
  if isFragment tag then
    match content with
    | [only] => return if only.head? = some '<' then only else "<>" ++ only ++ "</>"
    | _ => return "<>" ++ content.flatten ++ "</>"
  let name ← perform (tagName tag)
  let attributes ← perform (renderAttributes tag)
  let start : Text := "<" ++ name ++ attributes.flatMap (' ' :: ·)
  if content.isEmpty then return start ++ " />"
  else return start ++ ">" ++ content.flatten ++ "</" ++ name ++ ">"

/-- The names of a loop are in scope for its body and for a condition on the element. -/
def walkLoop (loop : ForExpression) (tag : Tag) (children : List Node) : OnSession Text := do
  let source ← perform (Expression.qualify loop.source)
  push loop.names
  let body ← walkPlainElement element tag children
  let body ←
    if tag.has .vIf then
      let condition ← perform (Expression.qualify (Group.condition tag .vIf))
      pure (guarded condition body)
    else pure body
  pop
  perform (modify fun f => { f with usesListHelper := true })
  return listHelperName ++ "(" ++ source ++ ", " ++ loop.parameters ++ " => " ++ body ++ ")"

def walkUnlooped (d : Directive) (tag : Tag) (children : List Node) : OnSession Text := do
  perform (Render.warn ("could not parse `v-for=\"" ++ d.expressionText?.getD [] ++ "\"`") d.span)
  if tag.has .vIf then
    let condition ← perform (Expression.qualify (Group.condition tag .vIf))
    return guarded condition (← walkPlainElement element tag children)
  else walkPlainElement element tag children

def walkElementWith (tag : Tag) (children : List Node) : OnSession Text := do
  if Group.isOutlet tag then
    let outlet ← walkOutlet element tag children
    match (tag.directive? .vIf).bind Directive.expressionText? with
    | some condition => return guarded (← perform (Expression.qualify condition)) outlet
    | none => return outlet
  else
    match tag.directive? .vFor with
    | some d =>
      match ForExpression.parse? (d.expressionText?.getD []) with
      | some loop => walkLoop element loop tag children
      | none => walkUnlooped element d tag children
    | none => walkPlainElement element tag children

end Walker

def walkElement : Nat → ElementWalker
  | 0 => fun _ _ => pure []
  | depth + 1 => walkElementWith (walkElement depth)

/-- Rendering a template over an explicit stack of scopes. -/
def walkTemplate (nodes : List Node) : OnSession Text := do
  match (← walkUnits (walkElement (Node.depthOfList nodes)) nodes).filter (!·.isBlankText) with
  | [unit] => return unit
  | units => return "<>" ++ units.flatten ++ "</>"

section Agreement

variable {element : ElementRenderer} {walker : ElementWalker}

/-- A walker that does on the session what a renderer does, and restores the environment. -/
def Performs (walker : ElementWalker) (element : ElementRenderer) : Prop :=
  ∀ tag children, walker tag children = perform (element tag children)

section

variable (below : Performs walker element)

include below

theorem walkNode_eq (node : Node) : walkNode walker node = perform (renderNode element node) := by
  cases node with
  | element tag children =>
    rw [walkNode, below tag children]
    rfl
  | text | interpolation | comment => rfl

theorem walkBranches_eq (branches : List Branch) :
    walkBranches walker branches = perform (renderBranches element branches) := by
  induction branches with
  | nil => rfl
  | cons branch rest ih =>
    rw [walkBranches, renderBranches, below, ih]
    cases branch.condition <;> rfl

theorem walkGroup_eq (group : Group) :
    walkGroup walker group = perform (renderGroup element group) := by
  cases group with
  | chain first links =>
    rw [walkGroup, walkBranches_eq below]
    rfl
  | single node =>
    cases node with
    | element tag children =>
      rw [walkGroup, walkNode_eq below]
      rfl
    | text | interpolation | comment => rfl

theorem walkUnits_eq (nodes : List Node) :
    walkUnits walker nodes = perform (renderUnits element nodes) := by
  rw [walkUnits, renderUnits, perform_filterMapM]
  congr 1
  funext group
  exact walkGroup_eq below group

theorem walkOutlet_eq (tag : Tag) (children : List Node) :
    walkOutlet walker tag children = perform (renderOutlet element tag children) := by
  unfold walkOutlet renderOutlet
  rw [walkUnits_eq below]
  simp only [perform_bind, perform_ite, perform_pure]

theorem walkSlot_eq (d : Directive) (children : List Node) :
    walkSlot walker d children = perform (slotContent element d children) := by
  unfold walkSlot slotContent
  rw [walkUnits_eq below]
  rfl

theorem walkComponentChildren_eq (tag : Tag) (children : List Node) :
    walkComponentChildren walker tag children =
      perform (renderComponentChildren element tag children) := by
  have slots : (fun entry : Directive × List Node => walkSlot walker entry.1 entry.2) =
      fun entry => perform (slotContent element entry.1 entry.2) :=
    funext fun entry => walkSlot_eq below entry.1 entry.2
  unfold walkComponentChildren renderComponentChildren
  cases tag.directive? .vSlot with
  | some d =>
    dsimp only
    rw [walkSlot_eq below]
    rfl
  | none =>
    simp only [perform_bind, perform_ite, perform_pure, perform_mapM, walkUnits_eq below, slots]

theorem walkContent_eq (tag : Tag) (children : List Node) :
    walkContent walker tag children = perform (renderContent element tag children) := by
  rw [walkContent, renderContent, walkComponentChildren_eq below, walkUnits_eq below, perform_ite,
    perform_ite]
  rfl

theorem walkPlainElement_eq (tag : Tag) (children : List Node) :
    walkPlainElement walker tag children = perform (renderPlainElement element tag children) := by
  unfold walkPlainElement renderPlainElement
  rw [walkContent_eq below, perform_ite]
  congr 1
  rw [perform_bind]
  congr 1
  funext units
  dsimp only
  rw [perform_ite]
  congr 1
  · rcases nonEmpty units with - | ⟨only, - | -⟩ <;> rfl
  · simp only [perform_bind, perform_ite, perform_pure]

theorem walkLoop_eq (loop : ForExpression) (tag : Tag) (children : List Node) :
    walkLoop walker loop tag children = perform (renderLoop element loop tag children) := by
  unfold walkLoop renderLoop
  rw [walkPlainElement_eq below, perform_bind]
  cases tag.has .vIf <;> rfl

theorem walkUnlooped_eq (d : Directive) (tag : Tag) (children : List Node) :
    walkUnlooped walker d tag children = perform (renderUnlooped element d tag children) := by
  unfold walkUnlooped renderUnlooped
  rw [walkPlainElement_eq below]
  simp only [perform_bind, perform_ite, perform_pure]

theorem walkElementWith_eq : Performs (walkElementWith walker) (renderElementWith element) := by
  intro tag children
  unfold walkElementWith renderElementWith
  rw [walkOutlet_eq below, walkPlainElement_eq below, perform_ite]
  congr 1
  · cases (tag.directive? .vIf).bind Directive.expressionText? <;> rfl
  · cases tag.directive? .vFor with
    | none => rfl
    | some d =>
      dsimp only
      cases ForExpression.parse? (d.expressionText?.getD []) with
      | some loop => exact walkLoop_eq below loop tag children
      | none => exact walkUnlooped_eq below d tag children

end

end Agreement

theorem walkElement_eq (depth : Nat) : Performs (walkElement depth) (renderElement depth) := by
  induction depth with
  | zero => exact fun _ _ => rfl
  | succ depth ih => exact walkElementWith_eq ih

theorem walkTemplate_eq (nodes : List Node) :
    walkTemplate nodes = perform (renderTemplate nodes) := by
  unfold walkTemplate renderTemplate renderChildren
  rw [walkUnits_eq (walkElement_eq _), perform_bind]
  congr 1
  funext units
  generalize units.filter (!·.isBlankText) = shown
  rcases shown with - | ⟨only, - | -⟩ <;> rfl

/-- Rendering a template on a session writes and finds what the renderer does. Afterwards the
environment is what it was, its scopes, names, class map, source and tool included, and the findings
are the earlier ones with more behind them. -/
theorem walkTemplate_restores (nodes : List Node) (s : Session) :
    (walkTemplate nodes s).1 = (renderTemplate nodes s.environment s.findings).1 ∧
    (walkTemplate nodes s).2.findings = (renderTemplate nodes s.environment s.findings).2 ∧
    (walkTemplate nodes s).2.environment = s.environment ∧
    s.findings.Grows (walkTemplate nodes s).2.findings := by
  have notes : Render.Notes (fun _ => True) (renderTemplate nodes) :=
    Render.notes.renderTemplate fun tag _ => tag.allSpans_true
  rw [walkTemplate_eq]
  exact ⟨rfl, rfl, rfl, notes.grows s.environment s.findings⟩

end Jsx

end SfcJsx
