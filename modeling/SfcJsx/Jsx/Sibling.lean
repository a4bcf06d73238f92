import SfcJsx.Markup.Node

/-!
Groups of siblings. A chain starts at an element with `v-if` and goes on with `v-else-if` elements
up to a `v-else`; between them stands only white space. Every other node is a group of its own.
-/

namespace SfcJsx.Jsx

open Markup

structure Branch where
  /-- Absent for `v-else`. -/
  condition : Option Text
  tag : Tag
  children : List Node

def Branch.node (b : Branch) : Node := .element b.tag b.children

/-- A branch after the first one, with the white space before it. -/
structure Link where
  gap : List Node
  branch : Branch

inductive Group where
  | single (node : Node)
  | chain (first : Branch) (links : List Link)

namespace Group

def nodes : Group → List Node
  | single node => [node]
  | chain first links => first.node :: links.flatMap fun l => l.gap ++ [l.branch.node]

def isOutlet (tag : Tag) : Bool := tag.name == "slot".toList

def startsChain (tag : Tag) : Bool := tag.has .vIf && !tag.has .vFor && !isOutlet tag

def condition (tag : Tag) (kind : DirectiveKind) : Text :=
  ((tag.directive? kind).bind Directive.expressionText?).getD "false"

/-- The links at the start of a sibling list and the siblings after them. White space that no branch
follows belongs to the rest; `gap` is the white space since the last branch. -/
def takeLinks (gap : List Node) : List Node → List Link × List Node
  | [] => ([], gap)
  | node :: rest =>
    if node.isBlank then takeLinks (gap ++ [node]) rest
    else match node with
      | .element tag children =>
        if tag.has .vElseIf then
          let after := takeLinks [] rest
          (⟨gap, some (condition tag .vElseIf), tag, children⟩ :: after.1, after.2)
        else if tag.has .vElse then ([⟨gap, none, tag, children⟩], rest)
        else ([], gap ++ .element tag children :: rest)
      | node => ([], gap ++ node :: rest)

theorem length_takeLinks_le (gap nodes : List Node) :
    (takeLinks gap nodes).2.length ≤ gap.length + nodes.length := by
  induction nodes generalizing gap with
  | nil => simp [takeLinks]
  | cons node rest ih =>
    unfold takeLinks
    split
    · have := ih (gap ++ [node])
      simp only [List.length_append, List.length_cons, List.length_nil] at this ⊢
      omega
    · split
      · split
        · have := ih []
          simp only [List.length_cons, List.length_nil] at this ⊢
          omega
        · split
          · simp only [List.length_cons]
            omega
          · simp
      · simp

def ofNodes : List Node → List Group
  | [] => []
  | .element tag children :: rest =>
    if startsChain tag then
      let after := takeLinks [] rest
      chain ⟨some (condition tag .vIf), tag, children⟩ after.1 :: ofNodes after.2
    else single (.element tag children) :: ofNodes rest
  | node :: rest => single node :: ofNodes rest
termination_by nodes => nodes.length
decreasing_by
  · have := length_takeLinks_le [] rest
    simp at this ⊢
    omega
  · simp
  · simp

end Group

end SfcJsx.Jsx
