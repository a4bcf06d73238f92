import Mathlib.Data.List.Forall2
import SfcJsx.Proofs.StructuralDirectives

/-!
Chains of conditions among siblings. Siblings are cut into groups that follow one another; a chain
takes in every branch that can follow its first one, so what comes behind it does not go on with it.
A chain is written as one conditional expression, test by test, with the last branch or `null` at
its end.
-/

namespace SfcJsx.Jsx

open List Markup
open Expression (qualifiedFrom)

namespace Group

def branches (first : Branch) (links : List Link) : List Branch := first :: links.map (·.branch)

/-- Siblings that do not go on with a chain in front of them. -/
def Detached (rest : List Node) : Prop :=
  ∀ tag children, rest.find? (!·.isBlank) = some (.element tag children) →
    tag.has .vElseIf = false ∧ tag.has .vElse = false

/-- Branches that follow the first one of a chain, and the siblings behind them. -/
inductive Follows : List Link → List Node → Prop
  | ends {rest : List Node} (detached : Detached rest) : Follows [] rest
  | otherwise {gap : List Node} {tag : Tag} {children rest : List Node}
      (blank : ∀ node ∈ gap, node.isBlank) (goesOn : tag.has .vElseIf = false)
      (last : tag.has .vElse) : Follows [⟨gap, none, tag, children⟩] rest
  | elseIf {gap : List Node} {tag : Tag} {children rest : List Node} {links : List Link}
      (blank : ∀ node ∈ gap, node.isBlank) (goesOn : tag.has .vElseIf)
      (later : Follows links rest) :
      Follows (⟨gap, some (condition tag .vElseIf), tag, children⟩ :: links) rest

theorem find?_shown {gap : List Node} (blank : ∀ node ∈ gap, node.isBlank)
    (rest : List Node) : (gap ++ rest).find? (!·.isBlank) = rest.find? (!·.isBlank) := by
  rw [find?_append, find?_eq_none.2 (by simpa using blank), Option.none_or]

theorem follows_takeLinks (gap nodes : List Node) (blank : ∀ node ∈ gap, node.isBlank) :
    Follows (takeLinks gap nodes).1 (takeLinks gap nodes).2 := by
  induction nodes generalizing gap with
  | nil =>
    refine .ends fun tag children found => ?_
    have none := find?_shown blank []
    rw [append_nil] at none
    rw [takeLinks, none] at found
    cases found
  | cons node rest ih =>
    cases shown : node.isBlank with
    | true =>
      rw [takeLinks_blank gap rest shown]
      exact ih _ (forall_mem_append.2 ⟨blank, forall_mem_singleton.2 shown⟩)
    | false =>
      -- A sibling that neither goes on with the chain nor ends it leaves it as it is.
      have stops (other : ∀ tag children, node = .element tag children →
          tag.has .vElseIf = false ∧ tag.has .vElse = false) :
          Follows (takeLinks gap (node :: rest)).1 (takeLinks gap (node :: rest)).2 := by
        rw [takeLinks_other gap rest shown other]
        refine .ends fun tag children found => ?_
        rw [find?_shown blank, find?_cons_of_pos (by simp [shown])] at found
        exact other tag children (Option.some.inj found)
      cases node with
      | element tag children =>
        cases goesOn : tag.has .vElseIf with
        | true =>
          rw [takeLinks_elseIf gap rest goesOn]
          exact .elseIf blank goesOn (ih [] (by simp))
        | false =>
          cases last : tag.has .vElse with
          | true =>
            rw [takeLinks_else gap rest goesOn last]
            exact .otherwise blank goesOn last
          | false =>
            apply stops
            rintro _ _ ⟨⟩
            exact ⟨goesOn, last⟩
      | text | interpolation | comment => exact stops (by simp)

/-- An element with `v-if` and without `v-for` that is no outlet. -/
structure OpensChain (tag : Tag) : Prop where
  tested : tag.has .vIf
  unlooped : tag.has .vFor = false
  element : tag.name ≠ "slot"

theorem startsChain_iff {tag : Tag} : startsChain tag ↔ OpensChain tag := by
  simp only [startsChain, isOutlet, Bool.and_eq_true, Bool.not_eq_true', beq_eq_false_iff_ne]
  constructor
  · rintro ⟨⟨tested, unlooped⟩, element⟩
    exact ⟨tested, unlooped, element⟩
  · exact fun opens => ⟨⟨opens.tested, opens.unlooped⟩, opens.element⟩

/-- The test that a directive of an element states: its expression, or `false` if it has none. -/
def IsTest (tag : Tag) (kind : DirectiveKind) (test : Option Text) : Prop :=
  ∃ d, tag.directive? kind = some d ∧ test = some ((d.expression.map Bound.content).getD "false")

theorem isTest_condition {tag : Tag} {kind : DirectiveKind} (here : tag.has kind) :
    IsTest tag kind (some (condition tag kind)) := by
  obtain ⟨d, found⟩ := Option.isSome_iff_exists.1 here
  exact ⟨d, found, by rw [condition, found, Option.bind_some, Directive.expressionText?]⟩

/-- Branches that make up a chain: the first one opens it, only white space stands between them,
and a branch without a test ends it. Otherwise no sibling behind it goes on with it. -/
structure IsChain (first : Branch) (links : List Link) (rest : List Node) : Prop where
  opens : OpensChain first.tag
  test : IsTest first.tag .vIf first.condition
  /-- The elements of the chain are its branches, and all else in it is white space. -/
  elements : (chain first links).nodes.filterMap Node.element? =
    (branches first links).map fun branch => (branch.tag, branch.children)
  blanks : ∀ node ∈ (chain first links).nodes, node.element? = none → node.isBlank
  last : (chain first links).nodes.getLast? = (branches first links).getLast?.map Branch.node
  later : ∀ branch ∈ links.map (·.branch),
    IsTest branch.tag .vElseIf branch.condition ∨
      branch.tag.has .vElseIf = false ∧ branch.tag.has .vElse ∧ branch.condition = none
  otherwise : ∀ branch ∈ (branches first links).dropLast, branch.condition.isSome
  maximal : (∀ branch ∈ branches first links, branch.condition.isSome) → Detached rest

section Follows

variable {links : List Link} {rest : List Node}

theorem Follows.blank (h : Follows links rest) :
    ∀ link ∈ links, ∀ node ∈ link.gap, node.isBlank := by
  induction h with
  | ends => simp
  | otherwise blank => exact forall_mem_singleton.2 blank
  | elseIf blank _ _ ih => exact forall_mem_cons.2 ⟨blank, ih⟩

theorem Follows.later (h : Follows links rest) : ∀ branch ∈ links.map (·.branch),
    IsTest branch.tag .vElseIf branch.condition ∨
      branch.tag.has .vElseIf = false ∧ branch.tag.has .vElse ∧
        branch.condition = none := by
  induction h with
  | ends => simp
  | otherwise _ goesOn last => exact forall_mem_singleton.2 (.inr ⟨goesOn, last, rfl⟩)
  | elseIf _ goesOn _ ih => exact forall_mem_cons.2 ⟨.inl (isTest_condition goesOn), ih⟩

theorem Follows.otherwise_last (h : Follows links rest) {first : Branch}
    (tested : first.condition.isSome) :
    ∀ branch ∈ (branches first links).dropLast, branch.condition.isSome := by
  induction h generalizing first with
  | ends => simp [branches]
  | otherwise => simpa [branches] using tested
  | elseIf _ _ _ ih => exact forall_mem_cons.2 ⟨tested, ih rfl⟩

theorem Follows.detached (h : Follows links rest)
    (tested : ∀ branch ∈ links.map (·.branch), branch.condition.isSome) : Detached rest := by
  induction h with
  | ends detached => exact detached
  | otherwise => simp at tested
  | elseIf _ _ _ ih => exact ih (forall_mem_cons.1 tested).2

end Follows

section Nodes

variable {first : Branch} {links : List Link}
  (blank : ∀ link ∈ links, ∀ node ∈ link.gap, node.isBlank)

theorem element?_of_isBlank {node : Node} (blank : node.isBlank) : node.element? = none := by
  cases node with
  | element tag children => simp [Node.isBlank] at blank
  | text | interpolation | comment => rfl

include blank

theorem elements_links : (links.flatMap fun l => l.gap ++ [l.branch.node]).filterMap
    Node.element? = links.map fun l => (l.branch.tag, l.branch.children) := by
  induction links with
  | nil => rfl
  | cons link links ih =>
    obtain ⟨here, later⟩ := forall_mem_cons.1 blank
    have gap : link.gap.filterMap Node.element? = [] :=
      filterMap_eq_nil_iff.2 fun node member => element?_of_isBlank (here node member)
    rw [flatMap_cons, filterMap_append, filterMap_append, gap, ih later]
    rfl

theorem elements_chain : (chain first links).nodes.filterMap Node.element? =
    (branches first links).map fun branch => (branch.tag, branch.children) := by
  have head : first.node.element? = some (first.tag, first.children) := rfl
  rw [Group.nodes, filterMap_cons_some head, elements_links blank, branches, map_cons, map_map]
  rfl

theorem blanks_chain : ∀ node ∈ (chain first links).nodes, node.element? = none → node.isBlank := by
  intro node member none
  rcases mem_cons.1 member with rfl | later
  · cases none
  · obtain ⟨link, inside, among⟩ := mem_flatMap.1 later
    rcases mem_append.1 among with gap | last
    · exact blank link inside node gap
    · rw [mem_singleton.1 last] at none
      cases none

end Nodes

theorem getLast?_chain (first : Branch) (links : List Link) :
    (chain first links).nodes.getLast? = (branches first links).getLast?.map Branch.node := by
  rcases eq_nil_or_concat links with rfl | ⟨earlier, link, rfl⟩
  · rfl
  · have nodes : (chain first (earlier ++ [link])).nodes =
        (first.node :: (earlier.flatMap fun l => l.gap ++ [l.branch.node]) ++ link.gap) ++
          [link.branch.node] := by
      simp [Group.nodes]
    have last : branches first (earlier ++ [link]) = branches first earlier ++ [link.branch] := by
      simp [branches]
    rw [concat_eq_append, nodes, last, getLast?_concat, getLast?_concat]
    rfl

theorem isChain_takeLinks {tag : Tag} (starts : startsChain tag)
    (children rest : List Node) : IsChain ⟨some (condition tag .vIf), tag, children⟩
      (takeLinks [] rest).1 (takeLinks [] rest).2 := by
  have follows := follows_takeLinks [] rest (by simp)
  have opens := startsChain_iff.1 starts
  exact ⟨opens, isTest_condition opens.tested, elements_chain follows.blank,
    blanks_chain follows.blank, getLast?_chain _ _, follows.later, follows.otherwise_last rfl,
    fun tested => follows.detached (forall_mem_cons.1 tested).2⟩

/-- A group and the siblings behind it: a chain, or a node that opens none. -/
inductive IsCut : Group → List Node → Prop
  | single {node : Node} {rest : List Node}
      (alone : ∀ tag children, node = .element tag children → ¬ OpensChain tag) :
      IsCut (.single node) rest
  | chain {first : Branch} {links : List Link} {rest : List Node}
      (chained : IsChain first links rest) : IsCut (.chain first links) rest

theorem nodes_ne_nil (group : Group) : group.nodes ≠ [] := by
  cases group <;> simp [Group.nodes]

theorem isCut_ofNodes {nodes : List Node} {earlier later : List Group} {group : Group}
    (split : ofNodes nodes = earlier ++ group :: later) :
    IsCut group (later.flatMap Group.nodes) := by
  fun_induction ofNodes nodes generalizing earlier
  case case1 => simp at split
  case case2 tag children rest starts after ih =>
    cases earlier with
    | nil =>
      cases split
      rw [nodes_ofNodes]
      exact .chain (isChain_takeLinks starts children rest)
    | cons first earlier => exact ih (cons.inj split).2
  case case3 tag children rest alone ih =>
    cases earlier with
    | nil =>
      cases split
      refine .single ?_
      rintro _ _ ⟨⟩
      exact fun opens => alone (startsChain_iff.2 opens)
    | cons first earlier => exact ih (cons.inj split).2
  case case4 node rest other ih =>
    cases earlier with
    | nil =>
      cases split
      exact .single fun tag children same => absurd same (other tag children)
    | cons first earlier => exact ih (cons.inj split).2

end Group

section Text

variable {element : ElementRenderer} {env : Environment}

/-- A text that the element of a branch is written as, whatever was found before. -/
def Branch.HasBody (element : ElementRenderer) (env : Environment) (branch : Branch)
    (body : Text) : Prop := ∃ found, body = (element branch.tag branch.children env found).1

def Branch.text (env : Environment) (branch : Branch) (body : Text) : Text :=
  match branch.condition with
  | some condition => qualifiedFrom env {} condition ++ " ? " ++ body ++ " : "
  | none => body

def emptyEnd (branches : List Branch) : Text :=
  if branches.all (·.condition.isSome) then "null" else []

variable (element env) in
theorem renderBranches_text {branches : List Branch}
    (otherwise : ∀ branch ∈ branches.dropLast, branch.condition.isSome)
    (found : Findings) : ∃ bodies, List.Forall₂ (Branch.HasBody element env) branches bodies ∧
      (renderBranches element branches env found).1 =
        (zipWith (Branch.text env) branches bodies).flatten ++ emptyEnd branches := by
  induction branches generalizing found with
  | nil => exact ⟨[], .nil, rfl⟩
  | cons branch rest ih =>
    cases tested : branch.condition with
    | some condition =>
      have later : ∀ other ∈ rest.dropLast, other.condition.isSome := by
        intro other member
        cases rest with
        | nil => cases member
        | cons next rest => exact otherwise other (mem_cons_of_mem _ member)
      obtain ⟨after, text⟩ := renderBranches_cons element env tested rest found
      obtain ⟨bodies, rendered, restText⟩ := ih later after
      refine ⟨_ :: bodies, .cons ⟨found, rfl⟩ rendered, ?_⟩
      rw [text, restText]
      simp [Branch.text, tested, emptyEnd]
    | none =>
      -- A branch without a test is the last one.
      cases rest with
      | cons next rest => simpa [tested] using otherwise branch (by simp)
      | nil =>
        refine ⟨[(element branch.tag branch.children env found).1], .cons ⟨found, rfl⟩ .nil, ?_⟩
        rw [renderBranches, Render.bind_apply, tested]
        simp [Branch.text, tested, emptyEnd, Render.pure_apply]

end Text

section Units

variable {α β : Type} {element : ElementRenderer} {env : Environment}

theorem forall₂_filterMapM {g : α → Render (Option β)} {gives : α → Option β → Prop}
    {items : List α} (each : ∀ item ∈ items, ∀ found, gives item (g item env found).1)
    (found : Findings) : ∃ results, List.Forall₂ gives items results ∧
      (items.filterMapM g env found).1 = results.filterMap id := by
  induction items generalizing found with
  | nil => exact ⟨[], .nil, rfl⟩
  | cons item items ih =>
    obtain ⟨here, later⟩ := forall_mem_cons.1 each
    obtain ⟨results, given, same⟩ := ih later (g item env found).2
    refine ⟨(g item env found).1 :: results, .cons (here found) given, ?_⟩
    rw [filterMapM_cons, Render.bind_apply]
    cases (g item env found).1 with
    | none => exact same
    | some b => exact congrArg (b :: ·) same

/-- What a group renders to: a node by itself, or a chain with the bodies of its branches. -/
inductive Group.RendersTo (element : ElementRenderer) (env : Environment) :
    Group → Option Text → Prop
  | single {node : Node} (found : Findings) :
      RendersTo element env (.single node) (renderNode element node env found).1
  | chain {first : Branch} {links : List Link} {bodies : List Text}
      (rendered : List.Forall₂ (Branch.HasBody element env) (branches first links) bodies) :
      RendersTo element env (.chain first links)
        (some ("\x7b" ++ (zipWith (Branch.text env) (branches first links) bodies).flatten ++
          emptyEnd (branches first links) ++ "\x7d"))

theorem Group.IsCut.rendersTo {group : Group} {rest : List Node} (h : group.IsCut rest)
    (found : Findings) : group.RendersTo element env (renderGroup element group env found).1 := by
  cases h with
  | @single node rest alone =>
    cases node with
    | element tag children => exact .single (warnStray tag env found).2
    | text | interpolation | comment => exact .single found
  | chain chained =>
    obtain ⟨bodies, rendered, text⟩ := renderBranches_text element env chained.otherwise found
    rw [branches] at text
    rw [renderGroup_chain, text]
    exact .chain rendered

/-- Siblings are cut into groups that follow one another and cover each of them once. A group is a
single node, or a chain with all branches that can follow its first one; it is written as the tests
and bodies of its branches, with the last body or `null` at its end. -/
theorem chains_partition_siblings (nodes : List Node) :
    (Group.ofNodes nodes).flatMap Group.nodes = nodes ∧
      (∀ earlier group later, Group.ofNodes nodes = earlier ++ group :: later →
        group.nodes ≠ [] ∧ group.IsCut (later.flatMap Group.nodes)) ∧
      ∀ element env found, ∃ units,
        List.Forall₂ (Group.RendersTo element env) (Group.ofNodes nodes) units ∧
          (renderUnits element nodes env found).1 = units.filterMap id := by
  refine ⟨Group.nodes_ofNodes nodes, fun earlier group later split => ?_,
    fun element env found => ?_⟩
  · exact ⟨group.nodes_ne_nil, Group.isCut_ofNodes split⟩
  · refine forall₂_filterMapM (fun group member found => ?_) found
    obtain ⟨earlier, later, split⟩ := append_of_mem member
    exact (Group.isCut_ofNodes split).rendersTo found

example : (renderUnits (renderElement 1) (Component.parse
    "<template><a v-if=\"x\"/> <b v-else-if=\"y\"/><c v-else/><d v-else/></template>"
      ).1.templateNodes (topLevel []) {}).1 = ["\x7bx ? <a /> : y ? <b /> : <c />\x7d", "<d />"] := by
  decide +kernel

end Units

end SfcJsx.Jsx
