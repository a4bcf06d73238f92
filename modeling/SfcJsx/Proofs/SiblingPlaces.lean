import SfcJsx.Proofs.IgnoredDirectives
import SfcJsx.Proofs.SiblingGroups

/-!
The place of an element among its siblings. Either a group starts with it, or it goes on with a
chain that started before; and which of the two it is does not depend on a condition of its own,
since only `v-else-if` and `v-else` are looked at where a chain goes on.
-/

namespace SfcJsx.Jsx

open List Markup

variable {node : Node} {tag : Tag}

namespace Group

/-- Among the siblings `before` and `rest` a group starts with `rest`. -/
def StartsAt (before rest : List Node) : Prop :=
  ∃ earlier, ofNodes (before ++ rest) = earlier ++ ofNodes rest ∧
    earlier.flatMap Group.nodes = before

/-- A tag that goes on with a chain in the same way as another. -/
structure Alike (tag other : Tag) : Prop where
  elseIf : other.has .vElseIf = tag.has .vElseIf
  otherwise : other.has .vElse = tag.has .vElse
  condition : condition other .vElseIf = condition tag .vElseIf

theorem Alike.refl (tag : Tag) : Alike tag tag := ⟨rfl, rfl, rfl⟩

theorem alike_without_condition (tag : Tag) : Alike tag (tag.without .vIf) where
  elseIf := tag.has_without (by simp)
  otherwise := tag.has_without (by simp)
  condition := by rw [Group.condition, tag.directive?_without (by simp), Group.condition]

section Links

variable (gap rest : List Node)

theorem takeLinks_blank (blank : node.isBlank) :
    takeLinks gap (node :: rest) = takeLinks (gap ++ [node]) rest := by
  conv => lhs; unfold takeLinks
  rw [if_pos blank]

theorem takeLinks_elseIf (goesOn : tag.has .vElseIf) (children : List Node) :
    takeLinks gap (.element tag children :: rest) =
      (⟨gap, some (condition tag .vElseIf), tag, children⟩ :: (takeLinks [] rest).1,
        (takeLinks [] rest).2) := by
  exact if_pos goesOn

theorem takeLinks_else (goesOn : tag.has .vElseIf = false)
    (ends : tag.has .vElse) (children : List Node) :
    takeLinks gap (.element tag children :: rest) = ([⟨gap, none, tag, children⟩], rest) := by
  rw [takeLinks, if_neg (by simp [Node.isBlank])]
  simp [goesOn, ends]

theorem takeLinks_other (shown : node.isBlank = false)
    (other : ∀ tag children, node = .element tag children →
      tag.has .vElseIf = false ∧ tag.has .vElse = false) :
    takeLinks gap (node :: rest) = ([], gap ++ node :: rest) := by
  conv => lhs; unfold takeLinks
  rw [if_neg (by simp [shown])]
  cases node with
  | element tag children =>
    obtain ⟨goesOn, ends⟩ := other tag children rfl
    simp [goesOn, ends]
  | text | interpolation | comment => rfl

end Links

/-- Links that are taken from siblings up to some element leave it or have it among them. -/
inductive Taken (gap before : List Node) (tag : Tag) (children after : List Node) : Prop
  | leaves (links : List Link) (left : List Node)
      (nodes : links.flatMap (fun l => l.gap ++ [l.branch.node]) ++ left = gap ++ before)
      (taken : ∀ other, Alike tag other →
        takeLinks gap (before ++ .element other children :: after) =
          (links, left ++ .element other children :: after))
  | holds (links : List Link) (last : List Node) (condition : Option Text) (more : List Link)
      (rest : List Node) (conditions : ∀ l ∈ links, l.branch.condition.isSome)
      (taken : ∀ other, Alike tag other →
        takeLinks gap (before ++ .element other children :: after) =
          (links ++ ⟨last, condition, other, children⟩ :: more, rest))

theorem taken (gap before : List Node) (tag : Tag) (children after : List Node) :
    Taken gap before tag children after := by
  induction before generalizing gap with
  | nil =>
    cases goesOn : tag.has .vElseIf with
    | true =>
      refine .holds [] gap (some (condition tag .vElseIf)) (takeLinks [] after).1
        (takeLinks [] after).2 (by simp) fun other alike => ?_
      rw [nil_append, takeLinks_elseIf gap after (alike.elseIf.trans goesOn), alike.condition]
      rfl
    | false =>
      cases ends : tag.has .vElse with
      | true =>
        refine .holds [] gap none [] after (by simp) fun other alike => ?_
        exact takeLinks_else gap after (alike.elseIf.trans goesOn) (alike.otherwise.trans ends) _
      | false =>
        refine .leaves [] gap (by simp) fun other alike => ?_
        apply takeLinks_other gap after rfl
        rintro _ _ ⟨⟩
        exact ⟨alike.elseIf.trans goesOn, alike.otherwise.trans ends⟩
  | cons node before ih =>
    -- Whatever stops at `node` does so whatever comes later.
    have stops (shown : node.isBlank = false)
        (other : ∀ tag children, node = .element tag children →
          tag.has .vElseIf = false ∧ tag.has .vElse = false) :
        Taken gap (node :: before) tag children after := by
      refine .leaves [] (gap ++ node :: before) rfl fun other' alike => ?_
      rw [cons_append, takeLinks_other gap _ shown other]
      simp
    cases node with
    | element first inner =>
      cases goesOn : first.has .vElseIf with
      | true =>
        cases ih [] with
        | leaves links left nodes taken =>
          refine .leaves (⟨gap, some (condition first .vElseIf), first, inner⟩ :: links) left ?_
            fun other alike => ?_
          · simpa [Branch.node] using nodes
          · rw [cons_append, takeLinks_elseIf gap _ goesOn, taken other alike]
        | holds links last condition' more rest conditions taken =>
          refine .holds (⟨gap, some (condition first .vElseIf), first, inner⟩ :: links) last
            condition' more rest ?_ fun other alike => ?_
          · exact forall_mem_cons.2 ⟨rfl, conditions⟩
          · rw [cons_append, takeLinks_elseIf gap _ goesOn, taken other alike]
            rfl
      | false =>
        cases ends : first.has .vElse with
        | true =>
          refine .leaves [⟨gap, none, first, inner⟩] before (by simp [Branch.node])
            fun other alike => ?_
          rw [cons_append, takeLinks_else gap _ goesOn ends]
        | false =>
          apply stops rfl
          rintro _ _ ⟨⟩
          exact ⟨goesOn, ends⟩
    | text span data =>
      cases shown : (Node.text span data).isBlank with
      | true =>
        cases ih (gap ++ [.text span data]) with
        | leaves links left nodes taken =>
          refine .leaves links left (by simpa using nodes) fun other alike => ?_
          rw [cons_append, takeLinks_blank gap _ shown, taken other alike]
        | holds links last condition' more rest conditions taken =>
          refine .holds links last condition' more rest conditions fun other alike => ?_
          rw [cons_append, takeLinks_blank gap _ shown, taken other alike]
      | false => exact stops shown (by simp)
    | interpolation span expression => exact stops rfl (by simp)
    | comment span data => exact stops rfl (by simp)

theorem ofNodes_chain (starts : startsChain tag) (children rest : List Node) :
    ofNodes (.element tag children :: rest) =
      .chain ⟨some (condition tag .vIf), tag, children⟩ (takeLinks [] rest).1 ::
        ofNodes (takeLinks [] rest).2 := by
  rw [ofNodes, if_pos starts]

theorem ofNodes_single
    (alone : ∀ tag children, node = .element tag children → startsChain tag = false)
    (rest : List Node) : ofNodes (node :: rest) = .single node :: ofNodes rest := by
  cases node with
  | element tag children => rw [ofNodes, if_neg (by simp [alone tag children rfl])]
  | text | interpolation | comment =>
    rw [ofNodes]
    simp

/-- An element among its siblings starts a group or goes on with a chain. -/
inductive Place (before : List Node) (tag : Tag) (children after : List Node) : Prop
  | starts (here : StartsAt before (.element tag children :: after))
  | goesOn (earlier : List Group) (first : Branch) (links : List Link) (last : List Node)
      (condition : Option Text) (more : List Link) (later : List Group)
      (conditions : ∀ branch ∈ first :: links.map (·.branch), branch.condition.isSome)
      (groups : ∀ other, Alike tag other → ofNodes (before ++ .element other children :: after) =
        earlier ++ .chain first (links ++ ⟨last, condition, other, children⟩ :: more) :: later)

theorem Place.cons {before left : List Node} {children after : List Node}
    (h : Place left tag children after) (group : Group) (nodes : group.nodes ++ left = before)
    (groups : ∀ other, Alike tag other → ofNodes (before ++ .element other children :: after) =
      group :: ofNodes (left ++ .element other children :: after)) :
    Place before tag children after := by
  cases h with
  | starts here =>
    obtain ⟨earlier, split, covers⟩ := here
    refine .starts ⟨group :: earlier, ?_, ?_⟩
    · rw [groups tag (.refl tag), split, cons_append]
    · rw [flatMap_cons, covers, nodes]
  | goesOn earlier first links last condition more later conditions chain =>
    refine .goesOn (group :: earlier) first links last condition more later conditions ?_
    intro other alike
    rw [groups other alike, chain other alike, cons_append]

theorem place (before : List Node) (tag : Tag) (children after : List Node) :
    Place before tag children after := by
  induction size : before.length using Nat.strongRecOn generalizing before with
  | ind bound ih =>
    cases before with
    | nil => exact .starts ⟨[], rfl, rfl⟩
    | cons node before =>
      rw [length_cons] at size
      by_cases chained : ∃ first inner, node = .element first inner ∧ startsChain first
      · obtain ⟨first, inner, rfl, starts⟩ := chained
        cases taken [] before tag children after with
        | leaves links left nodes taken =>
          have shorter : left.length < bound := by
            have lengths := congrArg length nodes
            simp only [length_append, nil_append] at lengths
            omega
          apply (ih left.length shorter left rfl).cons
            (.chain ⟨some (condition first .vIf), first, inner⟩ links)
          · simpa [Group.nodes, Branch.node] using nodes
          · intro other alike
            rw [cons_append, ofNodes_chain starts, taken other alike]
        | holds links last condition' more rest conditions taken =>
          refine .goesOn [] ⟨some (condition first .vIf), first, inner⟩ links last condition' more
            (ofNodes rest) ?_ fun other alike => ?_
          · refine forall_mem_cons.2 ⟨rfl, ?_⟩
            simpa using conditions
          · rw [cons_append, ofNodes_chain starts, taken other alike, nil_append]
      · have alone (first : Tag) (inner : List Node) (same : node = .element first inner) :
            startsChain first = false := by
          rw [Bool.eq_false_iff]
          exact fun starts => chained ⟨first, inner, same, starts⟩
        apply (ih before.length (by omega) before rfl).cons (.single node) rfl
        exact fun other alike => ofNodes_single alone _

end Group

end SfcJsx.Jsx
