import SfcJsx.Jsx.Sibling

/-!
The groups of a sibling list cover its nodes, each once and in order. So whatever is known of all
tags below the siblings is known of those below a group.
-/

namespace SfcJsx.Markup

theorem Node.tagsOfList_eq_flatMap (nodes : List Node) : tagsOfList nodes = nodes.flatMap tags := by
  induction nodes with
  | nil => rfl
  | cons node nodes ih => rw [tagsOfList, ih, List.flatMap_cons]

def Tag.AllSpans (p : Span → Prop) (tag : Tag) : Prop :=
  p tag.span ∧ ∀ attr ∈ tag.attributes, p attr.span

theorem Tag.allSpans_true (tag : Tag) : tag.AllSpans fun _ => True := ⟨trivial, fun _ _ => trivial⟩

end SfcJsx.Markup

namespace SfcJsx.Jsx.Group

open Markup Node

theorem links_takeLinks (gap nodes : List Node) :
    (takeLinks gap nodes).1.flatMap (fun l => l.gap ++ [l.branch.node]) ++ (takeLinks gap nodes).2 =
      gap ++ nodes := by
  induction nodes generalizing gap with
  | nil => simp [takeLinks]
  | cons node rest ih =>
    unfold takeLinks
    split
    · simpa using ih (gap ++ [node])
    · split
      · split
        · simpa [Branch.node] using ih []
        · split
          · simp [Branch.node]
          · simp
      · simp

theorem nodes_ofNodes (nodes : List Node) : (ofNodes nodes).flatMap Group.nodes = nodes := by
  fun_induction ofNodes nodes with
  | case1 => rfl
  | case2 tag children rest _ after ih =>
    have links := links_takeLinks [] rest
    rw [List.flatMap_cons, ih]
    simpa [Group.nodes, Branch.node] using links
  | case3 tag children rest _ ih => simp [ih, Group.nodes]
  | case4 node rest _ ih => simp [ih, Group.nodes]

theorem tags_subset {group : Group} {nodes : List Node} (member : group ∈ ofNodes nodes) :
    tagsOfList group.nodes ⊆ tagsOfList nodes := by
  intro tag below
  rw [tagsOfList_eq_flatMap, List.mem_flatMap] at below ⊢
  obtain ⟨node, inside, below⟩ := below
  refine ⟨node, ?_, below⟩
  rw [← nodes_ofNodes nodes]
  exact List.mem_flatMap.2 ⟨group, member, inside⟩

end SfcJsx.Jsx.Group
