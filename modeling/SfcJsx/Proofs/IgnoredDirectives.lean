import SfcJsx.Jsx.Element

/-!
Directives that leave no attribute. A loop or a condition on an element is no attribute of it, so
whoever renders the element has to take it into account. What is rendered without regard to it is
rendered as if it were not there: a plain element as if it had no condition, an outlet as if it had
no loop.
-/

namespace SfcJsx

open List Markup Attribute

namespace Markup

def Attribute.isOf (kind : DirectiveKind) (attr : Attribute) : Bool :=
  attr.directive?.any (·.kind = kind)

namespace Tag

/-- The tag without the directives of a kind. -/
def without (tag : Tag) (kind : DirectiveKind) : Tag :=
  { tag with attributes := tag.attributes.filter fun attr => !attr.isOf kind }

variable {kind other : DirectiveKind}

@[simp] theorem name_without (tag : Tag) (kind : DirectiveKind) :
    (tag.without kind).name = tag.name := rfl

theorem find?_without {sought : Directive → Bool}
    (others : ∀ d, d.kind = kind → sought d = false) (attributes : List Attribute) :
    ((attributes.filter fun attr => !attr.isOf kind).filterMap Attribute.directive?).find? sought =
      (attributes.filterMap Attribute.directive?).find? sought := by
  induction attributes with
  | nil => rfl
  | cons attr rest ih =>
    cases attr with
    | plain attr => simpa [Attribute.directive?] using ih
    | directive d =>
      have here (more : List Attribute) : (Attribute.directive d :: more).filterMap
          Attribute.directive? = d :: more.filterMap Attribute.directive? := rfl
      by_cases same : d.kind = kind
      · rw [filter_cons_of_neg (by simp [Attribute.isOf, Attribute.directive?, same]), ih,
          here, find?_cons_of_neg (by simp [others d same])]
      · rw [filter_cons_of_pos (by simp [Attribute.isOf, Attribute.directive?, same]), here,
          here, find?_cons, find?_cons, ih]

theorem directive?_without (tag : Tag) (ne : other ≠ kind) :
    (tag.without kind).directive? other = tag.directive? other :=
  find?_without (fun d same => by simpa [same] using ne.symm) tag.attributes

theorem has_without (tag : Tag) (ne : other ≠ kind) :
    (tag.without kind).has other = tag.has other := by
  rw [has, directive?_without tag ne, has]

theorem bound?_without (tag : Tag) (ne : kind ≠ .vBind) (name : Text) :
    (tag.without kind).bound? name = tag.bound? name :=
  find?_without (fun d same => by simp [same, ne]) tag.attributes

theorem plain?_without (tag : Tag) (name : Text) :
    (tag.without kind).plain? name = tag.plain? name := by
  have same (attributes : List Attribute) :
      (attributes.filter fun attr => !attr.isOf kind).filterMap Attribute.plain? =
        attributes.filterMap Attribute.plain? := by
    induction attributes with
    | nil => rfl
    | cons attr rest ih =>
      cases attr with
      | plain attr => simpa [Attribute.isOf, Attribute.directive?, Attribute.plain?] using ih
      | directive d =>
        rw [filterMap_cons_none rfl, filter_cons]
        split
        · rw [filterMap_cons_none rfl, ih]
        · exact ih
  rw [plain?, without, same, plain?]

end Tag

end Markup

namespace Jsx

variable {α β : Type}

theorem filterMapM_filter {g : α → Render (Option β)} {keeps : α → Bool}
    (skips : ∀ a, keeps a = false → g a = pure none) (items : List α) :
    (items.filter keeps).filterMapM g = items.filterMapM g := by
  induction items with
  | nil => rfl
  | cons item items ih =>
    rw [filter_cons, filterMapM_cons]
    split
    · rw [filterMapM_cons, ih]
    · next gone =>
      rw [skips item (by simpa using gone), ih]
      rfl

section Outlets

variable (element : ElementRenderer) (tag : Tag) (children : List Node)

theorem outletMember_of_loop {attr : Attribute} (loop : attr.isOf .vFor) :
    outletMember attr = pure none := by
  cases attr with
  | plain attr => simp [isOf, directive?] at loop
  | directive d =>
    have kind : d.kind = .vFor := by simpa [isOf, directive?] using loop
    simp [outletMember, kind]

theorem renderOutlet_without_loop :
    renderOutlet element (tag.without .vFor) children = renderOutlet element tag children := by
  have accessor : outletAccessor (tag.without .vFor) = outletAccessor tag := by
    rw [outletAccessor, tag.bound?_without (by simp), tag.plain?_without, outletAccessor]
  have members : (tag.without .vFor).attributes.filterMapM outletMember =
      tag.attributes.filterMapM outletMember :=
    filterMapM_filter (fun attr loop => outletMember_of_loop (by simpa using loop)) _
  rw [renderOutlet, accessor, members, renderOutlet]

theorem renderElementWith_outlet (outlet : Group.isOutlet tag) :
    renderElementWith element tag children =
      renderElementWith element (tag.without .vFor) children := by
  have still : Group.isOutlet (tag.without .vFor) := outlet
  rw [renderElementWith, renderElementWith, if_pos outlet, if_pos still,
    renderOutlet_without_loop, tag.directive?_without (by simp)]

end Outlets

section Elements

variable (element : ElementRenderer) (tag : Tag) (children : List Node)

theorem renderClass_without_condition : renderClass (tag.without .vIf) = renderClass tag := by
  rw [renderClass, tag.bound?_without (by simp), tag.plain?_without, renderClass]

theorem renderAttributesFrom_without_condition (classDone : Bool) (attributes : List Attribute) :
    renderAttributesFrom (tag.without .vIf) classDone
        (attributes.filter fun attr => !attr.isOf .vIf) =
      renderAttributesFrom tag classDone attributes := by
  induction attributes generalizing classDone with
  | nil => rfl
  | cons attr rest ih =>
    by_cases condition : attr.isOf .vIf
    · rw [filter_cons_of_neg (by simpa using condition), renderAttributesFrom, ih]
      cases attr with
      | plain attr => simp [isOf, directive?] at condition
      | directive d =>
        have kind : d.kind = .vIf := by
          simpa [isOf, directive?] using condition
        simp [isClass, renderAttribute, renderDirective, kind]
    · rw [filter_cons_of_pos (by simpa using condition), renderAttributesFrom,
        renderAttributesFrom, renderClass_without_condition]
      simp only [ih]

theorem renderPlainElement_without_condition :
    renderPlainElement element (tag.without .vIf) children =
      renderPlainElement element tag children := by
  have dynamic : isDynamicComponent (tag.without .vIf) = isDynamicComponent tag := by
    rw [isDynamicComponent, tag.bound?_without (by simp), tag.plain?_without]
    rfl
  have fragment : isFragment (tag.without .vIf) = isFragment tag := by
    rw [isFragment, tag.has_without (by simp)]
    rfl
  have content : renderContent element (tag.without .vIf) children =
      renderContent element tag children := by
    rw [renderContent, renderContent, tag.has_without (by simp), tag.has_without (by simp),
      renderComponentChildren, tag.directive?_without (by simp)]
    rfl
  have attributes : renderAttributes (tag.without .vIf) = renderAttributes tag :=
    renderAttributesFrom_without_condition tag false tag.attributes
  rw [renderPlainElement, dynamic, fragment, content, attributes]
  rfl

theorem renderElementWith_without_condition (inner : Group.isOutlet tag = false)
    (unlooped : tag.has .vFor = false) :
    renderElementWith element (tag.without .vIf) children =
      renderElementWith element tag children := by
  have still : Group.isOutlet (tag.without .vIf) = false := inner
  have loop : tag.directive? .vFor = none := by simpa [Tag.has] using unlooped
  rw [renderElementWith, renderElementWith, if_neg (by simp [still]), if_neg (by simp [inner]),
    tag.directive?_without (by simp), loop]
  exact renderPlainElement_without_condition element tag children

theorem renderElement_without_condition (depth : Nat) (inner : Group.isOutlet tag = false)
    (unlooped : tag.has .vFor = false) :
    renderElement depth (tag.without .vIf) children = renderElement depth tag children := by
  cases depth with
  | zero => rfl
  | succ depth => exact renderElementWith_without_condition _ tag children inner unlooped

end Elements

end Jsx

end SfcJsx
