import Mathlib.Data.List.Sort
import SfcJsx.Proofs.ImportMerge

/-!
The form of merged import statements. They are in strict order, a source has one statement and
perhaps a second one for a default that only types use, and the entries of a statement are in strict
order of their names. Merging statements of this form changes nothing.
-/

namespace SfcJsx.Script

open List Std

variable {i : Import} {α : Type} {cmp : α → α → Ordering}

theorem pairwise_lt_mergeSort [TransCmp cmp] {l : List α}
    (apart : l.Pairwise fun a b => cmp a b ≠ .eq) :
    (l.mergeSort fun a b => (cmp a b).isLE).Pairwise fun a b => cmp a b = .lt := by
  have symm : ∀ {a b}, cmp a b ≠ .eq → cmp b a ≠ .eq := fun ne equal =>
    ne (OrientedCmp.eq_symm equal)
  have total : ∀ a b, ((cmp a b).isLE || (cmp b a).isLE) := by
    intro a b
    rw [@Std.OrientedCmp.eq_swap _ cmp _ b a]
    cases cmp a b <;> rfl
  have sorted := @pairwise_mergeSort _ (fun a b => (cmp a b).isLE)
    (fun _ _ _ => TransCmp.isLE_trans) total l
  have distinct := ((mergeSort_perm l fun a b => (cmp a b).isLE).pairwise_iff symm).2 apart
  refine (sorted.and distinct).imp fun {a b} both => ?_
  cases compared : cmp a b with
  | lt => rfl
  | eq => exact absurd compared both.2
  | gt => simp [compared] at both

theorem eq_of_pairwise_lt [TransCmp cmp] {l m : List α} (left : l.Pairwise fun a b => cmp a b = .lt)
    (right : m.Pairwise fun a b => cmp a b = .lt) (same : ∀ a, a ∈ l ↔ a ∈ m) : l = m := by
  have asymm : ∀ {a b}, cmp a b = .lt → cmp b a ≠ .lt := by
    intro a b less
    rw [@Std.OrientedCmp.eq_swap _ cmp _ b a, less]
    simp
  have : Irrefl fun a b => cmp a b = .lt := ⟨fun _ less => asymm less less⟩
  have : Antisymm fun a b => cmp a b = .lt := ⟨fun _ _ less more => absurd more (asymm less)⟩
  exact left.eq_of_mem_iff right same

namespace Import

instance : Std.TransCmp order :=
  inferInstanceAs (Std.TransCmp (compareLex
    (compareOn fun i : Import => i.source != frameworkModule)
    (compareLex (compareOn Import.source) (compareOn Import.typeOnly))))

instance : Std.TransCmp nameOrder :=
  inferInstanceAs (Std.TransCmp (compareLex
    (compareOn fun item : NamedImport => item.imported.lower) (compareOn NamedImport.imported)))

theorem order_eq_iff {a b : Import} :
    order a b = .eq ↔ a.source = b.source ∧ a.typeOnly = b.typeOnly := by
  simp only [order, Ordering.then_eq_eq, LawfulEqCmp.compare_eq_iff_eq]
  exact ⟨fun h => h.2, fun h => ⟨by rw [h.1], h⟩⟩

theorem nameOrder_eq_iff {a b : NamedImport} : nameOrder a b = .eq ↔ a.imported = b.imported := by
  simp only [nameOrder, Ordering.then_eq_eq, LawfulEqCmp.compare_eq_iff_eq]
  exact ⟨fun h => h.2, fun h => ⟨by rw [h], h⟩⟩

theorem imported_ne_of_nameOrder {a b : NamedImport} (less : nameOrder a b = .lt) :
    a.imported ≠ b.imported := by
  intro same
  rw [nameOrder_eq_iff.2 same] at less
  cases less

def OnlyTypes (name : Text) (named : List NamedImport) : Prop :=
  ∀ item ∈ named, item.imported = name → item.typeOnly

theorem onlyTypes_addNamed (name : Text) (item : NamedImport) (named : List NamedImport) :
    OnlyTypes name (addNamed item named) ↔
      OnlyTypes name named ∧ (item.imported = name → item.typeOnly) := by
  induction named with
  | nil => simp [OnlyTypes, addNamed]
  | cons other named ih =>
    unfold addNamed
    split
    · next same =>
      simp only [OnlyTypes, forall_mem_cons, Bool.and_eq_true, same]
      exact ⟨fun h => ⟨⟨fun e => (h.1 e).1, h.2⟩, fun e => (h.1 e).2⟩,
        fun h => ⟨fun e => ⟨h.1.1 e, h.2 e⟩, h.1.2⟩⟩
    · simp only [OnlyTypes, forall_mem_cons] at ih ⊢
      rw [ih, and_assoc]

theorem onlyTypes_foldl_addNamed (name : Text) (items named : List NamedImport) :
    OnlyTypes name (items.foldl (fun named item => addNamed item named) named) ↔
      OnlyTypes name named ∧ OnlyTypes name items := by
  induction items generalizing named with
  | nil => simp [OnlyTypes]
  | cons item items ih =>
    rw [foldl_cons, ih, onlyTypes_addNamed, and_assoc]
    simp [OnlyTypes]

variable {imports : List Import} {named : List NamedImport}

theorem addNamed_of_not_mem {item : NamedImport} (fresh : item.imported ∉ named.map (·.imported)) :
    addNamed item named = named ++ [item] := by
  induction named with
  | nil => rfl
  | cons other named ih =>
    rw [map_cons, mem_cons, not_or] at fresh
    rw [addNamed, if_neg (Ne.symm fresh.1), ih fresh.2]
    rfl

theorem foldl_addNamed_of_nodup {items : List NamedImport}
    (distinct : ((named ++ items).map (·.imported)).Nodup) :
    items.foldl (fun named item => addNamed item named) named = named ++ items := by
  induction items generalizing named with
  | nil => simp
  | cons item items ih =>
    have fresh : item.imported ∉ named.map (·.imported) := by
      rw [map_append, nodup_append] at distinct
      exact fun known => distinct.2.2 _ known _ (by simp) rfl
    rw [append_cons] at distinct
    rw [foldl_cons, addNamed_of_not_mem fresh, ih distinct, append_assoc, singleton_append]

theorem nodup_of_pairwise (ordered : named.Pairwise fun a b => nameOrder a b = .lt) :
    (named.map (·.imported)).Nodup := by
  rw [List.Nodup, pairwise_map]
  exact ordered.imp imported_ne_of_nameOrder

section Group

variable {source : Text} {group : List Import} {item : NamedImport}

/-- The statement that brings in a default name as a type. -/
def typeDefault (source name : Text) : Import :=
  { source, defaultName := some name, typeOnly := true }

/-- A group in its final form: a statement with its entries in strict order, and perhaps a default
that only types use apart from it. -/
inductive IsMerged (source : Text) : List Import → Prop
  | one {i : Import} (own : i.source = source)
      (ordered : i.named.Pairwise fun a b => nameOrder a b = .lt) : IsMerged source [i]
  | two {i : Import} (own : i.source = source)
      (ordered : i.named.Pairwise fun a b => nameOrder a b = .lt) (value : i.typeOnly = false)
      (name : Text) : IsMerged source [i, typeDefault source name]

theorem pairwise_named_mergeSort (items : List NamedImport) :
    ((items.foldl (fun named item => addNamed item named) []).mergeSort
      fun a b => (nameOrder a b).isLE).Pairwise fun a b => nameOrder a b = .lt := by
  apply pairwise_lt_mergeSort
  have distinct := @nodup_foldl_addNamed [] items nodup_nil
  rw [List.Nodup, pairwise_map] at distinct
  exact distinct.imp fun ne equal => ne (nameOrder_eq_iff.1 equal)

theorem isMerged_mergeGroup (source : Text) (group : List Import) :
    IsMerged source (mergeGroup source group) := by
  rw [mergeGroup_eq]
  cases apart : typeDefault? group with
  | none => exact .one rfl (pairwise_named_mergeSort _)
  | some name =>
    have mixed : group.all (·.typeOnly) = false := by
      cases all : group.all (·.typeOnly) with
      | false => rfl
      | true => simp [typeDefault?, all] at apart
    refine IsMerged.two ?_ ?_ ?_ name
    · rfl
    · exact pairwise_named_mergeSort _
    · exact mixed

theorem typeOnly_of_head?_mergeGroup {first : Import}
    (head : (mergeGroup source group).head? = some first) :
    first.typeOnly ↔ ∀ i ∈ group, i.typeOnly := by
  rw [mergeGroup_eq, head?_cons, Option.some_inj] at head
  rw [← head, all_eq_true]

section

variable (h : IsMerged source group)

include h

theorem IsMerged.length_le : group.length ≤ 2 := by
  cases h <;> simp

theorem IsMerged.exists_of_mem_tail {second : Import}
    (member : second ∈ group.tail) : ∃ name, second = typeDefault source name := by
  cases h with
  | one => cases member
  | two _ _ _ name => exact ⟨name, mem_singleton.1 member⟩

theorem IsMerged.pairwise_named (member : i ∈ group) :
    i.named.Pairwise fun a b => nameOrder a b = .lt := by
  cases h with
  | one _ ordered => rwa [mem_singleton.1 member]
  | two _ ordered _ name =>
    rcases mem_pair.1 member with rfl | rfl
    · exact ordered
    · exact .nil

theorem IsMerged.source_eq : ∀ i ∈ group, i.source = source := by
  cases h with
  | one own => simpa using own
  | two own _ _ name => simp [own, typeDefault]

theorem IsMerged.pairwise : group.Pairwise fun a b => order a b = .lt := by
  cases h with
  | one => simp
  | two own _ value name =>
    have later : compare false true = .lt := rfl
    rw [pairwise_pair, order, own, value]
    simp [typeDefault, later]

end

theorem itemsIn_eq_named {allTypes : Bool}
    (unmarked : (i.typeOnly && !allTypes) = false) : i.itemsIn allTypes = i.named := by
  simp [itemsIn, unmarked]

theorem sorted_entries (ordered : named.Pairwise fun a b => nameOrder a b = .lt) :
    ((named.foldl (fun named item => addNamed item named) []).mergeSort
      fun a b => (nameOrder a b).isLE) = named := by
  rw [foldl_addNamed_of_nodup (by simpa using nodup_of_pairwise ordered)]
  exact mergeSort_of_pairwise (ordered.imp fun less => by simp [less])

theorem IsMerged.mergeGroup_eq_self (h : IsMerged source group) :
    mergeGroup source group = group := by
  rw [mergeGroup_eq]
  cases h with
  | @one i own ordered =>
    subst own
    have all : [i].all (·.typeOnly) = i.typeOnly := by simp
    have shares : sharing i.typeOnly [i] = [i] := by simp [sharing]
    have apart : typeDefault? [i] = none := by
      cases typed : i.typeOnly <;> simp [typeDefault?, typed]
    rw [all, shares, apart, findSome?_singleton, findSome?_singleton, flatMap_singleton,
      itemsIn_eq_named (by simp), sorted_entries ordered]
    rfl
  | @two i own ordered value name =>
    subst own
    have all : [i, typeDefault i.source name].all (·.typeOnly) = i.typeOnly := by simp [value]
    have shares : sharing i.typeOnly [i, typeDefault i.source name] = [i] := by
      simp [sharing, value, typeDefault]
    have apart : typeDefault? [i, typeDefault i.source name] = some name := by
      simp [typeDefault?, value, typeDefault]
    have wholeName : [i, typeDefault i.source name].findSome? (·.wholeName) = i.wholeName := by
      cases given : i.wholeName <;> simp [given, typeDefault]
    have items : [i, typeDefault i.source name].flatMap (itemsIn i.typeOnly) = i.named := by
      simp [itemsIn, typeDefault]
    rw [all, shares, apart, findSome?_singleton, wholeName, items, sorted_entries ordered]
    rfl

theorem typeOnly_iff_onlyTypes (distinct : (named.map (·.imported)).Nodup) (member : item ∈ named) :
    item.typeOnly ↔ OnlyTypes item.imported named := by
  refine ⟨fun typed other inside same => ?_, fun all => all item member rfl⟩
  rwa [inj_on_of_nodup_map distinct inside member same]

/-- Marked as a type, by itself or with its statement. -/
def isTypeEntry (i : Import) (item : NamedImport) : Bool := i.typeOnly || item.typeOnly

theorem isTypeEntry_mergeGroup (merged : i ∈ mergeGroup source group) (member : item ∈ i.named) :
    i.isTypeEntry item ↔ ∀ given ∈ group, ∀ entry ∈ given.named,
      entry.imported = item.imported → given.isTypeEntry entry := by
  have ordered := pairwise_named_mergeSort (group.flatMap (itemsIn (group.all (·.typeOnly))))
  rw [mergeGroup_eq, mem_cons] at merged
  rcases merged with rfl | apart
  · rw [isTypeEntry]
    cases all : group.all (·.typeOnly) with
    | true =>
      simp only [Bool.true_or, true_iff]
      intro given inGroup entry _ _
      rw [isTypeEntry, all_eq_true.1 all given inGroup, Bool.true_or]
    | false =>
      rw [all] at ordered
      simp only [all] at member
      rw [Bool.false_or, typeOnly_iff_onlyTypes (nodup_of_pairwise ordered) member]
      have same := onlyTypes_foldl_addNamed item.imported (group.flatMap (itemsIn false)) []
      simp only [OnlyTypes, mem_mergeSort, not_mem_nil, false_imp_iff, implies_true,
        true_and] at same ⊢
      rw [same]
      simp only [itemsIn, isTypeEntry, mem_flatMap, mem_map, Bool.not_false,
        Bool.and_true, Bool.or_comm]
      constructor
      · exact fun h given inGroup entry inside => h _ ⟨given, inGroup, entry, inside, rfl⟩
      · rintro h _ ⟨given, inGroup, entry, inside, rfl⟩
        exact h given inGroup entry inside
  · obtain ⟨name, -, rfl⟩ := Option.map_eq_some_iff.1 (Option.mem_toList.1 apart)
    cases member

end Group

def ofSource (source : Text) (imports : List Import) : List Import :=
  imports.filter (·.source = source)

theorem mem_merge :
    i ∈ merge imports ↔ ofSource i.source imports ≠ [] ∧
      i ∈ mergeGroup i.source (ofSource i.source imports) := by
  have given (source : Text) :
      source ∈ (imports.map (·.source)).eraseDups ↔ ofSource source imports ≠ [] := by
    simp [ofSource, mem_eraseDups]
  simp only [merge, mem_mergeSort, mem_flatMap, given]
  constructor
  · rintro ⟨source, known, member⟩
    obtain rfl := (isMerged_mergeGroup _ _).source_eq i member
    exact ⟨known, member⟩
  · exact fun ⟨known, member⟩ => ⟨i.source, known, member⟩

theorem pairwise_merge (imports : List Import) :
    (merge imports).Pairwise fun a b => order a b = .lt := by
  apply pairwise_lt_mergeSort
  rw [pairwise_flatMap]
  refine ⟨fun source _ => ?_, (nodup_eraseDups _).imp ?_⟩
  · exact (isMerged_mergeGroup _ _).pairwise.imp fun less => by simp [less]
  · intro source other ne a inFirst b inSecond equal
    apply ne
    rw [← (isMerged_mergeGroup _ _).source_eq a inFirst,
      ← (isMerged_mergeGroup _ _).source_eq b inSecond, (order_eq_iff.1 equal).1]

theorem ofSource_merge {source : Text} (given : ofSource source imports ≠ []) :
    ofSource source (merge imports) = mergeGroup source (ofSource source imports) := by
  have merged := isMerged_mergeGroup source (ofSource source imports)
  refine eq_of_pairwise_lt ((pairwise_merge imports).filter _) merged.pairwise fun i => ?_
  rw [ofSource, mem_filter, mem_merge, decide_eq_true_eq]
  constructor
  · rintro ⟨⟨-, member⟩, rfl⟩
    exact member
  · intro member
    obtain rfl := merged.source_eq i member
    exact ⟨⟨given, member⟩, rfl⟩

theorem ofSource_merge_eq_nil {source : Text} (none : ofSource source imports = []) :
    ofSource source (merge imports) = [] := by
  rw [ofSource, filter_eq_nil_iff]
  intro i member own
  obtain rfl := of_decide_eq_true own
  exact (mem_merge.1 member).1 none

theorem merge_merge (imports : List Import) : merge (merge imports) = merge imports := by
  refine eq_of_pairwise_lt (pairwise_merge _) (pairwise_merge _) fun i => ?_
  rw [mem_merge, mem_merge]
  by_cases none : ofSource i.source imports = []
  · simp [ofSource_merge_eq_nil none, none]
  · have merged := isMerged_mergeGroup i.source (ofSource i.source imports)
    rw [ofSource_merge none, merged.mergeGroup_eq_self]
    exact and_congr_left fun member => by simp [none, ne_nil_of_mem member]

/-- The names under which listed entries are exported. -/
def importedNames (imports : List Import) : List Text :=
  imports.flatMap fun i => i.named.map (·.imported)

theorem mem_importedNames_mergeGroup (source name : Text) (group : List Import) :
    name ∈ importedNames (mergeGroup source group) ↔ name ∈ importedNames group := by
  have entries := @mem_imported_foldl_addNamed name []
    (group.flatMap (itemsIn (group.all (·.typeOnly))))
  have apart : importedNames ((typeDefault? group).map (typeDefault source)).toList = [] := by
    cases typeDefault? group <;> rfl
  rw [mergeGroup_eq, importedNames, flatMap_cons, ← importedNames]
  change name ∈ _ ++ importedNames ((typeDefault? group).map (typeDefault source)).toList ↔ _
  rw [apart, append_nil, ((mergeSort_perm _ _).map _).mem_iff, entries]
  simp [importedNames, itemsIn, map_flatMap]

/-- The form of merged statements. They are strictly ordered, the framework first, then by source,
value imports before type-only ones. A source has a statement if it was given one, the first being
type-only if all of its statements were; a second one holds nothing but a default for types. The
entries have different names in strict order, those that the statements of the source name, and an
entry is for types only if every entry for its name was. Merging them again changes nothing. -/
theorem merge_canonical (imports : List Import) :
    (merge imports).Pairwise (fun a b => order a b = .lt) ∧
    (∀ source,
      (ofSource source (merge imports) = [] ↔ ofSource source imports = []) ∧
      (ofSource source (merge imports)).length ≤ 2 ∧
      (∀ first, (ofSource source (merge imports)).head? = some first →
        (first.typeOnly = true ↔ ∀ i ∈ ofSource source imports, i.typeOnly = true)) ∧
      (∀ second ∈ (ofSource source (merge imports)).tail,
        ∃ name, second = typeDefault source name) ∧
      (∀ name, name ∈ importedNames (ofSource source (merge imports)) ↔
        name ∈ importedNames (ofSource source imports)) ∧
      ∀ i ∈ ofSource source (merge imports), ∀ item ∈ i.named,
        (i.isTypeEntry item = true ↔ ∀ given ∈ ofSource source imports, ∀ entry ∈ given.named,
          entry.imported = item.imported → given.isTypeEntry entry = true)) ∧
    (∀ i ∈ merge imports, (i.named.map (·.imported)).Nodup ∧
      i.named.Pairwise fun a b => nameOrder a b = .lt) ∧
    merge (merge imports) = merge imports := by
  refine ⟨pairwise_merge imports, fun source => ?_, fun i member => ?_, merge_merge imports⟩
  · by_cases none : ofSource source imports = []
    · simp [ofSource_merge_eq_nil none, none, importedNames]
    · have merged := isMerged_mergeGroup source (ofSource source imports)
      rw [ofSource_merge none]
      refine ⟨?_, merged.length_le, fun first => typeOnly_of_head?_mergeGroup,
        fun second => merged.exists_of_mem_tail, (mem_importedNames_mergeGroup source · _),
        fun i member item => isTypeEntry_mergeGroup member⟩
      simp [none, mergeGroup]
  · have ordered := (isMerged_mergeGroup _ _).pairwise_named (mem_merge.1 member).2
    exact ⟨nodup_of_pairwise ordered, ordered⟩

end Import

end SfcJsx.Script
