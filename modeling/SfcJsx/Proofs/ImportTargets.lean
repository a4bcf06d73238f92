import SfcJsx.Proofs.CanonicalImports

/-!
What merged import statements bind. A statement binds names to targets: the default of a module, the
module as a whole, or one of its exports. Merging binds every target that the statements bind, and
only these, each to one name. Where names compete for a target, the first default and the first name
of the module as a whole stay, but of the names of an export its first alias: its own name is
unbound by an alias that any statement gives it.
-/

namespace SfcJsx.Script

open List

/-- What an import statement binds a name to. A type-only default is a target of its own. -/
inductive Target where
  | default (source : Text) (typeOnly : Bool)
  | whole (source : Text)
  | item (source imported : Text)
  deriving DecidableEq, Repr

def Target.source : Target → Text
  | default source _ => source
  | whole source => source
  | item source _ => source

abbrev Binding := Target × Text

namespace Import

variable {i : Import} {imports group : List Import} {source name : Text} {target : Target}

def bindings (i : Import) : List Binding :=
  i.defaultName.toList.map (Target.default i.source i.typeOnly, ·) ++
    i.wholeName.toList.map (Target.whole i.source, ·) ++
    i.named.map fun item => (Target.item i.source item.imported, item.localName)

def bindingsOf (imports : List Import) : List Binding := imports.flatMap bindings

def localNamesOf (imports : List Import) : List Text := imports.flatMap localNames

theorem mem_localNamesOf :
    name ∈ localNamesOf imports ↔ ∃ target, (target, name) ∈ bindingsOf imports := by
  have names (i : Import) : i.bindings.map Prod.snd = i.localNames := by
    simp [bindings, localNames, Function.comp_def]
  simp only [localNamesOf, bindingsOf, mem_flatMap, ← names, mem_map, Prod.exists, exists_eq_right]
  constructor
  · rintro ⟨i, member, target, bound⟩
    exact ⟨target, i, member, bound⟩
  · rintro ⟨target, i, member, bound⟩
    exact ⟨i, member, target, bound⟩

theorem mem_bindings_default {typeOnly : Bool} :
    (Target.default source typeOnly, name) ∈ i.bindings ↔
      i.source = source ∧ i.typeOnly = typeOnly ∧ i.defaultName = some name := by
  grind [bindings]

theorem mem_bindings_whole :
    (Target.whole source, name) ∈ i.bindings ↔ i.source = source ∧ i.wholeName = some name := by
  grind [bindings]

theorem mem_bindings_item {imported : Text} :
    (Target.item source imported, name) ∈ i.bindings ↔
      i.source = source ∧ ∃ item ∈ i.named, item.imported = imported ∧ item.localName = name := by
  grind [bindings]

theorem source_of_mem_bindings (member : (target, name) ∈ i.bindings) :
    i.source = target.source := by
  cases target with
  | default => exact (mem_bindings_default.1 member).1
  | whole => exact (mem_bindings_whole.1 member).1
  | item => exact (mem_bindings_item.1 member).1

/-- Of the names that the statements of one source give a target, the one that stays. -/
def choice (group : List Import) : Target → Option Text
  | .default _ typeOnly => (group.filter (·.typeOnly = typeOnly)).findSome? (·.defaultName)
  | .whole _ => group.findSome? (·.wholeName)
  | .item _ imported => nameOf? imported (aliases imported (group.flatMap (·.named)))

def chosen? (imports : List Import) (target : Target) : Option Text :=
  choice (ofSource target.source imports) target

theorem sharing_eq (group : List Import) : sharing (group.all (·.typeOnly)) group =
    group.filter (·.typeOnly = group.all (·.typeOnly)) := by
  refine filter_congr fun i member => ?_
  cases all : group.all (·.typeOnly) with
  | true => simp [all_eq_true.1 all i member]
  | false => simp

theorem mem_bindingsOf_typeDefault (target : Target) :
    (target, name) ∈ bindingsOf ((typeDefault? group).map (typeDefault source)).toList ↔
      target = .default source true ∧ typeDefault? group = some name := by
  cases typeDefault? group <;> simp [bindingsOf, bindings, typeDefault, eq_comm]

theorem mem_bindingsOf_mergeGroup : (target, name) ∈ bindingsOf (mergeGroup target.source group) ↔
    choice group target = some name := by
  rw [mergeGroup_eq, bindingsOf, flatMap_cons, mem_append, ← bindingsOf]
  change _ ∨ _ ∈ bindingsOf ((typeDefault? group).map (typeDefault target.source)).toList ↔ _
  rw [mem_bindingsOf_typeDefault]
  cases target with
  | default source typeOnly =>
    rw [mem_bindings_default, sharing_eq, choice, typeDefault?]
    cases all : group.all (·.typeOnly) with
    | true =>
      have others : group.filter (!·.typeOnly) = [] := by simpa using all
      cases typeOnly <;> simp [Target.source, others]
    | false => cases typeOnly <;> simp [Target.source]
  | whole source => simp [mem_bindings_whole, choice, Target.source]
  | item source imported =>
    have distinct := @nodup_foldl_addNamed []
      (group.flatMap (itemsIn (group.all (·.typeOnly)))) nodup_nil
    have names := @localName_foldl_addNamed imported []
      (group.flatMap (itemsIn (group.all (·.typeOnly))))
    simp only [mem_bindings_item, mem_mergeSort, exists_mem_iff_find? distinct, names,
      aliases_itemsIn, choice]
    simp [Target.source]

theorem mem_bindingsOf_merge :
    (target, name) ∈ bindingsOf (merge imports) ↔ chosen? imports target = some name := by
  constructor
  · intro bound
    obtain ⟨i, member, bound⟩ := mem_flatMap.1 bound
    refine mem_bindingsOf_mergeGroup.1 (mem_flatMap.2 ⟨i, ?_, bound⟩)
    rw [← source_of_mem_bindings bound]
    exact (mem_merge.1 member).2
  · intro found
    have given : ofSource target.source imports ≠ [] := fun none => by
      rw [chosen?, none] at found
      cases target <;> cases found
    obtain ⟨i, member, bound⟩ := mem_flatMap.1 (mem_bindingsOf_mergeGroup.2 found)
    refine mem_flatMap.2 ⟨i, mem_merge.2 ?_, bound⟩
    rw [source_of_mem_bindings bound]
    exact ⟨given, member⟩

theorem mem_bindingsOf_ofSource : (target, name) ∈ bindingsOf (ofSource target.source imports) ↔
    (target, name) ∈ bindingsOf imports := by
  simp only [bindingsOf, ofSource, mem_flatMap, mem_filter, decide_eq_true_eq]
  constructor
  · rintro ⟨i, member, bound⟩
    exact ⟨i, member.1, bound⟩
  · rintro ⟨i, member, bound⟩
    exact ⟨i, ⟨member, source_of_mem_bindings bound⟩, bound⟩

theorem mem_aliases {imported : Text} {items : List NamedImport} {given : Option Text} :
    given ∈ aliases imported items ↔
      ∃ item ∈ items, item.imported = imported ∧ item.renamed = given := by
  simp [aliases]

theorem exists_alias_of_nameOf? {imported : Text} {given : List (Option Text)}
    (found : nameOf? imported given = some name) : ∃ a ∈ given, a.getD imported = name := by
  cases given with
  | nil => cases found
  | cons first given =>
    obtain rfl : ((first :: given).findSome? id).getD imported = name := by
      simpa [nameOf?] using found
    cases renamed : (first :: given).findSome? id with
    | some a =>
      obtain ⟨given, member, same⟩ := exists_of_findSome?_eq_some renamed
      exact ⟨given, member, by rw [show given = some a from same, Option.getD_some]⟩
    | none =>
      have own : first = none := findSome?_eq_none_iff.1 renamed first (by simp)
      exact ⟨first, by simp, by rw [own]⟩

theorem mem_bindingsOf_of_chosen? (found : chosen? imports target = some name) :
    (target, name) ∈ bindingsOf imports := by
  rw [chosen?] at found
  rw [← mem_bindingsOf_ofSource]
  have own : ∀ i ∈ ofSource target.source imports, i.source = target.source := by simp [ofSource]
  cases target with
  | default source typeOnly =>
    obtain ⟨i, member, given⟩ := exists_of_findSome?_eq_some found
    obtain ⟨member, same⟩ := mem_filter.1 member
    exact mem_flatMap.2
      ⟨i, member, mem_bindings_default.2 ⟨own i member, of_decide_eq_true same, given⟩⟩
  | whole source =>
    obtain ⟨i, member, given⟩ := exists_of_findSome?_eq_some found
    exact mem_flatMap.2 ⟨i, member, mem_bindings_whole.2 ⟨own i member, given⟩⟩
  | item source imported =>
    obtain ⟨a, member, rfl⟩ := exists_alias_of_nameOf? found
    obtain ⟨item, inside, rfl, rfl⟩ := mem_aliases.1 member
    obtain ⟨i, member, inside⟩ := mem_flatMap.1 inside
    exact mem_flatMap.2 ⟨i, member, mem_bindings_item.2 ⟨own i member, item, inside, rfl, rfl⟩⟩

theorem isSome_chosen?_iff :
    (chosen? imports target).isSome ↔ ∃ name, (target, name) ∈ bindingsOf imports := by
  constructor
  · intro some
    obtain ⟨name, found⟩ := Option.isSome_iff_exists.1 some
    exact ⟨name, mem_bindingsOf_of_chosen? found⟩
  · rintro ⟨name, bound⟩
    obtain ⟨i, member, bound⟩ := mem_flatMap.1 (mem_bindingsOf_ofSource.2 bound)
    rw [chosen?]
    cases target with
    | default source typeOnly =>
      obtain ⟨-, same, given⟩ := mem_bindings_default.1 bound
      exact findSome?_isSome_iff.2 ⟨i, mem_filter.2 ⟨member, decide_eq_true same⟩, by simp [given]⟩
    | whole source =>
      exact findSome?_isSome_iff.2 ⟨i, member, by simp [(mem_bindings_whole.1 bound).2]⟩
    | item source imported =>
      obtain ⟨-, item, inside, same, -⟩ := mem_bindings_item.1 bound
      have listed := mem_aliases.2 ⟨item, mem_flatMap.2 ⟨i, member, inside⟩, same, rfl⟩
      simp [choice, nameOf?, ne_nil_of_mem listed]

theorem nameOf?_own_iff {imported : Text} {given : List (Option Text)} :
    nameOf? imported given = some imported ↔ (nameOf? imported given).isSome ∧
      ∀ name, given.findSome? id = some name → name = imported := by
  cases given with
  | nil => simp [nameOf?]
  | cons first given =>
    simp only [nameOf?, List.isEmpty_cons]
    cases (first :: given).findSome? id <;> simp

/-- What merged statements bind, told by the statements they come from. -/
structure BindsChosen (imports merged : List Import) : Prop where
  /-- They bind every target to its chosen name and bind nothing else. -/
  bindings : ∀ target name,
    (target, name) ∈ bindingsOf merged ↔ chosen? imports target = some name
  /-- The targets with a chosen name are those that were bound, and the name is one they had. -/
  bound : ∀ target,
    (chosen? imports target).isSome ↔ ∃ name, (target, name) ∈ bindingsOf imports
  origin : ∀ target name,
    chosen? imports target = some name → (target, name) ∈ bindingsOf imports
  /-- An export stays bound to its own name unless its first alias is another one. -/
  own : ∀ source imported, (.item source imported, imported) ∈ bindingsOf merged ↔
    (∃ name, (Target.item source imported, name) ∈ bindingsOf imports) ∧
      ∀ name, (aliases imported ((ofSource source imports).flatMap (·.named))).findSome? id =
        some name → name = imported
  /-- No local name is lost exactly if each one is chosen for some target. -/
  names : (∀ name, name ∈ localNamesOf merged ↔ name ∈ localNamesOf imports) ↔
    ∀ name ∈ localNamesOf imports, ∃ target, chosen? imports target = some name
  /-- So none is lost where no two names compete for a target. -/
  single : (∀ a ∈ bindingsOf imports, ∀ b ∈ bindingsOf imports, a.1 = b.1 → a.2 = b.2) →
    ∀ name, name ∈ localNamesOf merged ↔ name ∈ localNamesOf imports

/-- Merging binds every target to the name that is chosen for it. -/
theorem merge_binds_chosen (imports : List Import) : BindsChosen imports (merge imports) := by
  have names : (∀ name, name ∈ localNamesOf (merge imports) ↔ name ∈ localNamesOf imports) ↔
      ∀ name ∈ localNamesOf imports, ∃ target, chosen? imports target = some name := by
    simp only [mem_localNamesOf, mem_bindingsOf_merge]
    refine ⟨fun same name => (same name).2, fun chosen name => ⟨?_, chosen name⟩⟩
    rintro ⟨target, found⟩
    exact ⟨target, mem_bindingsOf_of_chosen? found⟩
  refine ⟨fun _ _ => mem_bindingsOf_merge, fun _ => isSome_chosen?_iff,
    fun _ _ => mem_bindingsOf_of_chosen?, fun source imported => ?_, names,
    fun single => names.2 fun name bound => ?_⟩
  · rw [mem_bindingsOf_merge, ← isSome_chosen?_iff]
    exact nameOf?_own_iff
  · obtain ⟨target, bound⟩ := mem_localNamesOf.1 bound
    obtain ⟨kept, found⟩ := Option.isSome_iff_exists.1 (isSome_chosen?_iff.2 ⟨name, bound⟩)
    obtain rfl : name = kept := single _ bound _ (mem_bindingsOf_of_chosen? found) rfl
    exact ⟨target, found⟩

def sharedSource : List Import :=
  [{ source := "./x", defaultName := some "X",
     named := [⟨"b", some "bee", false⟩, ⟨"a", none, true⟩] },
   { source := "./x", defaultName := some "XType", named := [⟨"b", some "bee", true⟩],
     typeOnly := true },
   { source := "vue", named := [⟨"ref", none, false⟩] },
   { source := "./x", wholeName := some "all" }]

theorem merge_binds_chosen_sharedSource :
    (∀ a ∈ bindingsOf sharedSource, ∀ b ∈ bindingsOf sharedSource, a.1 = b.1 → a.2 = b.2) ∧
      ∀ name, name ∈ localNamesOf (merge sharedSource) ↔ name ∈ localNamesOf sharedSource :=
  ⟨by decide, (merge_binds_chosen sharedSource).single (by decide)⟩

def ownAndRenamed : List Import :=
  [{ source := "vue", named := [⟨"computed", none, false⟩] },
   { source := "vue", named := [⟨"computed", some "c", false⟩] }]

/-- The own name of an export goes where another statement renames it. -/
theorem merge_ownAndRenamed : ("computed" : Text) ∈ localNamesOf ownAndRenamed ∧
    ("computed" : Text) ∉ localNamesOf (merge ownAndRenamed) := by
  decide +kernel

end Import

end SfcJsx.Script
