import Mathlib.Data.List.Nodup
import SfcJsx.Script.Import

/-!
Merging the import statements of one source, in closed form: the first default, the first name of
the module as a whole, and one entry for each export, which the entries for it make together.
-/

namespace SfcJsx.Script

open List NamedImport Import

variable {name imported : Text} {named : List NamedImport} {group : List Import}

theorem imported_addNamed (item : NamedImport) (named : List NamedImport) :
    (addNamed item named).map (·.imported) =
      if item.imported ∈ named.map (·.imported) then named.map (·.imported)
      else named.map (·.imported) ++ [item.imported] := by
  induction named with
  | nil => simp [addNamed]
  | cons other named ih =>
    unfold addNamed
    by_cases same : other.imported = item.imported
    · simp [same]
    · have other : item.imported ≠ other.imported := fun equal => same equal.symm
      simp only [if_neg same, map_cons, ih, mem_cons, other, false_or]
      split <;> simp

theorem nodup_foldl_addNamed (items : List NamedImport)
    (distinct : (named.map (·.imported)).Nodup) :
    ((items.foldl (fun named item => addNamed item named) named).map (·.imported)).Nodup := by
  induction items generalizing named with
  | nil => exact distinct
  | cons item items ih =>
    apply ih
    rw [imported_addNamed]
    split
    · exact distinct
    · next fresh => exact nodup_append.2 ⟨distinct, by simp, by grind⟩

theorem mem_imported_foldl_addNamed (items : List NamedImport) :
    imported ∈ (items.foldl (fun named item => addNamed item named) named).map (·.imported) ↔
      imported ∈ (named ++ items).map (·.imported) := by
  induction items generalizing named with
  | nil => rw [append_nil]; rfl
  | cons item items ih =>
    rw [foldl_cons, ih, map_append, imported_addNamed]
    split
    · next known => grind
    · simp

/-- What entries call an export, in order; `none` stands for its own name. -/
def aliases (imported : Text) (items : List NamedImport) : List (Option Text) :=
  items.filterMap fun item => if item.imported = imported then some item.renamed else none

/-- The name of an export with such aliases: the first one that is not its own name, if any. -/
def nameOf? (imported : Text) (aliases : List (Option Text)) : Option Text :=
  if aliases.isEmpty then none else some ((aliases.findSome? id).getD imported)

theorem renamed_addNamed (item : NamedImport) (named : List NamedImport) :
    ((addNamed item named).find? (·.imported = imported)).map (·.renamed) =
      if item.imported = imported
      then some (((named.find? (·.imported = imported)).bind (·.renamed)).or item.renamed)
      else (named.find? (·.imported = imported)).map (·.renamed) := by
  induction named with
  | nil => by_cases same : item.imported = imported <;> simp [addNamed, same]
  | cons other named ih =>
    unfold addNamed
    by_cases entry : other.imported = item.imported
    · by_cases same : item.imported = imported <;> simp [entry, same]
    · rw [if_neg entry]
      by_cases here : other.imported = imported
      · have apart : item.imported ≠ imported := fun same => entry (here.trans same.symm)
        simp [here, apart]
      · simp [here, ih]

theorem localName_foldl_addNamed (items : List NamedImport) :
    ((items.foldl (fun named item => addNamed item named) named).find?
      (·.imported = imported)).map localName =
      nameOf? imported (((named.find? (·.imported = imported)).map (·.renamed)).toList ++
        aliases imported items) := by
  induction items generalizing named with
  | nil =>
    cases found : named.find? (·.imported = imported) with
    | none => simp [found, aliases, nameOf?]
    | some entry =>
      have own : entry.imported = imported := by simpa using find?_some found
      simp [found, aliases, nameOf?, localName, own]
  | cons item items ih =>
    rw [foldl_cons, ih, renamed_addNamed]
    by_cases same : item.imported = imported
    · have first : aliases imported (item :: items) = item.renamed :: aliases imported items := by
        simp [aliases, same]
      rw [first, if_pos same]
      cases named.find? (·.imported = imported) with
      | none => simp
      | some entry => cases given : entry.renamed <;> simp [given, nameOf?]
    · have later : aliases imported (item :: items) = aliases imported items := by
        simp [aliases, same]
      rw [later, if_neg same]

/-- Entries with different names are a table of names. -/
theorem exists_mem_iff_find? (distinct : (named.map (·.imported)).Nodup) :
    (∃ item ∈ named, item.imported = imported ∧ item.localName = name) ↔
      (named.find? (·.imported = imported)).map localName = some name := by
  rw [Option.map_eq_some_iff]
  constructor
  · rintro ⟨item, member, rfl, rfl⟩
    obtain ⟨found, first⟩ := Option.isSome_iff_exists.1
      (find?_isSome.2 ⟨item, member, decide_eq_true rfl⟩ :
        (named.find? (·.imported = item.imported)).isSome)
    have same : found.imported = item.imported := by simpa using find?_some first
    have equal := inj_on_of_nodup_map distinct (mem_of_find?_eq_some first) member same
    exact ⟨found, first, by rw [equal]⟩
  · rintro ⟨item, found, rfl⟩
    exact ⟨item, mem_of_find?_eq_some found, by simpa using find?_some found, rfl⟩

namespace Import

def itemsIn (allTypes : Bool) (i : Import) : List NamedImport :=
  i.named.map fun item => { item with typeOnly := item.typeOnly || (i.typeOnly && !allTypes) }

theorem aliases_itemsIn (allTypes : Bool) (group : List Import) :
    aliases imported (group.flatMap (itemsIn allTypes)) =
      aliases imported (group.flatMap (·.named)) := by
  simp [aliases, itemsIn, filterMap_flatMap]

def sharing (allTypes : Bool) (group : List Import) : List Import :=
  group.filter fun i => !(i.typeOnly && !allTypes)

theorem foldl_absorb (group : List Import) (merged : Import) :
    group.foldl absorb merged =
      { merged with
        defaultName :=
          merged.defaultName.or ((sharing merged.typeOnly group).findSome? (·.defaultName))
        wholeName := merged.wholeName.or (group.findSome? (·.wholeName))
        named := (group.flatMap (itemsIn merged.typeOnly)).foldl
          (fun named item => addNamed item named) merged.named } := by
  induction group generalizing merged with
  | nil => simp [sharing]
  | cons i group ih =>
    have defaultName : (absorb merged i).defaultName.or
        ((sharing merged.typeOnly group).findSome? (·.defaultName)) = merged.defaultName.or
          ((sharing merged.typeOnly (i :: group)).findSome? (·.defaultName)) := by
      cases apart : i.typeOnly && !merged.typeOnly with
      | true => simp only [sharing, absorb, filter_cons, apart]; rfl
      | false =>
        simp only [sharing, absorb, filter_cons, apart, Bool.not_false, if_true, findSome?_cons]
        cases i.defaultName <;> simp
    have wholeName : (absorb merged i).wholeName.or (group.findSome? (·.wholeName)) =
        merged.wholeName.or ((i :: group).findSome? (·.wholeName)) := by
      cases given : i.wholeName <;> simp [absorb, given]
    rw [foldl_cons, ih, flatMap_cons, foldl_append, ← wholeName, ← defaultName]
    rfl

/-- The first default of type-only statements, when there are others. -/
def typeDefault? (group : List Import) : Option Text :=
  if group.all (·.typeOnly) then none else (group.filter (·.typeOnly)).findSome? (·.defaultName)

theorem mergeGroup_eq (source : Text) (group : List Import) :
    mergeGroup source group =
      { source
        typeOnly := group.all (·.typeOnly)
        defaultName := (sharing (group.all (·.typeOnly)) group).findSome? (·.defaultName)
        wholeName := group.findSome? (·.wholeName)
        named := ((group.flatMap (itemsIn (group.all (·.typeOnly)))).foldl
          (fun named item => addNamed item named) []).mergeSort fun a b => (nameOrder a b).isLE } ::
        ((typeDefault? group).map fun name =>
          { source, defaultName := some name, typeOnly := true }).toList := by
  simp only [mergeGroup, foldl_absorb, typeDefault?, Option.none_or]

theorem nodup_eraseDups : ∀ names : List Text, names.eraseDups.Nodup
  | [] => by simp
  | name :: names => by
    rw [eraseDups_cons, nodup_cons]
    exact ⟨by simp [mem_eraseDups], nodup_eraseDups _⟩
termination_by names => names.length
decreasing_by exact Nat.lt_succ_of_le (length_filter_le _ _)

end Import

end SfcJsx.Script
