import SfcJsx.Batch.Discovery
import SfcJsx.Proofs.PathComponents

/-!
Where component files are found. Main statement: the path of every file that is discovered goes on
after the path of its root, and ends with the name of a component.
-/

namespace SfcJsx

open List SfcJsx.Path FileTree

variable {path last : Text} {location : FileTree.Location} {patterns : List Glob}
  {content : Option Text} {paths names : List Text}

namespace FileTree

/-- Every entry is the one found at its place, which is reached by names. -/
structure IsProper (tree : FileTree) : Prop where
  found : ∀ entry ∈ tree.entries, tree.entry? entry.1 = some entry.2
  named : ∀ entry ∈ tree.entries, ∀ name ∈ entry.1, Path.isVoid name = false ∧ '/' ∉ name

variable {tree : FileTree}

theorem at?_eq_some {entry : Entry} (found : tree.at? path = some (location, entry)) :
    tree.follow (segments path) = .ok location ∧ tree.entry? location = some entry := by
  unfold at? find at found
  cases followed : tree.follow (segments path) with
  | error e => simp [followed, bind, Except.bind, Except.toOption] at found
  | ok place =>
    simp only [followed, bind, Except.bind] at found
    split at found
    · next here =>
      obtain ⟨rfl, rfl⟩ : place = location ∧ _ = entry := by simpa [Except.toOption] using found
      exact ⟨rfl, here⟩
    · cases found

theorem exists_enter_of_follow {front : List Text}
    (followed : tree.follow (front ++ [last]) = .ok location) :
    ∃ place, tree.enter place last = .ok location := by
  unfold follow at followed
  split at followed
  · cases followed
  · cases before : front.foldlM tree.enter [] with
    | error e => simp [before, bind, Except.bind] at followed
    | ok place =>
      refine ⟨place, ?_⟩
      cases stepped : tree.enter place last with
      | error e => simp [before, stepped, bind, Except.bind] at followed
      | ok next => simpa [before, stepped, bind, Except.bind, pure, Except.pure] using followed

theorem entry?_of_enter {place : Location} {name : Text}
    (entered : tree.enter place name = .ok location) (void : isVoid name) :
    tree.entry? location = some .directory := by
  unfold enter at entered
  split at entered
  · next here =>
    rw [if_pos void] at entered
    obtain rfl : place = location := by simpa using entered
    exact here
  · cases entered
  · cases entered

theorem exists_segments_eq (found : tree.at? path = some (location, .file content)) :
    ∃ (front : List Text) (last : Text), segments path = front ++ [last] ∧
      isVoid last = false := by
  obtain ⟨followed, entry⟩ := at?_eq_some found
  obtain ⟨piece, pieces, read⟩ : ∃ piece pieces, segments path = piece :: pieces :=
    Text.exists_fields_cons _
  obtain none | ⟨front, last, whole⟩ := eq_nil_or_concat (segments path)
  · simp [none] at read
  · rw [concat_eq_append] at whole
    refine ⟨front, last, whole, ?_⟩
    cases void : isVoid last with
    | false => rfl
    | true =>
      rw [whole] at followed
      obtain ⟨place, entered⟩ := exists_enter_of_follow followed
      rw [entry?_of_enter entered void] at entry
      cases entry

theorem names_of_mem_filesBelow (proper : tree.IsProper)
    (directory : tree.entry? location = some .directory)
    (listed : (names, content) ∈ tree.filesBelow location) :
    names ≠ [] ∧ ∀ name ∈ names, isVoid name = false ∧ '/' ∉ name := by
  obtain ⟨⟨place, entry⟩, member, chosen⟩ := mem_filterMap.1 listed
  cases entry with
  | directory => cases chosen
  | file content' =>
    simp only at chosen
    split at chosen
    · next above =>
      obtain ⟨rfl, rfl⟩ : place.drop location.length = names ∧ content' = content := by
        simpa using chosen
      refine ⟨fun none => ?_, fun name inside =>
        proper.named _ member name (mem_of_mem_drop inside)⟩
      obtain ⟨more, rfl⟩ := isPrefixOf_iff_prefix.1 above
      rw [drop_left] at none
      have here := proper.found _ member
      rw [none, append_nil, directory] at here
      cases here
    · cases chosen

end FileTree

namespace Batch

open SfcJsx.Path

namespace SourceFile

/-- A file that is found at a name after its root. -/
structure FoundAt (file : SourceFile) (lead stem : Text) (inner : List Component) : Prop where
  base : IsBase lead
  slashless : '/' ∉ stem
  ne : stem ≠ []
  path_eq : file.path = lead ++ (stem ++ '.' :: "vue".toList)
  starts : startComponent file.path = startComponent file.root
  below : components lead = components file.root ++ inner

theorem exists_stem_eq {front : List Component} (component : isComponent path)
    (ends : components path = front ++ [componentOf last]) :
    ∃ stem : Text, last = stem ++ '.' :: "vue".toList ∧ stem ≠ [] := by
  have extension_eq : extension? path = some "vue".toList := of_decide_eq_true component
  obtain ⟨name, name_eq, cut⟩ := Option.bind_eq_some_iff.1 extension_eq
  obtain rfl := eq_of_componentOf ((fileName?_eq_some_iff ends).1 name_eq)
  obtain ⟨whole, ne, -⟩ := eq_append_of_splitName (Prod.ext rfl cut)
  exact ⟨_, whole, ne⟩

theorem exists_foundAt {file : SourceFile} {lead last : Text} {inner : List Component}
    (base : IsBase lead) (slashless : '/' ∉ last) (shown : isVoid last = false)
    (path_eq : file.path = lead ++ last) (component : isComponent file.path)
    (starts : startComponent file.path = startComponent file.root)
    (below : components lead = components file.root ++ inner) :
    ∃ stem, file.FoundAt lead stem inner := by
  obtain ⟨-, parts⟩ := components_name base slashless shown
  rw [← path_eq] at parts
  obtain ⟨stem, rfl, ne⟩ := exists_stem_eq component parts
  exact ⟨stem, base, fun inside => slashless (mem_append_left _ inside), ne, path_eq, starts, below⟩

variable {tree : FileTree} {file : SourceFile}

theorem exists_foundAt_of_file {location : Location}
    (found : tree.at? path = some (location, .file content)) (component : isComponent path) :
    ∃ lead stem inner, FoundAt ⟨path, (parent? path).getD []⟩ lead stem inner := by
  obtain ⟨front, last, read, shown⟩ := exists_segments_eq found
  obtain ⟨lead, base, path_eq⟩ := exists_base_eq read
  have slashless := slashless_segments path last (by simp [read])
  obtain ⟨start_eq, parts⟩ := components_name base slashless shown
  rw [← path_eq] at start_eq parts
  obtain ⟨above, above_eq, start_above, parts_above⟩ :=
    exists_parent? parts (isNamed_componentOf last)
  obtain ⟨stem, here⟩ := @exists_foundAt ⟨path, (parent? path).getD []⟩ lead last [] base slashless
    shown path_eq component (by simp [above_eq, start_above]) (by simp [above_eq, parts_above])
  exact ⟨lead, stem, [], here⟩

theorem exists_foundAt_of_directory (ne : names ≠ [])
    (proper : ∀ name ∈ names, isVoid name = false ∧ '/' ∉ name)
    (component : isComponent (join path (joinSegments names))) :
    ∃ lead stem inner, FoundAt ⟨join path (joinSegments names), path⟩ lead stem inner := by
  obtain none | ⟨front, last, whole⟩ := eq_nil_or_concat names
  · exact absurd none ne
  · rw [concat_eq_append] at whole
    subst whole
    have ends := proper last (by simp)
    have areNames : AreNames (front ++ [last]) :=
      ⟨fun name member => (proper name member).2,
        fun first starts => (proper first (mem_of_mem_head? starts)).1⟩
    obtain ⟨lead, base, path_eq, starts, below⟩ := exists_join_joinSegments path areNames ends.1
    obtain ⟨stem, here⟩ := @exists_foundAt ⟨_, path⟩ lead last _ base ends.2 ends.1 path_eq
      component starts below
    exact ⟨lead, stem, _, here⟩

theorem dropRepeatsOf_subset (kept : SourceFile) (files : List SourceFile) :
    dropRepeatsOf kept files ⊆ files := by
  induction files generalizing kept with
  | nil => simp [dropRepeatsOf]
  | cons file files ih =>
    rw [dropRepeatsOf]
    split
    · exact subset_cons_of_subset file (ih kept)
    · exact cons_subset_cons file (ih file)

theorem exists_mem_named (member : file ∈ discover tree patterns paths) :
    ∃ path ∈ paths, file ∈ named tree patterns path := by
  unfold discover at member
  generalize sorted : (paths.flatMap (named tree patterns)).mergeSort
    (fun a b => (order a.path b.path).isLE) = files at member
  have among : file ∈ files := by
    cases files with
    | nil => cases member
    | cons first rest => exact cons_subset_cons first (dropRepeatsOf_subset first rest) member
  rw [← sorted, mem_mergeSort] at among
  exact mem_flatMap.1 among

theorem discover_of_pairwise (sorted : (paths.flatMap (named tree patterns)).Pairwise
      fun a b => (order a.path b.path).isLE) :
    discover tree patterns paths = dropRepeats (paths.flatMap (named tree patterns)) := by
  rw [discover, mergeSort_of_pairwise sorted]

theorem exists_foundAt_of_mem_discover (proper : tree.IsProper)
    (member : file ∈ discover tree patterns paths) :
    ∃ lead stem inner, file.FoundAt lead stem inner := by
  obtain ⟨path, -, here⟩ := exists_mem_named member
  unfold named at here
  split at here
  · next found =>
    split at here
    · next component =>
      obtain rfl := mem_singleton.1 here
      exact exists_foundAt_of_file found component
    · cases here
  · next location found =>
    obtain ⟨relative, below, chosen⟩ := mem_filterMap.1 here
    obtain ⟨⟨names, content⟩, listed, rfl⟩ := mem_map.1 below
    have inside := names_of_mem_filesBelow proper (at?_eq_some found).2 listed
    simp only at chosen
    split at chosen
    · next both =>
      cases chosen
      exact exists_foundAt_of_directory inside.1 inside.2 (Bool.and_eq_true_iff.1 both).1
    · cases chosen
  · cases here

end SourceFile

end Batch

end SfcJsx
