import SfcJsx.Proofs.FoundFiles
import SfcJsx.Proofs.Identifiers
import SfcJsx.Proofs.PassVisits

/-!
The places of the files that a pass writes. Main statement: when an output of one component takes
the place of an output of another.
-/

namespace SfcJsx

open List

variable {outDir : Option Text} {c : Char}

namespace Text

def isPathMark (c : Char) : Bool := c == '.' || c == '/'

def IsUnmarked (t : Text) : Prop := t ≠ [] ∧ ∀ c ∈ t, isPathMark c = false

theorem IsUnmarked.append_dot_inj {name name' : Text} (unmarked : name.IsUnmarked)
    (unmarked' : name'.IsUnmarked) (ending ending' : Text) :
    name ++ '.' :: ending = name' ++ '.' :: ending' ↔ name = name' ∧ ending = ending' := by
  constructor
  · intro same
    have first {t : Text} (inside : t.IsUnmarked) (rest : Text) :
        (t ++ '.' :: rest).takeWhile (!isPathMark ·) = t :=
      takeWhile_append (fun c member => by simp [inside.2 c member]) rfl
    have names := congrArg (takeWhile (!isPathMark ·)) same
    rw [first unmarked, first unmarked'] at names
    subst names
    exact ⟨rfl, (cons.inj (append_cancel_left same)).2⟩
  · rintro ⟨rfl, rfl⟩
    rfl

theorem isPathMark_toUpper (ascii : c.toNat < 0x80) (other : isPathMark c = false) :
    isPathMark c.toUpper = false := by
  have all : (range 0x80).all fun n =>
      isPathMark (Char.ofNat n) || !isPathMark (Char.ofNat n).toUpper := by decide
  have here := all_eq_true.1 all c.toNat (mem_range.2 ascii)
  rw [Char.ofNat_toNat, other] at here
  simpa using here

theorem isPathMark_ofNat {n : Nat} (high : 0x40 ≤ n) : isPathMark (Char.ofNat n) = false := by
  have other {m : Char} (low : m.toNat < 0x40) (ne : m ≠ Char.ofNat 0) : Char.ofNat n ≠ m := by
    rintro rfl
    by_cases valid : n.isValidChar
    · have code : (Char.ofNat n).toNat = n := by
        rw [Char.ofNat, dif_pos valid]
        rfl
      omega
    · exact ne (by rw [Char.ofNat, dif_neg valid]; rfl)
  have dot : Char.ofNat n ≠ '.' := other (by decide) (by decide)
  have slash : Char.ofNat n ≠ '/' := other (by decide) (by decide)
  simp [isPathMark, dot, slash]

theorem isUnmarked_upper (other : isPathMark c = false) : IsUnmarked (upper c) := by
  unfold upper
  split
  · next ascii => exact ⟨by simp, by simpa using isPathMark_toUpper ascii other⟩
  · split
    · next codes found =>
      have table : upperExpansions.all (fun entry =>
          entry.2 != [] && entry.2.all fun n => decide (0x40 ≤ n)) := by decide +kernel
      obtain ⟨before, after, whole, -⟩ := lookup_eq_some_iff.1 found
      have here := all_eq_true.1 table (c.toNat, codes) (by rw [whole]; simp)
      simp only [Bool.and_eq_true, bne_iff_ne, ne_eq, all_eq_true, decide_eq_true_eq] at here
      refine ⟨by simpa using here.1, fun d member => ?_⟩
      obtain ⟨n, inside, rfl⟩ := mem_map.1 member
      exact isPathMark_ofNat (here.2 n inside)
    · refine ⟨by simp, fun d member => ?_⟩
      obtain rfl := mem_singleton.1 member
      unfold CaseRun.map
      split
      · next run found =>
        have table : upperRuns.all (fun run => decide (0x40 ≤ run.first + run.shift)) := by
          decide +kernel
        have here := all_eq_true.1 table run (mem_of_find?_eq_some found)
        have covered := find?_some found
        simp only [CaseRun.covers, Bool.and_eq_true, decide_eq_true_eq] at here covered
        exact isPathMark_ofNat (by omega)
      · exact other

theorem isPathMark_capitalize {t : Text} (inside : ∀ c ∈ t, isPathMark c = false) :
    ∀ c ∈ capitalize t, isPathMark c = false := by
  cases t with
  | nil => simp [capitalize]
  | cons c t =>
    have first := isUnmarked_upper (inside c (by simp))
    intro d member
    obtain here | later := mem_append.1 member
    · exact first.2 d here
    · exact inside d (mem_cons_of_mem c later)

end Text

namespace ComponentName

open Text

theorem isUnmarked_default : IsUnmarked default := by
  have all : (default.all fun c => !isPathMark c) := by decide
  exact ⟨by decide, by simpa using all_eq_true.1 all⟩

theorem isPathMark_of_isAlphanumeric (inWord : isAlphanumeric c) : isPathMark c = false := by
  have marks : c ∉ ['.', '/'] := not_mem_of_any inWord (by decide)
  simp only [mem_cons, not_mem_nil, or_false, not_or] at marks
  simp [isPathMark, marks]

theorem isUnmarked_ofWords (t : Text) : IsUnmarked (ofWords t) := by
  simp only [ofWords]
  split
  · exact isUnmarked_default
  · next c rest kept =>
    have inside : ∀ d ∈ c :: rest, isPathMark d = false := by
      intro d member
      rw [← kept] at member
      obtain ⟨word, among, here⟩ := mem_flatten.1 ((dropWhile_suffix _).subset member)
      obtain ⟨field, field_mem, rfl⟩ := mem_map.1 among
      refine isPathMark_capitalize (fun e inside => ?_) d here
      have inWord : (!(isAlphanumeric e || e == '_')) = false :=
        isSeparator_of_mem_fields field_mem e inside
      rw [Bool.not_eq_false', Bool.or_eq_true, beq_iff_eq] at inWord
      obtain alphanumeric | underscore := inWord
      · exact isPathMark_of_isAlphanumeric alphanumeric
      · rw [underscore]
        decide
    split
    · refine ⟨?_, isPathMark_capitalize inside⟩
      have first := isUnmarked_upper (inside c (by simp))
      simp [capitalize, first.1]
    · exact isUnmarked_default

theorem isUnmarked_ofPath (path : Text) : IsUnmarked (ofPath path) := by
  unfold ofPath
  cases Path.fileStem? path with
  | none => exact isUnmarked_default
  | some stem => exact isUnmarked_ofWords stem

end ComponentName

namespace Style

theorem exists_filename_moduleSheet (component : Text) (blocks : List Markup.StyleBlock) :
    ∃ ending : Text, (moduleSheet component blocks).filename = component ++ '.' :: ending :=
  ⟨"module." ++ extension blocks, by simp [moduleSheet]⟩

theorem exists_filename_globalSheet (component : Text) (blocks : List Markup.StyleBlock) :
    ∃ ending : Text, (globalSheet component blocks).filename = component ++ '.' :: ending :=
  ⟨extension blocks, by simp [globalSheet]⟩

theorem exists_filename_eq {component : Text} {blocks : List Markup.StyleBlock} {sheet : Sheet}
    (member : sheet ∈ (Sheets.ofBlocks component blocks).sheets) :
    ∃ ending : Text, sheet.filename = component ++ '.' :: ending := by
  simp only [Sheets.ofBlocks, mem_append] at member
  obtain own | other := member
  · split at own
    · cases own
    · obtain rfl := mem_singleton.1 own
      exact exists_filename_moduleSheet component _
  · split at other
    · cases other
    · obtain rfl := mem_singleton.1 other
      exact exists_filename_globalSheet component _

end Style

namespace Path

theorem startComponent_of_unmarked {name : Text} (unmarked : name.IsUnmarked) (more : Text) :
    startComponent (name ++ more) = [] := by
  obtain ⟨ne, inside⟩ := unmarked
  obtain ⟨c, name, rfl⟩ := exists_cons_of_ne_nil ne
  have first := inside c (by simp)
  simp only [Text.isPathMark, Bool.or_eq_false_iff, beq_eq_false_iff_ne, ne_eq] at first
  obtain ⟨piece, pieces, read⟩ := @Text.exists_fields_cons (· == '/') (name ++ more)
  refine @startComponent_of_head? _ (c :: piece) ?_ ?_
  · simp [Text.fields, read, first]
  · simp [isVoid, first]

theorem components_of_unmarked {name : Text} (unmarked : name.IsUnmarked) {more : Text}
    (slashless : '/' ∉ name ++ more) : components (name ++ more) = [.normal (name ++ more)] := by
  obtain ⟨ne, inside⟩ := unmarked
  obtain ⟨c, name, rfl⟩ := exists_cons_of_ne_nil ne
  have first : c ≠ '.' := by
    rintro rfl
    exact absurd (inside '.' (by simp)) (by decide)
  have shown : isVoid (c :: name ++ more) = false := by simp [isVoid, first]
  have named : componentOf (c :: name ++ more) = .normal (c :: name ++ more) := by
    refine if_neg fun parent => first ?_
    exact (cons.inj (show c :: (name ++ more) = ['.', '.'] from parent)).1
  obtain ⟨-, parts⟩ := components_name (.inl rfl) slashless shown
  rw [named] at parts
  exact parts

end Path

namespace Batch

open SfcJsx.Path

namespace SourceFile

def stem (file : SourceFile) : Text := (fileStem? file.path).getD []

/-- The directory of what is generated for a file: its own, or one in the output directory that lies
there as its own does in its root. -/
def home (outDir : Option Text) (file : SourceFile) : List Component :=
  match outDir with
  | none => (components file.path).dropLast
  | some base =>
    components base ++ (components file.path).dropLast.drop (components file.root).length

def moduleName (file : SourceFile) (isTypescript : Bool) : Component :=
  renamed file.stem (if isTypescript then "tsx" else "jsx")

namespace FoundAt

variable {file : SourceFile} {lead name : Text} {inner : List Component}
  (here : file.FoundAt lead name inner)

include here

theorem components_path :
    components file.path = components lead ++ [.normal (name ++ '.' :: "vue".toList)] := by
  have slashless : '/' ∉ name ++ '.' :: "vue".toList := by simpa using here.slashless
  obtain ⟨-, parts⟩ := components_name here.base slashless (isVoid_append_cons here.ne '.' _)
  rw [here.path_eq, parts, componentOf_append_dot (.inr (by decide)) here.ne]

theorem stem_eq : file.stem = name := by
  rw [stem, fileStem?, (fileName?_eq_some_iff here.components_path).2 rfl, Option.map_some,
    splitName_append here.ne (by decide)]
  rfl

theorem home_eq (outDir : Option Text) :
    file.home outDir =
      (outDir.map fun base => components base ++ inner).getD (components lead) := by
  cases outDir with
  | none => simp [home, here.components_path]
  | some base => simp [home, here.components_path, here.below]

theorem exists_join_below? (base : Text) :
    ∃ (relative outer : Text), below? file.root file.path = some relative ∧ IsBase outer ∧
      join base relative = outer ++ (name ++ '.' :: "vue".toList) ∧
      components outer = components base ++ inner := by
  have parts : components file.path =
      components file.root ++ (inner ++ [.normal (name ++ '.' :: "vue".toList)]) := by
    rw [here.components_path, here.below, append_assoc]
  obtain ⟨rest, seen, names_eq, proper⟩ := exists_below? here.starts parts
  obtain ⟨init, last, whole, shown, rfl, last_eq⟩ := exists_dropTrailing_eq names_eq
  obtain rfl := eq_of_componentOf last_eq
  have kept := proper.of_initial (dropTrailing_initial rest)
  rw [whole] at kept seen
  obtain ⟨outer, outer_base, joined, -, outer_eq⟩ := exists_join_joinSegments base kept shown
  exact ⟨_, outer, seen, outer_base, joined, outer_eq⟩

theorem components_outputPath (outDir : Option Text) (isTypescript : Bool) :
    components (file.outputPath outDir isTypescript) =
      file.home outDir ++ [file.moduleName isTypescript] := by
  have slashless : '/' ∉ name ++ '.' :: "vue".toList := by simpa using here.slashless
  have extended {lead : Text} (base : IsBase lead) :
      components (withExtension (lead ++ (name ++ '.' :: "vue".toList))
        (if isTypescript then "tsx" else "jsx")) =
      components lead ++ [renamed name (if isTypescript then "tsx" else "jsx")] :=
    components_withExtension base slashless (by decide) here.ne (by decide)
      (by cases isTypescript <;> decide) (by cases isTypescript <;> decide)
  rw [home_eq here, moduleName, stem_eq here]
  unfold outputPath
  cases outDir with
  | none =>
    simp only [here.path_eq, Option.map_none, Option.getD_none]
    exact extended here.base
  | some base =>
    obtain ⟨relative, outer, seen, outer_base, joined, outer_eq⟩ := exists_join_below? here base
    simp only [seen, Option.getD_some, joined, Option.map_some]
    rw [extended outer_base, outer_eq]

end FoundAt

end SourceFile

def Outputs.paths (outputs : Outputs) : List Text :=
  outputs.modulePath :: outputs.sheets.map (·.1)

theorem sheets_replaceFragments (c : Conversion) (replacements : OrderedMap Text) :
    (replaceFragments c replacements).sheets = c.sheets ∧
      (replaceFragments c replacements).isTypescript = c.isTypescript := by
  unfold replaceFragments
  split <;> exact ⟨rfl, rfl⟩

variable {s : Settings}

theorem components_paths {file : SourceFile} {lead name : Text} {inner : List Component}
    (here : file.FoundAt lead name inner) {c : Conversion}
    (relative : ∀ sheet ∈ c.sheets, startComponent sheet.filename = []) :
    (Outputs.of s file c).paths.map components =
      (file.home s.outDir ++ [file.moduleName c.isTypescript]) ::
        c.sheets.map fun sheet => file.home s.outDir ++ components sheet.filename := by
  have module_eq := here.components_outputPath s.outDir c.isTypescript
  obtain ⟨above, above_eq, -, parts⟩ := exists_parent? module_eq (isNamed_renamed _ _)
  simp only [Outputs.paths, Outputs.of, above_eq, Option.getD_some, map_cons, module_eq, map_map]
  congr 1
  refine map_congr_left fun sheet member => ?_
  rw [Function.comp_apply, Function.comp_apply, (components_join above (relative sheet member)).2,
    parts]

theorem Draft.exists_filename_of_convert {draft : Draft} {result : Draft.Result}
    (converted : draft.convert s = .ok result) :
    ∀ sheet ∈ result.conversion.sheets,
      ∃ ending : Text, sheet.filename = ComponentName.ofPath draft.file.path ++ '.' :: ending := by
  simp only [Draft.convert] at converted
  split at converted
  · next conversion read =>
    cases converted
    unfold SfcJsx.convert at read
    split at read
    · cases read
      intro sheet member
      exact Style.exists_filename_eq member
    · cases read
  · cases converted

namespace Draft.Result

/-- The paths of all files written for a component. -/
def outputPaths (s : Settings) (replacements : OrderedMap Text) (r : Draft.Result) : List Text :=
  (Outputs.of s r.file (replaceFragments r.conversion replacements)).paths

def modulePlace (outDir : Option Text) (r : Draft.Result) : List Component :=
  r.file.home outDir ++ [r.file.moduleName r.conversion.isTypescript]

/-- Where a stylesheet of a component goes. -/
def sheetPlace (outDir : Option Text) (r : Draft.Result) (sheet : Style.Sheet) : List Component :=
  r.file.home outDir ++ components sheet.filename

end Draft.Result

/-- An output of one component takes the place of an output of another. -/
inductive Overlap (outDir : Option Text) (a b : Draft.Result) : Prop
  /-- Two files that lie alike below different roots, in an output directory. -/
  | modules : outDir ≠ none → Path.same a.file.root b.file.root = false →
      a.file.home outDir = b.file.home outDir → a.file.stem = b.file.stem →
      a.conversion.isTypescript = b.conversion.isTypescript ∨ a.file.stem = ['.'] →
      Overlap outDir a b
  | sheets {x y : Style.Sheet} : x ∈ a.conversion.sheets → y ∈ b.conversion.sheets →
      a.sheetPlace outDir x = b.sheetPlace outDir y → Overlap outDir a b
  | moduleSheet {y : Style.Sheet} : y ∈ b.conversion.sheets →
      a.modulePlace outDir = b.sheetPlace outDir y → Overlap outDir a b
  | sheetModule {x : Style.Sheet} : x ∈ a.conversion.sheets →
      a.sheetPlace outDir x = b.modulePlace outDir → Overlap outDir a b

theorem exists_same_iff (paths paths' : List Text) :
    (∃ p ∈ paths, ∃ q ∈ paths', Path.same p q) ↔
      ∃ place ∈ paths.map components, place ∈ paths'.map components := by
  simp only [Path.same, beq_iff_eq, mem_map]
  constructor
  · rintro ⟨p, p_mem, q, q_mem, same⟩
    exact ⟨_, ⟨p, p_mem, rfl⟩, q, q_mem, same.symm⟩
  · rintro ⟨place, ⟨p, p_mem, rfl⟩, q, q_mem, same⟩
    exact ⟨p, p_mem, q, q_mem, same.symm⟩

theorem renamed_eq_iff {stem stem' extension extension' : Text}
    (length_eq : extension.length = extension'.length) :
    renamed stem extension = renamed stem' extension' ↔
      stem = stem' ∧ (extension = extension' ∨ stem = ['.']) := by
  unfold renamed
  by_cases dot : stem = ['.'] <;> by_cases dot' : stem' = ['.']
  · simp [dot, dot']
  · simp [dot, dot', Ne.symm dot']
  · simp [dot, dot']
  · simp only [dot, dot', if_false, Component.normal.injEq, or_false]
    constructor
    · intro same
      obtain ⟨stem_eq, rest⟩ := append_inj' same (by simp [length_eq])
      exact ⟨stem_eq, (cons.inj rest).2⟩
    · rintro ⟨rfl, rfl⟩
      rfl

namespace SourceFile

theorem moduleName_eq_iff (f g : SourceFile) (isTypescript isTypescript' : Bool) :
    f.moduleName isTypescript = g.moduleName isTypescript' ↔
      f.stem = g.stem ∧ (isTypescript = isTypescript' ∨ f.stem = ['.']) := by
  unfold moduleName
  rw [renamed_eq_iff (by cases isTypescript <;> cases isTypescript' <;> rfl)]
  cases isTypescript <;> cases isTypescript' <;> simp

variable {f g : SourceFile} {lead lead' name name' : Text} {inner inner' : List Component}
  (f_here : f.FoundAt lead name inner) (g_here : g.FoundAt lead' name' inner')

include f_here g_here

theorem roots_apart (apart : Path.same f.path g.path = false)
    (home_eq : f.home outDir = g.home outDir) (stem_eq : f.stem = g.stem) :
    outDir ≠ none ∧ Path.same f.root g.root = false := by
  rw [f_here.stem_eq, g_here.stem_eq] at stem_eq
  rw [f_here.home_eq, g_here.home_eq] at home_eq
  have differ : components lead ≠ components lead' := by
    intro same
    simp [Path.same, f_here.components_path, g_here.components_path, same, stem_eq] at apart
  cases outDir with
  | none => exact absurd home_eq differ
  | some base =>
    refine ⟨by simp, ?_⟩
    have inner_eq : inner = inner' := by simpa using home_eq
    rw [Path.same, beq_eq_false_iff_ne]
    intro same
    exact differ (by rw [f_here.below, g_here.below, same, inner_eq])

end SourceFile

theorem modulePlace_eq_iff {a b : Draft.Result} :
    a.modulePlace outDir = b.modulePlace outDir ↔
      a.file.home outDir = b.file.home outDir ∧ a.file.stem = b.file.stem ∧
        (a.conversion.isTypescript = b.conversion.isTypescript ∨ a.file.stem = ['.']) := by
  unfold Draft.Result.modulePlace
  rw [← SourceFile.moduleName_eq_iff]
  constructor
  · intro same
    obtain ⟨home_eq, name_eq⟩ := append_inj' same rfl
    exact ⟨home_eq, by simpa using name_eq⟩
  · rintro ⟨home_eq, name_eq⟩
    rw [home_eq, name_eq]

theorem sheetPlace_eq_iff {a b : Draft.Result} {x y : Style.Sheet}
    {name name' ending ending' : Text} (unmarked : name.IsUnmarked) (unmarked' : name'.IsUnmarked)
    (x_eq : x.filename = name ++ '.' :: ending) (y_eq : y.filename = name' ++ '.' :: ending')
    (x_slashless : '/' ∉ x.filename) (y_slashless : '/' ∉ y.filename) :
    a.sheetPlace outDir x = b.sheetPlace outDir y ↔
      a.file.home outDir = b.file.home outDir ∧ name = name' ∧ ending = ending' := by
  rw [x_eq] at x_slashless
  rw [y_eq] at y_slashless
  unfold Draft.Result.sheetPlace
  rw [x_eq, y_eq, components_of_unmarked unmarked x_slashless,
    components_of_unmarked unmarked' y_slashless, ← unmarked.append_dot_inj unmarked']
  constructor
  · intro same
    obtain ⟨home_eq, name_eq⟩ := append_inj' same rfl
    exact ⟨home_eq, by simpa using name_eq⟩
  · rintro ⟨home_eq, name_eq⟩
    rw [home_eq, name_eq]

theorem map_components_outputPaths {tree : FileTree} (proper : tree.IsProper) {patterns : List Glob}
    {paths : List Text} {file : SourceFile} (found : file ∈ SourceFile.discover tree patterns paths)
    {content : Text} {r : Draft.Result} (converted : Draft.convert s ⟨file, content⟩ = .ok r)
    (replacements : OrderedMap Text) :
    (r.outputPaths s replacements).map components =
      r.modulePlace s.outDir :: r.conversion.sheets.map (r.sheetPlace s.outDir) := by
  obtain ⟨lead, stem, inner, here⟩ := SourceFile.exists_foundAt_of_mem_discover proper found
  have file_eq : r.file = file := Draft.file_of_convert converted
  obtain ⟨sheets_eq, kind_eq⟩ := sheets_replaceFragments r.conversion replacements
  rw [← file_eq] at here
  rw [Draft.Result.outputPaths, components_paths here, sheets_eq, kind_eq]
  · rfl
  · intro sheet member
    rw [sheets_eq] at member
    obtain ⟨ending, filename_eq⟩ := Draft.exists_filename_of_convert converted sheet member
    rw [filename_eq]
    exact startComponent_of_unmarked (ComponentName.isUnmarked_ofPath _) _

theorem exists_place_iff {a b : Draft.Result}
    (roots : a.file.home outDir = b.file.home outDir → a.file.stem = b.file.stem →
      outDir ≠ none ∧ Path.same a.file.root b.file.root = false) :
    (∃ place ∈ a.modulePlace outDir :: a.conversion.sheets.map (a.sheetPlace outDir),
      place ∈ b.modulePlace outDir :: b.conversion.sheets.map (b.sheetPlace outDir)) ↔
      Overlap outDir a b := by
  constructor
  · rintro ⟨place, in_a, in_b⟩
    obtain rfl | in_a := mem_cons.1 in_a
    · obtain same | in_b := mem_cons.1 in_b
      · obtain ⟨home_eq, stem_eq, kind⟩ := modulePlace_eq_iff.1 same
        obtain ⟨given, apart⟩ := roots home_eq stem_eq
        exact .modules given apart home_eq stem_eq kind
      · obtain ⟨y, y_mem, same⟩ := mem_map.1 in_b
        exact .moduleSheet y_mem same.symm
    · obtain ⟨x, x_mem, rfl⟩ := mem_map.1 in_a
      obtain same | in_b := mem_cons.1 in_b
      · exact .sheetModule x_mem same
      · obtain ⟨y, y_mem, same⟩ := mem_map.1 in_b
        exact .sheets x_mem y_mem same.symm
  · intro overlap
    cases overlap with
    | modules _ _ home_eq stem_eq kind =>
      exact ⟨_, mem_cons_self, mem_cons.2 (.inl (modulePlace_eq_iff.2 ⟨home_eq, stem_eq, kind⟩))⟩
    | sheets x_mem y_mem same =>
      exact ⟨_, mem_cons_of_mem _ (mem_map_of_mem x_mem),
        mem_cons_of_mem _ (mem_map.2 ⟨_, y_mem, same.symm⟩)⟩
    | moduleSheet y_mem same =>
      exact ⟨_, mem_cons_self, mem_cons_of_mem _ (mem_map.2 ⟨_, y_mem, same.symm⟩)⟩
    | sheetModule x_mem same =>
      exact ⟨_, mem_cons_of_mem _ (mem_map_of_mem x_mem), mem_cons.2 (.inl same)⟩

/-- Outputs of two components take the same place exactly in an overlap. Two stylesheets do so when
they are in one directory and have the component's name and the ending in common. -/
theorem outputs_overlap_iff {s : Settings} {tree : FileTree} (proper : tree.IsProper)
    {patterns : List Glob} {paths : List Text} {f g : SourceFile}
    (f_found : f ∈ SourceFile.discover tree patterns paths)
    (g_found : g ∈ SourceFile.discover tree patterns paths)
    (apart : Path.same f.path g.path = false) {content content' : Text} {a b : Draft.Result}
    (a_converted : Draft.convert s ⟨f, content⟩ = .ok a)
    (b_converted : Draft.convert s ⟨g, content'⟩ = .ok b)
    (replacements replacements' : OrderedMap Text) :
    ((∃ p ∈ a.outputPaths s replacements, ∃ q ∈ b.outputPaths s replacements',
        Path.same p q = true) ↔ Overlap s.outDir a b) ∧
      ∀ x ∈ a.conversion.sheets, ∀ y ∈ b.conversion.sheets,
        ∃ ending ending' : Text,
          x.filename = ComponentName.ofPath f.path ++ '.' :: ending ∧
          y.filename = ComponentName.ofPath g.path ++ '.' :: ending' ∧
          ('/' ∉ x.filename → '/' ∉ y.filename →
            (a.sheetPlace s.outDir x = b.sheetPlace s.outDir y ↔
              a.file.home s.outDir = b.file.home s.outDir ∧
              ComponentName.ofPath f.path = ComponentName.ofPath g.path ∧ ending = ending')) := by
  refine ⟨?_, fun x x_mem y y_mem => ?_⟩
  · rw [exists_same_iff, map_components_outputPaths proper f_found a_converted,
      map_components_outputPaths proper g_found b_converted]
    refine exists_place_iff fun home_eq stem_eq => ?_
    obtain ⟨lead, stem, inner, f_here⟩ := SourceFile.exists_foundAt_of_mem_discover proper f_found
    obtain ⟨lead', stem', inner', g_here⟩ :=
      SourceFile.exists_foundAt_of_mem_discover proper g_found
    have a_file : a.file = f := Draft.file_of_convert a_converted
    have b_file : b.file = g := Draft.file_of_convert b_converted
    rw [a_file, b_file] at home_eq stem_eq ⊢
    exact SourceFile.roots_apart f_here g_here apart home_eq stem_eq
  · obtain ⟨ending, x_eq⟩ := Draft.exists_filename_of_convert a_converted x x_mem
    obtain ⟨ending', y_eq⟩ := Draft.exists_filename_of_convert b_converted y y_mem
    exact ⟨ending, ending', x_eq, y_eq, sheetPlace_eq_iff (ComponentName.isUnmarked_ofPath _)
      (ComponentName.isUnmarked_ofPath _) x_eq y_eq⟩

def styledTree (first second : Text) : FileTree :=
  ⟨[(["w"], .directory),
    (["w", first], .file (some "<template><p /></template><style>.a{}</style>")),
    (["w", second], .file (some "<template><i /></template><style>.b{}</style>"))]⟩

def plainSettings : Settings := Settings.layer { directory := "/w", home := "/h" } {} {} "/w"

theorem exists_sheet {draft : Draft} {filename : Text}
    (read : ((draft.convert plainSettings).toOption.map fun r =>
      r.conversion.sheets.map (·.filename)) = some [filename]) :
    ∃ r : Draft.Result, draft.convert plainSettings = .ok r ∧
      ∃ sheet ∈ r.conversion.sheets, sheet.filename = filename := by
  cases converted : draft.convert plainSettings with
  | error report => simp [converted, Except.toOption] at read
  | ok r =>
    have names : r.conversion.sheets.map (·.filename) = [filename] := by
      simpa [converted, Except.toOption] using read
    refine ⟨r, rfl, mem_map.1 ?_⟩
    rw [names]
    exact mem_singleton_self filename

/-- Two spellings of one name share a stylesheet. -/
theorem outputs_overlap_spellings :
    let tree := styledTree "TodoItem.vue" "todo-item.vue"
    let f : SourceFile := ⟨"/w/TodoItem.vue", "/w"⟩
    let g : SourceFile := ⟨"/w/todo-item.vue", "/w"⟩
    SourceFile.discover tree [] ["/w"] = [f, g] ∧ Path.same f.path g.path = false ∧
      ∃ a b : Draft.Result,
        Draft.convert plainSettings ⟨f, "<template><p /></template><style>.a{}</style>"⟩ = .ok a ∧
        Draft.convert plainSettings ⟨g, "<template><i /></template><style>.b{}</style>"⟩ = .ok b ∧
        ∃ p ∈ a.outputPaths plainSettings {}, ∃ q ∈ b.outputPaths plainSettings {},
          Path.same p q = true := by
  intro tree f g
  have named_eq : ["/w".toList].flatMap (SourceFile.named tree []) = [f, g] := by decide +kernel
  have found : SourceFile.discover tree [] ["/w"] = [f, g] := by
    rw [SourceFile.discover_of_pairwise (by rw [named_eq]; decide +kernel), named_eq]
    decide +kernel
  have proper : tree.IsProper := ⟨by decide, by decide⟩
  have apart : Path.same f.path g.path = false := by decide +kernel
  obtain ⟨a, a_converted, x, x_mem, x_eq⟩ := @exists_sheet
    ⟨f, "<template><p /></template><style>.a{}</style>"⟩ "TodoItem.css" (by decide +kernel)
  obtain ⟨b, b_converted, y, y_mem, y_eq⟩ := @exists_sheet
    ⟨g, "<template><i /></template><style>.b{}</style>"⟩ "TodoItem.css" (by decide +kernel)
  have a_file : a.file = f := Draft.file_of_convert a_converted
  have b_file : b.file = g := Draft.file_of_convert b_converted
  have place : a.sheetPlace plainSettings.outDir x = b.sheetPlace plainSettings.outDir y := by
    rw [Draft.Result.sheetPlace, Draft.Result.sheetPlace, a_file, b_file, x_eq, y_eq]
    decide +kernel
  exact ⟨found, apart, a, b, a_converted, b_converted,
    (outputs_overlap_iff proper (by rw [found]; simp) (by rw [found]; simp) apart a_converted
      b_converted {} {}).1.2 (.sheets x_mem y_mem place)⟩

/-- Two roots share an output directory. -/
theorem outputPath_of_two_roots :
    let tree : FileTree := ⟨[(["a"], .directory), (["a", "App.vue"], .file (some [])),
      (["b"], .directory), (["b", "App.vue"], .file (some []))]⟩
    let files := SourceFile.discover tree [] ["/a", "/b"]
    files.map (·.path) = ["/a/App.vue".toList, "/b/App.vue".toList] ∧
      files.map (·.outputPath (some "/out") false) =
        ["/out/App.jsx".toList, "/out/App.jsx".toList] := by
  intro tree files
  have files_eq : files = SourceFile.dropRepeats _ :=
    SourceFile.discover_of_pairwise (by decide +kernel)
  rw [files_eq]
  decide +kernel

end Batch

end SfcJsx
