import SfcJsx.File.Path
import SfcJsx.Proofs.TextSearch

/-!
The components of paths that are put together from others. Main statements: the components of a
joined path, of a parent, of a path seen from a base, and of a path with another extension.
-/

namespace SfcJsx

open List

variable {path stem segment lead last extension name t : Text} {front init : List Text}

namespace Path

open Text

theorem joinSegments_concat {segments : List Text} (ne : segments ≠ []) (last : Text) :
    joinSegments (segments ++ [last]) = joinSegments segments ++ '/' :: last :=
  intercalate_concat ne ['/'] last

theorem joinSegments_fields (t : Text) : joinSegments (t.fields (· == '/')) = t :=
  intercalate_fields '/' t

theorem fields_joinSegments {segments : List Text} (ne : segments ≠ [])
    (slashless : ∀ segment ∈ segments, '/' ∉ segment) :
    (joinSegments segments).fields (· == '/') = segments := fields_intercalate ne slashless

/-- The components that names stand for. -/
def names (segments : List Text) : List Component :=
  (segments.filter (!isVoid ·)).map componentOf

@[simp] theorem names_nil : names [] = [] := rfl

@[simp] theorem names_append (s t : List Text) : names (s ++ t) = names s ++ names t := by
  simp [names]

theorem names_of_isVoid {segments : List Text}
    (void : ∀ segment ∈ segments, isVoid segment) : names segments = [] := by
  simpa [names] using void

theorem names_singleton (shown : isVoid segment = false) :
    names [segment] = [componentOf segment] := by
  simp [names, shown]

theorem names_fields_nil : names (fields (· == '/') []) = [] := by decide

theorem components_eq (path : Text) :
    components path = startComponent path ++ names (segments path) := rfl

theorem isAbsolute_append (ne : path ≠ []) (more : Text) :
    isAbsolute (path ++ more) = isAbsolute path := by
  obtain ⟨c, path, rfl⟩ := exists_cons_of_ne_nil ne
  rfl

theorem segments_append (ne : path ≠ []) (more : Text) :
    segments (path ++ '/' :: more) = segments path ++ more.fields (· == '/') := by
  unfold segments
  rw [isAbsolute_append ne]
  split
  · rw [tail_append_of_ne_nil ne, fields_append rfl]
  · rw [fields_append rfl]

theorem startComponent_append (ne : path ≠ []) (more : Text) :
    startComponent (path ++ '/' :: more) = startComponent path := by
  obtain ⟨piece, pieces, read⟩ : ∃ piece pieces, segments path = piece :: pieces :=
    exists_fields_cons _
  rw [startComponent, isAbsolute_append ne, segments_append ne, startComponent, read]
  rfl

theorem components_append (ne : path ≠ []) (more : Text) :
    components (path ++ '/' :: more) = components path ++ names (more.fields (· == '/')) := by
  rw [components_eq, startComponent_append ne, segments_append ne, names_append,
    ← append_assoc, ← components_eq]

theorem components_slash (more : Text) :
    components ('/' :: more) = .root :: names (more.fields (· == '/')) := rfl

theorem isAbsolute_of_startComponent (relative : startComponent path = []) :
    isAbsolute path = false := by
  cases absolute : isAbsolute path with
  | false => rfl
  | true => simp [startComponent, absolute] at relative

theorem segments_of_startComponent (relative : startComponent path = []) :
    segments path = path.fields (· == '/') := by
  rw [segments, if_neg (by simp [isAbsolute_of_startComponent relative])]

theorem components_of_startComponent (relative : startComponent path = []) :
    components path = names (path.fields (· == '/')) := by
  rw [components_eq, relative, segments_of_startComponent relative]
  rfl

def IsBase (lead : Text) : Prop := lead = [] ∨ lead.getLast? = some '/'

theorem IsBase.append {more : Text} (base : IsBase lead) (base' : IsBase more) :
    IsBase (lead ++ more) := by
  obtain rfl | slash := base'
  · rwa [append_nil]
  · exact .inr (by simp [getLast?_append, slash])

theorem components_lead (base : IsBase lead) (relative : startComponent path = []) :
    startComponent (lead ++ path) = startComponent lead ∧
      components (lead ++ path) = components lead ++ components path := by
  rw [components_of_startComponent relative]
  obtain rfl | slash := base
  · rw [nil_append, components_of_startComponent relative, relative]
    exact ⟨rfl, rfl⟩
  · obtain ⟨front, rfl⟩ := getLast?_eq_some_iff.1 slash
    rw [append_assoc, singleton_append]
    cases front with
    | nil => exact ⟨rfl, rfl⟩
    | cons c front =>
      have ne : c :: front ≠ [] := by simp
      rw [startComponent_append ne, startComponent_append ne, components_append ne,
        components_append ne, names_fields_nil, append_nil]
      exact ⟨rfl, rfl⟩

theorem exists_join_eq (base : Text) (relative : isAbsolute path = false) :
    ∃ lead : Text, IsBase lead ∧ join base path = lead ++ path ∧
      startComponent lead = startComponent base ∧ components lead = components base := by
  rw [join, if_neg (by simp [relative])]
  split
  · next ends => exact ⟨base, by simpa [IsBase] using ends, rfl, rfl, rfl⟩
  · next ends =>
    have ne : base ≠ [] := fun empty => ends (by simp [empty])
    refine ⟨base ++ "/", .inr (by simp), rfl, startComponent_append ne [], ?_⟩
    exact (components_append ne []).trans (by rw [names_fields_nil, append_nil])

theorem components_join (base : Text) (relative : startComponent path = []) :
    startComponent (join base path) = startComponent base ∧
      components (join base path) = components base ++ components path := by
  obtain ⟨lead, ends, joined, starts, parts⟩ :=
    exists_join_eq base (isAbsolute_of_startComponent relative)
  rw [joined, ← starts, ← parts]
  exact components_lead ends relative

theorem startComponent_of_head? {first : Text}
    (starts : (path.fields (· == '/')).head? = some first) (shown : isVoid first = false) :
    startComponent path = [] := by
  have within : isAbsolute path = false := by
    cases absolute : isAbsolute path with
    | false => rfl
    | true =>
      obtain ⟨rest, rfl⟩ := head?_eq_some_iff.1 (of_decide_eq_true absolute)
      have read := @fields_append '/' (· == '/') rfl [] rest
      rw [nil_append] at read
      rw [read] at starts
      obtain rfl : [] = first := by simpa [fields] using starts
      cases shown
  have notCurrent : first ≠ ['.'] := by
    rintro rfl
    cases shown
  simp [startComponent, segments, within, starts, notCurrent]

/-- Names without slashes, the first of which is not void. -/
structure AreNames (segments : List Text) : Prop where
  slashless : ∀ segment ∈ segments, '/' ∉ segment
  shown : ∀ first ∈ segments.head?, isVoid first = false

theorem startComponent_joinSegments {segments : List Text} (proper : AreNames segments) :
    startComponent (joinSegments segments) = [] := by
  cases segments with
  | nil => rfl
  | cons first rest =>
    refine startComponent_of_head? ?_ (proper.shown first rfl)
    rw [fields_joinSegments (by simp) proper.slashless]
    rfl

theorem components_joinSegments {segments : List Text} (proper : AreNames segments) :
    components (joinSegments segments) = names segments := by
  rw [components_of_startComponent (startComponent_joinSegments proper)]
  cases segments with
  | nil => rfl
  | cons first rest => rw [fields_joinSegments (by simp) proper.slashless]

theorem slashless_segments (path : Text) : ∀ segment ∈ segments path, '/' ∉ segment :=
  fun _ member => not_mem_of_mem_fields member

theorem components_assemble (path : Text) {segments : List Text}
    (slashless : ∀ segment ∈ segments, '/' ∉ segment)
    (shown : startComponent path = [] → ∀ first ∈ segments.head?, isVoid first = false) :
    startComponent (assemble (start path) segments) = startComponent path ∧
      components (assemble (start path) segments) = startComponent path ++ names segments := by
  have joined : names ((joinSegments segments).fields (· == '/')) = names segments := by
    cases segments with
    | nil => exact names_fields_nil
    | cons first rest => rw [fields_joinSegments (by simp) slashless]
  cases absolute : isAbsolute path with
  | true =>
    have kind : startComponent path = [.root] := by simp [startComponent, absolute]
    have spelled : assemble (start path) segments = '/' :: joinSegments segments := by
      simp [assemble, start, absolute]
    rw [kind, spelled, components_slash, joined]
    exact ⟨rfl, rfl⟩
  | false =>
    by_cases current : (Path.segments path).head? = some ['.']
    · have kind : startComponent path = [.current] := by
        simp [startComponent, absolute, current]
      have spelled : assemble (start path) segments =
          if segments = [] then ['.'] else ['.'] ++ '/' :: joinSegments segments := by
        by_cases none : segments = [] <;>
          simp [assemble, start, absolute, current, none, joinSegments]
      rw [kind, spelled]
      split
      · next none =>
        rw [none]
        decide
      · have single : startComponent ['.'] = [.current] ∧ components ['.'] = [.current] := by decide
        rw [startComponent_append (by simp), components_append (by simp), joined]
        exact ⟨rfl, rfl⟩
    · have kind : startComponent path = [] := by simp [startComponent, absolute, current]
      have spelled : assemble (start path) segments = joinSegments segments := by
        simp [assemble, start, absolute, current]
      have proper : AreNames segments := ⟨slashless, shown kind⟩
      rw [kind, spelled, startComponent_joinSegments proper, components_joinSegments proper]
      exact ⟨rfl, rfl⟩

theorem body_suffix (path : Text) : body path <:+ segments path := by
  unfold body
  split
  · exact tail_suffix _
  · exact suffix_refl _

theorem names_body (path : Text) : names (body path) = names (segments path) := by
  unfold body
  split
  · next current =>
    obtain ⟨rest, read⟩ := head?_eq_some_iff.1 (by simpa using current : _ ∧ _).2
    have void : names [['.']] = [] := by decide
    rw [read, tail_cons, ← singleton_append, names_append, void, nil_append]
  · rfl

theorem isVoid_head?_body (relative : startComponent path = []) (ne : path ≠ []) :
    ∀ first ∈ (body path).head?, isVoid first = false := by
  have within := isAbsolute_of_startComponent relative
  have notCurrent : (segments path).head? ≠ some ['.'] := fun current => by
    simp [startComponent, within, current] at relative
  intro first starts
  rw [body, if_neg (by simp [notCurrent])] at starts
  have notDot : first ≠ ['.'] := fun dot => notCurrent (dot ▸ starts)
  rw [segments_of_startComponent relative] at starts
  have notEmpty : first ≠ [] := by
    rintro rfl
    obtain ⟨c, rest, rfl⟩ := exists_cons_of_ne_nil ne
    obtain ⟨piece, pieces, read⟩ := @exists_fields_cons (· == '/') rest
    by_cases slash : c = '/'
    · simp [isAbsolute, slash] at within
    · simp [fields, read, slash] at starts
  simp [isVoid, notDot, notEmpty]

theorem exists_dropTrailing_append (segments : List Text) :
    ∃ voids : List Text, dropTrailing segments ++ voids = segments ∧
      ∀ segment ∈ voids, isVoid segment := by
  refine ⟨(segments.reverse.takeWhile isVoid).reverse, ?_, ?_⟩
  · rw [dropTrailing, ← reverse_append, takeWhile_append_dropWhile, reverse_reverse]
  · intro segment member
    exact all_eq_true.1 all_takeWhile segment (mem_reverse.1 member)

theorem dropTrailing_initial (segments : List Text) : dropTrailing segments <+: segments :=
  have ⟨voids, parts, _⟩ := exists_dropTrailing_append segments
  ⟨voids, parts⟩

theorem names_dropTrailing (segments : List Text) :
    names (dropTrailing segments) = names segments := by
  obtain ⟨voids, parts, void⟩ := exists_dropTrailing_append segments
  conv => rhs; rw [← parts]
  rw [names_append, names_of_isVoid void, append_nil]

theorem isVoid_of_dropTrailing {segments : List Text}
    (ends : dropTrailing segments = front ++ [last]) : isVoid last = false := by
  have stops := head?_dropWhile_not isVoid segments.reverse
  have read := congrArg reverse ends
  rw [dropTrailing, reverse_reverse, reverse_append] at read
  rw [read] at stops
  exact stops

theorem exists_dropTrailing_eq {segments : List Text} {front : List Component} {last : Component}
    (ends : names segments = front ++ [last]) :
    ∃ (init : List Text) (name : Text), dropTrailing segments = init ++ [name] ∧
      isVoid name = false ∧ names init = front ∧ componentOf name = last := by
  rw [← names_dropTrailing] at ends
  obtain none | ⟨init, name, whole⟩ := eq_nil_or_concat (dropTrailing segments)
  · simp [none] at ends
  · rw [concat_eq_append] at whole
    have shown := isVoid_of_dropTrailing whole
    rw [whole, names_append, names_singleton shown] at ends
    obtain ⟨same, last_eq⟩ := append_inj' ends rfl
    exact ⟨init, name, whole, shown, same, by simpa using last_eq⟩

theorem AreNames.of_initial {s t : List Text} (proper : AreNames t) (within : s <+: t) :
    AreNames s := by
  refine ⟨fun segment member => proper.slashless segment (within.subset member), ?_⟩
  obtain ⟨rest, rfl⟩ := within
  intro first starts
  exact proper.shown first (by simp [Option.mem_def.1 starts])

theorem AreNames.concat (proper : AreNames front) (slashless : '/' ∉ last)
    (shown : isVoid last = false) : AreNames (front ++ [last]) := by
  refine ⟨fun segment member => ?_, fun first starts => ?_⟩
  · obtain before | rfl := by simpa using member
    · exact proper.slashless segment before
    · exact slashless
  · cases front with
    | nil =>
      obtain rfl : last = first := by simpa using starts
      exact shown
    | cons c front => exact proper.shown first starts

theorem areNames_of_initial (within : init <+: body path) (ne : path ≠ [])
    (relative : startComponent path = []) : AreNames init := by
  have proper : AreNames (body path) :=
    ⟨fun segment member => slashless_segments path segment ((body_suffix path).subset member),
      isVoid_head?_body relative ne⟩
  exact proper.of_initial within

theorem slashless_of_initial (within : init <+: body path) :
    ∀ segment ∈ init, '/' ∉ segment := fun segment member =>
  slashless_segments path segment ((body_suffix path).subset (within.subset member))

def Component.IsNamed : Component → Prop
  | .root => False
  | .current => False
  | .parent => True
  | .normal _ => True

theorem isNamed_componentOf (segment : Text) : (componentOf segment).IsNamed := by
  unfold componentOf
  split <;> trivial

theorem eq_of_componentOf (same : componentOf segment = .normal name) : segment = name := by
  unfold componentOf at same
  split at same
  · cases same
  · exact Component.normal.inj same

theorem exists_names_eq {front : List Component} {last : Component}
    (ends : components path = front ++ [last]) (named : last.IsNamed) :
    ∃ init : List Component, names (segments path) = init ++ [last] ∧
      front = startComponent path ++ init := by
  rw [components_eq] at ends
  obtain none | ⟨init, final, whole⟩ := eq_nil_or_concat (names (segments path))
  · have alone : startComponent path = front ++ [last] := by simpa [none] using ends
    have starts : last ∈ startComponent path := by simp [alone]
    unfold startComponent at starts
    split at starts
    · obtain rfl := mem_singleton.1 starts
      exact named.elim
    · split at starts
      · obtain rfl := mem_singleton.1 starts
        exact named.elim
      · cases starts
  · rw [concat_eq_append] at whole
    rw [whole, ← append_assoc] at ends
    obtain ⟨front_eq, last_eq⟩ := append_inj' ends rfl
    exact ⟨init, by rw [whole, last_eq], front_eq.symm⟩

theorem exists_parent? {front : List Component} {last : Component}
    (ends : components path = front ++ [last]) (named : last.IsNamed) :
    ∃ above : Text, parent? path = some above ∧ startComponent above = startComponent path ∧
      components above = front := by
  obtain ⟨front', names_eq, rfl⟩ := exists_names_eq ends named
  rw [← names_body] at names_eq
  obtain ⟨init, name, whole, -, rfl, -⟩ := exists_dropTrailing_eq names_eq
  have ne : path ≠ [] := by
    rintro rfl
    simp [body, segments, isAbsolute, fields, names, isVoid] at names_eq
  have within : init <+: body path :=
    (prefix_append init [name]).trans (whole ▸ dropTrailing_initial (body path))
  have kept := (dropTrailing_initial init).trans within
  obtain ⟨start_eq, parts⟩ := components_assemble path (slashless_of_initial kept)
    fun relative => (areNames_of_initial kept ne relative).shown
  refine ⟨assemble (start path) (dropTrailing init), ?_, start_eq, ?_⟩
  · have shorter : (init ++ [name]).dropLast = init := by simp
    obtain ⟨first, rest, cons⟩ := exists_cons_of_ne_nil (by simp : init ++ [name] ≠ [])
    rw [parent?, whole, cons]
    change some (assemble (start path) (dropTrailing (first :: rest).dropLast)) = _
    rw [← cons, shorter]
  · rw [parts, names_dropTrailing]

theorem components_name (base : IsBase lead) (slashless : '/' ∉ segment)
    (shown : isVoid segment = false) :
    startComponent (lead ++ segment) = startComponent lead ∧
      components (lead ++ segment) = components lead ++ [componentOf segment] := by
  have single := fields_of_forall (beq_of_not_mem slashless)
  have relative : startComponent segment = [] := startComponent_of_head? (by rw [single]; rfl) shown
  have parts := components_lead base relative
  rwa [components_of_startComponent relative, single, names_singleton shown] at parts

theorem exists_joinSegments_eq (front : List Text) (last : Text) :
    ∃ lead : Text, IsBase lead ∧ joinSegments (front ++ [last]) = lead ++ last := by
  cases front with
  | nil => exact ⟨[], .inl rfl, by simp [joinSegments]⟩
  | cons first front =>
    refine ⟨joinSegments (first :: front) ++ ['/'], .inr (by simp), ?_⟩
    rw [joinSegments_concat (by simp)]
    simp

theorem exists_join_joinSegments (base : Text) (proper : AreNames (front ++ [last]))
    (shown : isVoid last = false) :
    ∃ lead : Text, IsBase lead ∧ join base (joinSegments (front ++ [last])) = lead ++ last ∧
      startComponent (join base (joinSegments (front ++ [last]))) = startComponent base ∧
      components lead = components base ++ names front := by
  have relative := startComponent_joinSegments proper
  obtain ⟨start_eq, parts⟩ := components_join base relative
  obtain ⟨outer, outer_base, joined, -⟩ :=
    exists_join_eq base (isAbsolute_of_startComponent relative)
  obtain ⟨within, within_base, spelled⟩ := exists_joinSegments_eq front last
  have whole : join base (joinSegments (front ++ [last])) = outer ++ within ++ last := by
    rw [joined, spelled, append_assoc]
  have lead_base := outer_base.append within_base
  refine ⟨outer ++ within, lead_base, whole, start_eq, ?_⟩
  obtain ⟨-, ends⟩ := components_name lead_base (proper.slashless last (by simp)) shown
  rw [← whole, parts, components_joinSegments proper, names_append, names_singleton shown,
    ← append_assoc] at ends
  exact (append_inj_left' ends rfl).symm

theorem exists_base_eq (ends : segments path = front ++ [last]) :
    ∃ lead : Text, IsBase lead ∧ path = lead ++ last := by
  obtain ⟨lead, base, whole⟩ := exists_joinSegments_eq front last
  rw [← ends, segments, joinSegments_fields] at whole
  split at whole
  · next absolute =>
    obtain ⟨rest, rfl⟩ := head?_eq_some_iff.1 (of_decide_eq_true absolute)
    exact ⟨['/'] ++ lead, .append (.inr rfl) base, congrArg ('/' :: ·) whole⟩
  · exact ⟨lead, base, whole⟩

theorem splitName_append (ne : stem ≠ []) (dotless : '.' ∉ extension) :
    splitName (stem ++ '.' :: extension) = (stem, some extension) := by
  have run : ∀ c ∈ extension.reverse, c != '.' := fun c member =>
    bne_iff_ne.2 fun dot => dotless (dot ▸ mem_reverse.1 member)
  have mirrored : (stem ++ '.' :: extension).reverse =
      extension.reverse ++ '.' :: stem.reverse := by
    simp
  have before : (extension.reverse ++ '.' :: stem.reverse).takeWhile (· != '.') =
      extension.reverse := by
    rw [takeWhile_append_of_pos run]
    simp
  have after : (extension.reverse ++ '.' :: stem.reverse).dropWhile (· != '.') =
      '.' :: stem.reverse := by
    rw [dropWhile_append_of_pos run]
    simp
  rw [splitName, mirrored, before, after, tail_cons, reverse_reverse, reverse_reverse]
  cases stem with
  | nil => exact absurd rfl ne
  | cons c stem => rfl

theorem eq_append_of_splitName (cut : splitName name = (stem, some extension)) :
    name = stem ++ '.' :: extension ∧ stem ≠ [] ∧ '.' ∉ extension := by
  have parts : name.reverse.takeWhile (· != '.') ++ name.reverse.dropWhile (· != '.') =
      name.reverse := takeWhile_append_dropWhile
  have stops := head?_dropWhile_not (· != '.') name.reverse
  have run : ∀ c ∈ name.reverse.takeWhile (· != '.'), c != '.' := all_eq_true.1 all_takeWhile
  unfold splitName at cut
  generalize name.reverse.takeWhile (· != '.') = taken at cut parts run
  generalize name.reverse.dropWhile (· != '.') = rest at cut parts stops
  cases rest with
  | nil => simp at cut
  | cons d rest =>
    obtain rfl : d = '.' := by simpa using stops
    have whole := congrArg reverse parts
    simp only [reverse_append, reverse_cons, reverse_reverse] at whole
    simp only [tail_cons] at cut
    cases shown : rest.reverse with
    | nil => simp [shown] at cut
    | cons e front =>
      simp only [shown, Prod.mk.injEq, Option.some.injEq] at cut
      obtain ⟨rfl, rfl⟩ := cut
      refine ⟨?_, by simp, fun dot => ?_⟩
      · rw [← whole, shown]
        simp
      · simpa using run '.' (mem_reverse.1 dot)

theorem fileName?_eq_some_iff {front : List Component} {last : Component}
    (ends : components path = front ++ [last]) :
    fileName? path = some name ↔ last = .normal name := by
  rw [fileName?, ends]
  cases last <;> simp

theorem assemble_concat (start : Text) (front : List Text) (last more : Text) :
    assemble start (front ++ [last]) ++ more = assemble start (front ++ [last ++ more]) := by
  have joined : joinSegments (front ++ [last]) ++ more =
      joinSegments (front ++ [last ++ more]) := by
    cases front with
    | nil => simp [joinSegments]
    | cons first front =>
      rw [joinSegments_concat (by simp), joinSegments_concat (by simp), append_assoc]
      rfl
  unfold assemble
  by_cases current : start = "."
  · rw [if_pos ⟨current, by simp⟩, if_pos ⟨current, by simp⟩, append_assoc, joined]
  · rw [if_neg fun both => current both.1, if_neg fun both => current both.1, append_assoc, joined]

/-- The file name with another extension. That of a name made of a dot and an extension leads to
the directory above. -/
def renamed (stem extension : Text) : Component :=
  if stem = ['.'] then .parent else .normal (stem ++ '.' :: extension)

theorem isNamed_renamed (stem extension : Text) : (renamed stem extension).IsNamed := by
  unfold renamed
  split <;> trivial

theorem isVoid_append_cons (ne : stem ≠ []) (c : Char) (more : Text) :
    isVoid (stem ++ c :: more) = false := by
  obtain ⟨d, stem, rfl⟩ := exists_cons_of_ne_nil ne
  simp [isVoid]

theorem componentOf_append_dot (other : stem ≠ ['.'] ∨ extension ≠ []) (ne : stem ≠ []) :
    componentOf (stem ++ '.' :: extension) = .normal (stem ++ '.' :: extension) := by
  refine if_neg fun parent => ?_
  obtain ⟨c, stem, rfl⟩ := exists_cons_of_ne_nil ne
  have spelled : c :: (stem ++ '.' :: extension) = ['.', '.'] := parent
  cases stem with
  | nil =>
    obtain ⟨rfl, -, rfl⟩ : c = '.' ∧ True ∧ extension = [] := by simpa using spelled
    simp at other
  | cons d stem => simp at spelled

theorem components_setExtension (base : IsBase lead) (slashless : '/' ∉ stem) (ne : stem ≠ [])
    (slashless' : '/' ∉ extension) (ne' : extension ≠ []) :
    components (setExtension (lead ++ (stem ++ ['.'])) extension) =
      components lead ++ [renamed stem extension] := by
  have shown := isVoid_append_cons ne '.' []
  obtain ⟨-, parts⟩ := components_name base (by simpa using slashless) shown
  -- A stem `.` with its dot is `..`, the directory above, which has no extension to set.
  by_cases dot : stem = ['.']
  · have above : componentOf (stem ++ ['.']) = .parent := by rw [dot]; rfl
    have nameless : fileStem? (lead ++ (stem ++ ['.'])) = none := by
      simp [fileStem?, fileName?, parts, above]
    rw [setExtension, nameless, parts, above, renamed, if_pos dot]
  · rw [componentOf_append_dot (.inl dot) ne] at parts
    have stem_eq : fileStem? (lead ++ (stem ++ ['.'])) = some stem := by
      rw [fileStem?, (fileName?_eq_some_iff parts).2 rfl, Option.map_some,
        splitName_append ne not_mem_nil]
    rw [setExtension, stem_eq, renamed, if_neg dot]
    have filled : lead ++ (stem ++ ['.']) ≠ [] := by simp
    generalize lead ++ (stem ++ ['.']) = path at parts filled
    obtain ⟨front, names_eq, lead_eq⟩ := exists_names_eq parts trivial
    rw [← names_body] at names_eq
    obtain ⟨init, name, whole, -, rfl, -⟩ := exists_dropTrailing_eq names_eq
    have within : init <+: body path :=
      (prefix_append init [name]).trans (whole ▸ dropTrailing_initial (body path))
    have slashless_name : '/' ∉ stem ++ '.' :: extension := by simp [slashless, slashless']
    have shown_name := isVoid_append_cons ne '.' extension
    have spelled : assemble (start path) ((dropTrailing (body path)).dropLast ++ [stem]) ++ "." ++
        extension = assemble (start path) (init ++ [stem ++ '.' :: extension]) := by
      have shorter : (init ++ [name]).dropLast = init := by simp
      rw [whole, shorter, assemble_concat, assemble_concat, append_assoc]
      rfl
    obtain ⟨-, result⟩ := @components_assemble path (init ++ [stem ++ '.' :: extension])
      (forall_mem_append.2 ⟨slashless_of_initial within, by simpa using slashless_name⟩)
      (fun relative => ((areNames_of_initial within filled relative).concat slashless_name
        shown_name).shown)
    change components (assemble (start path) ((dropTrailing (body path)).dropLast ++ [stem]) ++
      "." ++ extension) = _
    rw [spelled, result, names_append, names_singleton shown_name,
      componentOf_append_dot (.inr ne') ne, lead_eq, append_assoc]

theorem components_withExtension {old new : Text} (base : IsBase lead)
    (slashless : '/' ∉ stem ++ '.' :: old) (dotless : '.' ∉ old) (ne : stem ≠ [])
    (ne_old : old ≠ []) (slashless_new : '/' ∉ new) (ne_new : new ≠ []) :
    components (withExtension (lead ++ (stem ++ '.' :: old)) new) =
      components lead ++ [renamed stem new] := by
  obtain ⟨-, parts⟩ := components_name base slashless (isVoid_append_cons ne '.' old)
  rw [componentOf_append_dot (.inr ne_old) ne] at parts
  have own : extension? (lead ++ (stem ++ '.' :: old)) = some old := by
    rw [extension?, (fileName?_eq_some_iff parts).2 rfl, Option.bind_some,
      splitName_append ne dotless]
  have spelled : lead ++ (stem ++ '.' :: old) = lead ++ (stem ++ ['.']) ++ old := by simp
  have cut : (lead ++ (stem ++ ['.']) ++ old).take
      ((lead ++ (stem ++ ['.']) ++ old).length - old.length) = lead ++ (stem ++ ['.']) := by
    rw [length_append, Nat.add_sub_cancel, take_left]
  simp only [mem_append, not_or] at slashless
  rw [withExtension, own]
  simp only [Option.getD_some]
  rw [spelled, cut]
  exact components_setExtension base slashless.1 ne slashless_new ne_new

theorem names_dropWhile (segments : List Text) :
    names (segments.dropWhile isVoid) = names segments := by
  have parts : segments.takeWhile isVoid ++ segments.dropWhile isVoid = segments :=
    takeWhile_append_dropWhile
  conv => rhs; rw [← parts]
  rw [names_append, names_of_isVoid (all_eq_true.1 all_takeWhile), nil_append]

theorem isVoid_head?_dropWhile (segments : List Text) :
    ∀ first ∈ (segments.dropWhile isVoid).head?, isVoid first = false := by
  intro first starts
  have stops := head?_dropWhile_not isVoid segments
  rw [Option.mem_def.1 starts] at stops
  exact stops

theorem exists_dropComponents {segments : List Text} {taken more : List Component}
    (read : names segments = taken ++ more) :
    ∃ rest : List Text, dropComponents taken segments = some rest ∧ names rest = more ∧
      rest <:+ segments ∧ ∀ first ∈ rest.head?, isVoid first = false := by
  induction taken generalizing segments with
  | nil =>
    refine ⟨segments.dropWhile isVoid, rfl, ?_, dropWhile_suffix isVoid,
      isVoid_head?_dropWhile segments⟩
    rw [names_dropWhile, read, nil_append]
  | cons expected taken ih =>
    have shown := isVoid_head?_dropWhile segments
    have within := dropWhile_suffix (l := segments) isVoid
    rw [← names_dropWhile] at read
    rw [dropComponents]
    cases found : segments.dropWhile isVoid with
    | nil => simp [found] at read
    | cons segment after =>
      rw [found] at read shown within
      have here := names_singleton (shown segment rfl)
      rw [← singleton_append, names_append, here] at read
      obtain ⟨first, rest_read⟩ := cons.inj read
      obtain ⟨rest, dropped, names_eq, behind, starts⟩ := ih rest_read
      refine ⟨rest, ?_, names_eq, ?_, starts⟩
      · rw [← dropped]
        exact if_pos first
      · exact behind.trans ((suffix_cons segment after).trans within)

theorem exists_below? {base : Text} {more : List Component}
    (starts : startComponent path = startComponent base)
    (parts : components path = components base ++ more) :
    ∃ rest : List Text, below? base path = some (joinSegments (dropTrailing rest)) ∧
      names rest = more ∧ AreNames rest := by
  have read : names (segments path) = names (segments base) ++ more := by
    rw [components_eq, components_eq, starts, append_assoc] at parts
    exact append_cancel_left parts
  unfold below?
  -- The start that both paths share is left out before the names are compared.
  by_cases relative : startComponent base = []
  · have base_eq : components base = names (segments base) := by
      rw [components_eq, relative, nil_append]
    obtain ⟨rest, dropped, names_eq, within, shown⟩ := exists_dropComponents read
    refine ⟨rest, ?_, names_eq, fun segment member =>
      slashless_segments path segment (within.subset member), shown⟩
    simp only [starts, relative, if_true, base_eq, dropped, Option.map_some]
  · have base_eq : (components base).drop 1 = names (segments base) := by
      obtain ⟨first, single⟩ : ∃ first, startComponent base = [first] := by
        unfold startComponent at relative ⊢
        split
        · exact ⟨.root, rfl⟩
        · split
          · exact ⟨.current, rfl⟩
          · next absolute current => simp [absolute, current] at relative
      rw [components_eq, single]
      rfl
    rw [← names_body] at read
    obtain ⟨rest, dropped, names_eq, within, shown⟩ := exists_dropComponents read
    refine ⟨rest, ?_, names_eq, fun segment member => slashless_segments path segment
      ((body_suffix path).subset (within.subset member)), shown⟩
    simp only [starts, relative, if_false, if_true, base_eq, dropped, Option.map_some]

end Path

end SfcJsx
