import SfcJsx.Proofs.ReaderPlace
import SfcJsx.Proofs.TextSearch
import SfcJsx.Proofs.WrittenTemplate

/-!
A printed tag is read back: its name, and its attributes in order with their values.
-/

namespace SfcJsx.Markup.Reader

open WrittenAttribute Attribute Token

variable {a : WrittenAttribute} {gap t : Text} {k : TokenKind}

variable {r : Reader} {before rest name : Text} {attributes : List WrittenAttribute}

theorem parted_doubleQuote (s rest : Text) : Parted s ('"' :: rest) := by
  intro a _ b first
  obtain rfl : '"' = b := by simpa using first
  simp [joins, isNameChar, isPunctuation]

theorem readValue_quoted (name : Text) {value : Text} (free : value.contains '"' = false)
    (h : r.At before ('"' :: value ++ '"' :: rest)) :
    ∃ place after, r.readValue name = (some (value, place), after) ∧
      after.At (before ++ '"' :: value ++ ['"']) rest := by
  have opens : r.At before (['"'] ++ (value ++ '"' :: rest)) := h
  have reads := reads_doubleQuote (value ++ '"' :: rest)
  have kind := opens.kind reads
  have offset := opens.offset reads
  have start : r.offset + 1 = (before ++ ['"']).width := by
    rw [offset, Text.width_append]
    rfl
  have inside : r.ahead (r.offset + 1) = value ++ ['"'] ++ rest :=
    (opens.ahead_behind reads).trans (by simp)
  have found : Text.cut? ['"'] (value ++ ['"'] ++ rest) = some (value, rest) := by
    apply Text.cut?_append (by simp)
    intro occurs
    have member : '"' ∈ value := by simpa using occurs.subset (List.mem_singleton.2 rfl)
    simp [List.contains_eq_mem, member] at free
  have stop : r.offset + 1 + value.width = (before ++ ('"' :: value)).width := by
    rw [start]
    simp [Nat.add_assoc]
  have closes : (r.seek (before ++ ('"' :: value)).width).At (before ++ ('"' :: value))
      (['"'] ++ rest) := h.seek (parted_doubleQuote _ _).cut
  refine ⟨⟨r.offset + 1, r.offset + 1 + value.width⟩,
    (r.seek (r.offset + 1 + value.width)).advance, ?_, ?_⟩
  · simp only [readValue, kind, inside, found]
  · rw [stop]
    exact closes.advance (reads_doubleQuote rest)

/-- What follows an attribute: after blanks, a token other than `=`; no name character is next. -/
structure EndsAttribute (rest : Text) : Prop where
  stops : ∀ c ∈ rest.head?, isNameChar c = false
  next : ∃ gap t later k, rest = gap ++ (t ++ later) ∧ (∀ c ∈ gap, isSkipped c) ∧
    Reads k t later ∧ k ≠ .equals

theorem At.kind_ne_equals (h : r.At before rest) (ends : EndsAttribute rest) :
    r.kind ≠ .equals := by
  obtain ⟨gap, t, later, k, rfl, skipped, reads, other⟩ := ends.next
  rw [(h.skip skipped).kind reads]
  exact other

theorem reads_attribute_name (wf : a.isWellFormed)
    (stops : ∀ c ∈ rest.head?, isNameChar c = false) :
    Reads .name a.name (printValue a.value ++ rest) := by
  simp only [isWellFormed, Bool.and_eq_true, Bool.not_eq_true'] at wf
  obtain ⟨⟨⟨ne, named⟩, _⟩, _⟩ := wf
  refine reads_name (by simpa using ne) (by simpa using named) ?_
  cases value : a.value with
  | none => exact stops
  | some text => simp [printValue, isNameChar, isPunctuation]

theorem readAttribute_value (free : (a.value.any (·.contains '"')) = false)
    (ends : EndsAttribute rest) (h : r.At before (printValue a.value ++ rest)) :
    ∃ value after,
      (if r.kind = .equals then r.advance.readValue a.name else (none, r)) = (value, after) ∧
      value.map Prod.fst = a.value ∧
      after.At (before ++ printValue a.value) rest := by
  obtain ⟨name, value⟩ := a
  cases value with
  | none =>
    have bare : r.At before rest := h
    refine ⟨none, r, if_neg (bare.kind_ne_equals ends), rfl, ?_⟩
    simpa [printValue] using bare
  | some value =>
    have equals : r.At before (['='] ++ ('"' :: value ++ '"' :: rest)) := by
      simpa [printValue] using h
    have reads := reads_equals ('"' :: value ++ '"' :: rest)
    obtain ⟨place, after, found, stands⟩ :=
      readValue_quoted name (by simpa using free) (equals.advance reads)
    refine ⟨some (value, place), after, ?_, rfl, ?_⟩
    · rw [if_pos (equals.kind reads), found]
    · simpa [printValue] using stands

theorem readAttribute_print (wf : a.isWellFormed) (ends : EndsAttribute rest)
    (h : r.At before (a.name ++ (printValue a.value ++ rest))) :
    ∃ attr after, r.readAttribute false = (attr, after) ∧ attr.unplaced = a.toAttribute ∧
      after.At (before ++ (a.name ++ printValue a.value)) rest := by
  have reads := reads_attribute_name wf ends.stops
  simp only [isWellFormed, Bool.and_eq_true, Bool.not_eq_true'] at wf
  obtain ⟨⟨_, free⟩, _⟩ := wf
  obtain ⟨value, after, found, same, stands⟩ := readAttribute_value free ends (h.advance reads)
  have name := h.currentText reads
  unfold readAttribute
  dsimp only
  rw [name, found]
  cases parsed : DirectiveName.parse? a.name with
  | none =>
    refine ⟨_, after, rfl, ?_, by simpa using stands⟩
    simp [unplaced, toAttribute, parsed, ← same]
  | some directive =>
    refine ⟨_, after, rfl, ?_, by simpa using stands⟩
    simp [unplaced, toAttribute, parsed, ← same, Function.comp_def]

/-- The end of a tag: perhaps blanks, then a token at which attributes end. -/
structure EndsTag (gap t rest : Text) (k : TokenKind) : Prop where
  skipped : ∀ c ∈ gap, isSkipped c
  reads : Reads k t rest
  ends : endsTag k
  stops : ∀ c ∈ (gap ++ (t ++ rest)).head?, isNameChar c = false

theorem EndsTag.endsAttribute (h : EndsTag gap t rest k) : EndsAttribute (gap ++ (t ++ rest)) := by
  refine ⟨h.stops, gap, t, rest, k, rfl, h.skipped, h.reads, ?_⟩
  rintro rfl
  exact absurd h.ends (by decide)

theorem endsTag_tagClose (rest : Text) : EndsTag [] ['>'] rest .tagClose :=
  ⟨by simp, reads_tagClose rest, rfl, by simp [isNameChar, isPunctuation]⟩

theorem endsTag_selfClose (rest : Text) : EndsTag [' '] ['/', '>'] rest .selfClose :=
  ⟨by simp [isSkipped], reads_selfClose rest, rfl, by simp [isNameChar, isSkipped]⟩

theorem stops_printAll (attributes : List WrittenAttribute)
    (stops : ∀ c ∈ rest.head?, isNameChar c = false) :
    ∀ c ∈ (printAll attributes ++ rest).head?, isNameChar c = false := by
  cases attributes with
  | nil => exact stops
  | cons a attributes =>
    simp [printAll, print, isNameChar, isSkipped]

theorem endsAttribute_printAll (wf : attributes.all isWellFormed)
    (ends : EndsAttribute rest) : EndsAttribute (printAll attributes ++ rest) := by
  refine ⟨stops_printAll attributes ends.stops, ?_⟩
  cases attributes with
  | nil => exact ends.next
  | cons a attributes =>
    simp only [List.all_cons, Bool.and_eq_true] at wf
    have reads := reads_attribute_name wf.1 (stops_printAll attributes ends.stops)
    refine ⟨[' '], a.name, _, .name, ?_, by simp [isSkipped], reads, by decide⟩
    simp [printAll, print]

theorem readAttributes_end (literal : Bool) (ends : EndsTag gap t rest k)
    (h : r.At before (gap ++ (t ++ rest))) : r.readAttributes literal = ([], r) := by
  have stands : r.At (before ++ gap) (t ++ rest) := h.skip ends.skipped
  have visible : k ≠ .newline := by
    rintro rfl
    exact absurd ends.ends (by decide)
  have next := stands.skipNewlines ends.reads visible
  rw [readAttributes]
  simp [next, stands.kind ends.reads, ends.ends]

theorem readAttributes_printAll (wf : attributes.all isWellFormed)
    (ends : EndsTag gap t rest k) (h : r.At before (printAll attributes ++ (gap ++ (t ++ rest)))) :
    ∃ read after, r.readAttributes false = (read, after) ∧
      read.map unplaced = attributes.map toAttribute ∧
      after.At (before ++ printAll attributes ++ gap) (t ++ rest) := by
  induction attributes generalizing r before with
  | nil =>
    have bare : r.At before (gap ++ (t ++ rest)) := h
    refine ⟨[], r, readAttributes_end false ends bare, rfl, ?_⟩
    simpa [printAll] using bare.skip ends.skipped
  | cons a attributes ih =>
    simp only [List.all_cons, Bool.and_eq_true] at wf
    have follows := endsAttribute_printAll wf.2 ends.endsAttribute
    have reads := reads_attribute_name wf.1 follows.stops
    have spaced : r.At before ([' '] ++ (a.name ++ (printValue a.value ++
        (printAll attributes ++ (gap ++ (t ++ rest)))))) := by
      simpa [printAll, print] using h
    have stands := spaced.skip (by simp [isSkipped])
    have next := stands.skipNewlines reads (by decide)
    obtain ⟨attr, after, found, same, later⟩ := readAttribute_print wf.1 follows stands
    obtain ⟨read, last, foundAll, sameAll, final⟩ := ih wf.2 later
    refine ⟨attr :: read, last, ?_, by simp [same, sameAll], ?_⟩
    · rw [readAttributes]
      simp [next, stands.kind reads, endsTag, found, foundAll]
    · simpa [printAll, print] using final

theorem isAlpha_of_isTagName (named : Written.isTagName name) :
    ∃ c tail, name = c :: tail ∧ c.isAlpha ∧ tail.all isNameChar := by
  cases name with
  | nil => simp [Written.isTagName] at named
  | cons c tail => exact ⟨c, tail, rfl, by simpa [Written.isTagName] using named⟩

theorem isNameChar_of_isAlpha {c : Char} (letter : c.isAlpha) : isNameChar c := by
  by_contra other
  by_cases skipped : isSkipped c
  · simp only [isSkipped, Bool.or_eq_true, beq_iff_eq] at skipped
    rcases skipped with ((rfl | rfl) | rfl) | rfl <;> exact absurd letter (by decide)
  · rcases eq_of_not_isNameChar (by simpa using skipped) (by simpa using other) with
      rfl | rfl | rfl | rfl | rfl | rfl | rfl | rfl | rfl <;> exact absurd letter (by decide)

theorem reads_tagName (named : Written.isTagName name)
    (stops : ∀ c ∈ rest.head?, isNameChar c = false) : Reads .name name rest := by
  obtain ⟨c, tail, rfl, letter, all⟩ := isAlpha_of_isTagName named
  refine reads_name (by simp) ?_ stops
  intro d member
  rcases List.mem_cons.1 member with rfl | member
  · exact isNameChar_of_isAlpha letter
  · exact List.all_eq_true.1 all d member

theorem reads_tagOpen_name (named : Written.isTagName name) (rest : Text) :
    Reads .tagOpen ['<'] (name ++ rest) := by
  obtain ⟨c, tail, rfl, letter, _⟩ := isAlpha_of_isTagName named
  exact reads_tagOpen letter

theorem any_vPre_eq_false {read : List Attribute} (wf : attributes.all isWellFormed)
    (same : read.map Attribute.unplaced = attributes.map toAttribute) :
    (read.any fun attr => attr.directive?.any fun d => d.kind = .vPre) = false := by
  rw [List.any_eq_false]
  intro attr member
  have : attr.unplaced ∈ attributes.map toAttribute := same ▸ List.mem_map_of_mem member
  obtain ⟨a, written, equal⟩ := List.mem_map.1 this
  have harmless := List.all_eq_true.1 wf a written
  simp only [isWellFormed, Bool.and_eq_true, Bool.not_eq_true'] at harmless
  cases attr with
  | plain plain => simp [Attribute.directive?]
  | directive d =>
    cases parsed : DirectiveName.parse? a.name with
    | none => simp [toAttribute, parsed, Attribute.unplaced] at equal
    | some directive =>
      simp only [toAttribute, parsed, Attribute.unplaced,
        Attribute.directive.injEq, Directive.mk.injEq] at equal
      simpa [Attribute.directive?, ← equal.2.1, parsed] using harmless.2

theorem readOpenTag_print (named : Written.isTagName name)
    (wf : attributes.all isWellFormed) (ends : EndsTag gap t rest k)
    (h : r.At before (['<'] ++ (name ++ (printAll attributes ++ (gap ++ (t ++ rest)))))) :
    ∃ opening after, r.readOpenTag false = (opening, after) ∧ opening.name = name ∧
      opening.attributes.map unplaced = attributes.map toAttribute ∧
      opening.literal = false ∧
      after.At (before ++ '<' :: name ++ printAll attributes ++ gap)
        (t ++ rest) := by
  have opens := reads_tagOpen_name named (printAll attributes ++ (gap ++ (t ++ rest)))
  have reads := reads_tagName named (stops_printAll attributes ends.stops)
  have inside := h.advance opens
  obtain ⟨read, after, found, same, stands⟩ :=
    readAttributes_printAll wf ends (inside.advance reads)
  refine ⟨⟨r.offset, name, read, false⟩, after, ?_, rfl, same, rfl, by simpa using stands⟩
  simp [readOpenTag, found, inside.currentText reads, any_vPre_eq_false wf same]

theorem passClosingTag_print (named : Written.isTagName name)
    (h : r.At before (['<', '/'] ++ (name ++ (['>'] ++ rest)))) :
    r.kind = .closingOpen ∧ r.nextName = name ∧
      (r.passClosingTag name).At (before ++ '<' :: '/' :: name ++ ['>']) rest ∧
      (r.passClosingTag name).Reached (before ++ '<' :: '/' :: name ++ ['>']) := by
  have opens := reads_closingOpen (name ++ (['>'] ++ rest))
  have reads : Reads .name name (['>'] ++ rest) :=
    reads_tagName named (by simp [isNameChar, isPunctuation])
  have closes := reads_tagClose rest
  have kind := h.kind opens
  have atName := h.advance opens
  have atClose := atName.advance reads
  have next := h.nextName opens reads
  have passed : r.passClosingTag name = r.advance.advance.advance := by
    rw [passClosingTag, kind, next]
    simp only [decide_true, Bool.and_self, if_true]
    rw [atClose.skipNewlines closes (by decide), atClose.expect closes]
  rw [passed]
  refine ⟨kind, next, ?_, ?_⟩
  · simpa using atClose.advance closes
  · simpa using atClose.reached_advance closes

end SfcJsx.Markup.Reader
