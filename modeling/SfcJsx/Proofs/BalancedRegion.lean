import SfcJsx.Script.Call
import SfcJsx.Proofs.Identifiers
import SfcJsx.Proofs.PieceCut

/-!
A balanced region ends with its bracket, so it is the same region whatever code follows it. The same
holds of the arguments of a call.
-/

namespace SfcJsx

open List Text

variable {region s t content after : Text} {c : Char} {typeArgument : Option Text}

namespace Code

theorem endsPlain_of_isPlain (plain : ∀ c ∈ s, isPlain c) : EndsPlain s := by
  rcases eq_nil_or_concat s with rfl | ⟨init, c, rfl⟩
  · exact .inl rfl
  · rw [concat_eq_append] at plain ⊢
    have read := pieces_append_of_isPlain plain []
    rw [append_nil, pieces, append_nil, map_append] at read
    exact .inr ⟨_, c, read, plain c (by simp)⟩

theorem EndsPlain.append (left : EndsPlain s) (right : EndsPlain t) : EndsPlain (s ++ t) := by
  have parts := left.parts t
  rcases right with rfl | ⟨ps, c, read, plain⟩
  · rwa [append_nil]
  · refine .inr ⟨pieces s ++ ps, c, ?_, plain⟩
    rw [show pieces (s ++ t) = pieces s ++ pieces t from parts, read, append_assoc]

theorem isPlain_of_any {p : Char → Bool} (inClass : p c)
    (apart : ['"', '\'', '`', '/'].any p = false) : isPlain c := by
  have other := not_mem_of_any inClass apart
  simp only [mem_cons, not_mem_nil, or_false, not_or] at other
  simp [isPlain, isQuote, other]

theorem isPlain_of_isBlank (blank : isBlank c) : isPlain c := isPlain_of_any blank (by decide)

theorem isPlain_of_isIdentChar (inName : isIdentChar c) :
    isPlain c := isPlain_of_any inName (by decide)

theorem endsPlain_of_isBlank (blank : ∀ c ∈ t, isBlank c) : EndsPlain t :=
  endsPlain_of_isPlain fun c member => isPlain_of_isBlank (blank c member)

theorem endsPlain_of_isIdentChar (inName : ∀ c ∈ t, isIdentChar c) :
    EndsPlain t := endsPlain_of_isPlain fun c member => isPlain_of_isIdentChar (inName c member)

variable {opening closing : Char}

/-- Both brackets of a region are bytes of their own, and the closing one is code wherever it
stands. -/
abbrev IsBracketPair (opening closing : Char) : Prop :=
  opening.toNat < 0x80 ∧ closing.toNat < 0x80 ∧ isPlain closing

/-- A balanced region and its place: it may be followed by anything. -/
structure IsRegion (opening closing : Char) (region content : Text) : Prop where
  head : region.head? = some opening
  read : ∃ ps, pieces region = ps ++ [.code closing]
  found : ∀ after, balanced? opening closing (region ++ after) = some (content, after)

theorem IsRegion.endsPlain (pair : IsBracketPair opening closing)
    (isRegion : IsRegion opening closing region content) : EndsPlain region := by
  obtain ⟨ps, read⟩ := isRegion.read
  exact .inr ⟨ps, closing, read, pair.2.2⟩

theorem IsRegion.exists_init (isRegion : IsRegion opening closing region content) :
    ∃ init, region = init ++ [closing] := by
  obtain ⟨ps, read⟩ := isRegion.read
  rw [← flatten_pieces region, read]
  simp [Piece.text]

theorem exists_isRegion (pair : IsBracketPair opening closing)
    (found : balanced? opening closing t = some (content, after)) :
    ∃ region, t = region ++ after ∧ IsRegion opening closing region content := by
  cases t with
  | nil => simp [balanced?] at found
  | cons c rest =>
    rw [balanced?] at found
    split at found
    · next opens =>
      obtain rfl := (isDelimiter_iff_of_ascii pair.1).1 opens
      obtain ⟨⟨inside, later⟩, closes, same⟩ := Option.map_eq_some_iff.1 found
      cases same
      obtain ⟨d, delimits, read, again⟩ := closeAt_swap closes
      obtain rfl := (isDelimiter_iff_of_ascii pair.2.1).1 delimits
      rw [append_cons] at read
      have alone := pieces_flatten_left read
      have whole : c :: rest = flatten (inside ++ [.code d]) ++ flatten later := by
        rw [← flatten_append, ← read, flatten_pieces]
      have ends : EndsPlain (flatten (inside ++ [.code d])) := .inr ⟨inside, d, alone, pair.2.2⟩
      have head : (flatten (inside ++ [.code d])).head? = some c := by
        cases first : flatten inside with
        | nil => simpa [first, Piece.text, eq_comm] using congrArg head? whole
        | cons e => simpa [first, eq_comm] using congrArg head? whole
      refine ⟨_, whole, head, ⟨inside, alone⟩, fun after' => ?_⟩
      obtain ⟨tail, starts⟩ := head?_eq_some_iff.1 head
      have parts := ends.parts after'
      rw [Parts, alone, starts, cons_append] at parts
      rw [starts, cons_append, balanced?, if_pos opens, parts, ← append_cons, again]
      simp only [Option.map_some, flatten_pieces]
    · simp at found

end Code

namespace Script

open Code

/-- Arguments that are read the same whatever follows them. -/
structure IsArguments (t : Text) (typeArgument : Option Text) (content : Text) : Prop where
  endsPlain : EndsPlain t
  head : t.head?.any isIdentChar = false
  last : ∃ init, t = init ++ [')']
  read : ∀ after, readArguments (t ++ after) = .given typeArgument content after

theorem readParentheses_given {typed : Option Text}
    (read : readParentheses typeArgument t = .given typed content after) :
    ∃ region, t = region ++ after ∧ EndsPlain region ∧ region.head? = some '(' ∧
      (∃ init, region = init ++ [')']) ∧
      ∀ after', readParentheses typeArgument (region ++ after') = .given typed content after' := by
  unfold readParentheses at read
  split at read
  · split at read
    · next inner _ found =>
      obtain ⟨rfl, rfl, rfl⟩ := Arguments.given.inj read
      have pair : IsBracketPair '(' ')' := by decide
      obtain ⟨region, whole, isRegion⟩ := exists_isRegion pair found
      refine ⟨region, whole, isRegion.endsPlain pair, isRegion.head, isRegion.exists_init,
        fun after' => ?_⟩
      obtain ⟨tail, starts⟩ := head?_eq_some_iff.1 isRegion.head
      have again := isRegion.found after'
      rw [starts, cons_append] at again ⊢
      simp only [readParentheses, again]
    · simp at read
  · simp at read

theorem trimStart_blanks_append (blank : ∀ c ∈ s, isBlank c)
    (stops : t.head?.any isBlank = false) : (s ++ t).trimStart = t := by
  rw [trimStart, dropWhile_append_of_pos blank, dropWhile_of_head? stops]

theorem exists_blanks (t : Text) :
    ∃ blanks, (∀ c ∈ blanks, isBlank c) ∧ t = blanks ++ t.trimStart :=
  ⟨t.leadingBlanks, all_eq_true.1 all_takeWhile,
    (leadingBlanks_append_trimStart t).symm⟩

theorem isIdentChar_head {blanks : Text} (blank : ∀ c ∈ blanks, isBlank c)
    (head : region.head? = some c) (other : isIdentChar c = false) :
    (blanks ++ region).head?.any isIdentChar = false := by
  cases blanks with
  | nil => simp [head, other]
  | cons d blanks => simpa using isIdentChar_of_isBlank (blank d (by simp))

theorem isArguments_of_readArguments (read : readArguments t = .given typeArgument content []) :
    IsArguments t typeArgument content := by
  obtain ⟨blanks, blank, whole⟩ := exists_blanks t
  have plain := endsPlain_of_isBlank blank
  unfold readArguments at read
  split at read
  · next rest starts =>
    split at read
    · next inner after found =>
      have pair : IsBracketPair '<' '>' := by decide
      obtain ⟨types, split, isRegion⟩ := exists_isRegion pair found
      obtain ⟨gap, gapBlank, rest'⟩ := exists_blanks after
      obtain ⟨region, same, ends, head, ⟨init, last⟩, again⟩ := readParentheses_given read
      have gapPlain := endsPlain_of_isBlank gapBlank
      rw [append_nil] at same
      rw [starts, split, rest', same] at whole
      refine ⟨?_, ?_, ⟨blanks ++ (types ++ (gap ++ init)), by simp [whole, last]⟩, fun behind => ?_⟩
      · rw [whole]
        exact plain.append ((isRegion.endsPlain pair).append (gapPlain.append ends))
      · have opens : (types ++ (gap ++ region)).head? = some '<' := by simp [isRegion.head]
        rw [whole]
        exact isIdentChar_head blank opens (by decide)
      obtain ⟨tail, opens⟩ := head?_eq_some_iff.1 isRegion.head
      obtain ⟨inside, begins⟩ := head?_eq_some_iff.1 head
      have trimmed : (t ++ behind).trimStart = types ++ (gap ++ (region ++ behind)) := by
        rw [whole]
        simp only [append_assoc]
        exact trimStart_blanks_append blank (by rw [opens]; rfl)
      have trimmedGap : (gap ++ (region ++ behind)).trimStart = region ++ behind :=
        trimStart_blanks_append gapBlank (by rw [begins]; rfl)
      have typed := isRegion.found (gap ++ (region ++ behind))
      rw [opens, cons_append] at trimmed typed
      simp only [readArguments, trimmed, typed, trimmedGap, again]
    · simp at read
  · next notAngle =>
    obtain ⟨region, same, ends, head, ⟨init, last⟩, again⟩ := readParentheses_given read
    rw [append_nil] at same
    rw [same] at whole
    subst whole
    refine ⟨plain.append ends, isIdentChar_head blank head (by decide),
      ⟨blanks ++ init, by simp [last]⟩, fun after => ?_⟩
    obtain ⟨tail, begins⟩ := head?_eq_some_iff.1 head
    have trimmed : (blanks ++ region ++ after).trimStart = region ++ after := by
      rw [append_assoc]
      exact trimStart_blanks_append blank (by rw [begins]; rfl)
    rw [begins] at trimmed again
    rw [← again]
    simp only [readArguments, begins, trimmed]
    rfl

end Script

end SfcJsx
