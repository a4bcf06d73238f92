import SfcJsx.Proofs.SeparatedCode

/-!
What splitting does to a text, whatever its brackets and literals are. Main statement: the parts are
cut out of the text in order, nothing but blanks and separators lies between them, and splitting a
part changes nothing. A part is read from its own start, but there no bracket is open, and a bracket
that closes nothing does not count.
-/

namespace SfcJsx.Code

open List Text Piece

variable {separators : List Char} {angles : Bool} {depth : Nat} {before : Option Char} {c : Char}
  {p : Piece} {ps qs init : List Piece} {t : Text} {i : Nat}

/-- A separator that stands outside of brackets. -/
def IsCut (separators : List Char) (angles : Bool) (depth : Nat) (before : Option Char)
    (p : Piece) : Prop :=
  p.isOuter angles depth before ∧ p.code?.any fun c => decide (c.toNat < 0x80 ∧ c ∈ separators)

/-- Nothing outside of brackets separates the pieces. -/
def IsWhole (separators : List Char) (angles : Bool) (depth : Nat) (before : Option Char)
    (ps : List Piece) : Prop :=
  segments separators angles depth before ps = [flatten ps]

theorem extend_eq_singleton_iff {s x : Text} {ts : List Text} (ne : ts ≠ []) :
    segments.extend s ts = [s ++ x] ↔ ts = [x] := by
  obtain ⟨first, rest, rfl⟩ := exists_cons_of_ne_nil ne
  simp [segments.extend]

theorem isWhole_cons_iff : IsWhole separators angles depth before (p :: ps) ↔
    ¬ IsCut separators angles depth before p ∧
      IsWhole separators angles (nextDepth angles depth before p) p.code? ps := by
  rw [IsWhole, segments_cons, IsCut]
  split
  · next cut => exact iff_of_false (by simp [segments_ne_nil]) fun whole => whole.1 cut
  · next goesOn =>
    rw [flatten_cons, extend_eq_singleton_iff (segments_ne_nil _ _ _), IsWhole]
    exact (and_iff_right goesOn).symm

theorem isWhole_append_iff : IsWhole separators angles depth before (ps ++ qs) ↔
    IsWhole separators angles depth before ps ∧ IsWhole separators angles
      (depthBehind angles depth before ps) (codeAfter before ps) qs := by
  induction ps generalizing depth before with
  | nil => simp [IsWhole, segments, depthBehind, codeAfter]
  | cons p ps ih =>
    rw [cons_append, isWhole_cons_iff, isWhole_cons_iff, ih, codeAfter_cons, depthBehind, and_assoc]

theorem isWhole_of_forall_code? (other : ∀ p ∈ ps, p.code? = none) (depth : Nat)
    (before : Option Char) : IsWhole separators angles depth before ps := by
  induction ps generalizing depth before with
  | nil => rfl
  | cons p ps ih =>
    obtain ⟨here, later⟩ := forall_mem_cons.1 other
    exact isWhole_cons_iff.2 ⟨fun cut => by simp [IsCut, here] at cut, ih later _ _⟩

theorem isClosing_of_before (closes : isClosing angles before c) : isClosing angles none c := by
  by_cases arrow : before = some '='
  · subst arrow
    simp_all [isClosing]
  · rwa [← isClosing_of_ne arrow]

theorem IsWhole.of_before (whole : IsWhole separators angles 0 before ps) :
    IsWhole separators angles 0 none ps := by
  cases ps with
  | nil => rfl
  | cons p ps =>
    obtain ⟨keeps, later⟩ := isWhole_cons_iff.1 whole
    have level : nextDepth angles 0 none p = nextDepth angles 0 before p := by
      simp only [nextDepth]
      split <;> simp
    refine isWhole_cons_iff.2 ⟨fun cut => keeps ⟨?_, cut.2⟩, level ▸ later⟩
    have outer := cut.1
    cases p with
    | literal | comment => cases outer
    | code c =>
      simp only [isOuter, code?, Option.any_some, Bool.and_eq_true, Bool.not_eq_true'] at outer ⊢
      refine ⟨rfl, outer.2.1, Bool.eq_false_iff.2 fun closes => ?_⟩
      rw [isClosing_of_before closes] at outer
      cases outer.2.2

theorem isWhole_trim {s : Text} (whole : IsWhole separators angles 0 before (pieces s)) :
    IsWhole separators angles 0 none (pieces s.trim) := by
  obtain ⟨lead, tail, blankLead, blankTail, split⟩ := exists_trim s
  obtain ⟨init, ps, qs, x, read, longer, other, -⟩ := exists_pieces_blanks blankTail s.trim
  have front : pieces s = lead.map .code ++ pieces (s.trim ++ tail) := by
    conv => lhs; rw [split, append_assoc]
    exact pieces_append_of_isPlain (fun c member => isPlain_of_isBlank (blankLead c member)) _
  have flat : depthBehind angles 0 before (lead.map .code) = 0 := depthBehind_of_depthAfter
    (depthAfter_map_code (fun c member => isUnbracketed_of_isBlank (blankLead c member)) 0 before)
  rw [front, isWhole_append_iff, flat, longer, isWhole_append_iff] at whole
  obtain ⟨left, -⟩ := forall_mem_append.1 other
  rw [read]
  exact isWhole_append_iff.2 ⟨whole.2.1.of_before, isWhole_of_forall_code? left _ _⟩

theorem splitTop_of_isWhole (trimmed : t.IsTrimmed)
    (whole : IsWhole separators angles 0 none (pieces t)) : splitTop separators angles t = [t] := by
  rw [splitTop, show segments _ _ _ _ _ = _ from whole, flatten_pieces]
  simp [trimmed.trim_self, trimmed.ne]

theorem IsCut.level (cut : IsCut separators angles depth before (.code c)) :
    depth = 0 ∧ nextDepth angles depth before (.code c) = 0 := by
  obtain ⟨level, outer⟩ := Bool.and_eq_true_iff.1 cut.1
  simp only [code?, Option.any_some, Bool.and_eq_true, Bool.not_eq_true', beq_iff_eq] at outer level
  simp [nextDepth, code?, outer, level]

theorem segments_cases (depth : Nat) (before : Option Char) (ps : List Piece) :
    IsWhole separators angles depth before ps ∨ ∃ init c rest, ps = init ++ .code c :: rest ∧
      IsWhole separators angles depth before init ∧
      IsCut separators angles (depthBehind angles depth before init) (codeAfter before init)
        (.code c) ∧
      segments separators angles depth before ps =
        flatten init :: segments separators angles 0 (some c) rest := by
  induction ps generalizing depth before with
  | nil => exact .inl rfl
  | cons p ps ih =>
    by_cases cut : IsCut separators angles depth before p
    · cases p with
      | literal | comment => cases cut.2
      | code c =>
        refine .inr ⟨[], c, ps, rfl, rfl, cut, ?_⟩
        obtain ⟨rfl, next⟩ := cut.level
        rw [segments_cons, if_pos (show _ ∧ _ from cut), next]
        rfl
    · rcases ih (nextDepth angles depth before p) p.code? with whole |
        ⟨init, c, rest, rfl, whole, here, read⟩
      · exact .inl (isWhole_cons_iff.2 ⟨cut, whole⟩)
      · refine .inr ⟨p :: init, c, rest, rfl, isWhole_cons_iff.2 ⟨cut, whole⟩, ?_, ?_⟩
        · rwa [depthBehind, codeAfter_cons]
        · rw [segments_cons, if_neg (show ¬ (_ ∧ _) from cut), read]
          rfl

/-- The character at an index is a separator, in code and outside of all brackets. -/
def SeparatesAt (separators : List Char) (angles : Bool) (t : Text) (i : Nat) : Prop :=
  ∃ init c rest, pieces t = init ++ .code c :: rest ∧ (flatten init).length = i ∧
    IsCut separators angles (depthBehind angles 0 none init) (codeAfter none init) (.code c)

/-- A part of a text, as the index at which it starts and what it says, has a character. -/
def Covers (place : Nat × Text) (i : Nat) : Prop := place.1 ≤ i ∧ i < place.1 + place.2.length

/-- Pieces between two separators. -/
def IsSegment (separators : List Char) (angles : Bool) (t : Text) (place : Nat × Text) : Prop :=
  ∃ front ps back, pieces t = front ++ (ps ++ back) ∧ (flatten front).length = place.1 ∧
    flatten ps = place.2 ∧ depthBehind angles 0 none front = 0 ∧
      IsWhole separators angles 0 (codeAfter none front) ps

/-- Texts with one character between each two of them. -/
def layOut (start : Nat) : List Text → List (Nat × Text)
  | [] => []
  | s :: rest => (start, s) :: layOut (start + s.length + 1) rest

theorem map_snd_layOut (start : Nat) (ss : List Text) : (layOut start ss).map Prod.snd = ss := by
  induction ss generalizing start with
  | nil => rfl
  | cons s ss ih => rw [layOut, map_cons, ih]

theorem pairwise_layOut (start : Nat) (ss : List Text) :
    (∀ place ∈ layOut start ss, start ≤ place.1) ∧
      (layOut start ss).Pairwise fun p q => p.1 + p.2.length ≤ q.1 := by
  induction ss generalizing start with
  | nil => exact ⟨by simp [layOut], .nil⟩
  | cons s ss ih =>
    obtain ⟨behind, sorted⟩ := ih (start + s.length + 1)
    refine ⟨forall_mem_cons.2 ⟨Nat.le_refl _, fun place member => ?_⟩,
      pairwise_cons.2 ⟨fun place member => Nat.le_of_succ_le (behind place member), sorted⟩⟩
    have := behind place member
    omega

theorem isSegment_layOut (done ps : List Piece) (read : pieces t = done ++ ps)
    (level : depthBehind angles 0 none done = 0) :
    let segments := segments separators angles 0 (codeAfter none done) ps
    (∀ place ∈ layOut (flatten done).length segments, IsSegment separators angles t place) ∧
    ∀ i, (flatten done).length ≤ i → i < t.length → SeparatesAt separators angles t i ∨
      ∃ place ∈ layOut (flatten done).length segments, Covers place i := by
  intro segments
  have whole := congrArg (fun ps => (flatten ps).length) read
  simp only [flatten_pieces, flatten_append, length_append] at whole
  rcases segments_cases 0 (codeAfter none done) ps with
    single | ⟨init, c, rest, rfl, single, cut, cuts⟩
  · rw [show segments = _ from single, layOut, layOut]
    refine ⟨by simpa using ⟨done, ps, [], by simpa using read, rfl, rfl, level, single⟩, ?_⟩
    exact fun i from_ below => .inr ⟨_, mem_cons_self, from_, by simp only; omega⟩
  · have next : (flatten (done ++ init ++ [.code c])).length =
        (flatten done).length + (flatten init).length + 1 := by simp [text, Nat.add_assoc]
    have here := cut
    rw [← level, ← depthBehind_append_codeAfter, ← codeAfter_append] at here
    have behind : codeAfter none (done ++ init ++ [.code c]) = some c := by
      rw [codeAfter_append]
      rfl
    have later := isSegment_layOut (done ++ init ++ [.code c]) rest (by simpa using read)
      (by rw [depthBehind_append_codeAfter]; exact here.level.2)
    rw [next, behind] at later
    rw [show segments = _ from cuts, layOut]
    refine ⟨forall_mem_cons.2 ⟨⟨done, init, _, read, rfl, rfl, level, single⟩, later.1⟩, ?_⟩
    intro i from_ below
    rcases Nat.lt_trichotomy i ((flatten done).length + (flatten init).length) with
      inside | rfl | after
    · exact .inr ⟨_, mem_cons_self, from_, inside⟩
    · exact .inl ⟨done ++ init, c, rest, by simpa using read, by simp, here⟩
    · refine (later.2 i (by omega) below).imp_right ?_
      rintro ⟨place, member, covers⟩
      exact ⟨place, mem_cons_of_mem _ member, covers⟩
termination_by ps.length

/-- A segment without the blanks around it. -/
def trimPlace (place : Nat × Text) : Nat × Text :=
  (place.1 + place.2.leadingBlanks.length, place.2.trim)

theorem IsSegment.trim {place : Nat × Text} (h : IsSegment separators angles t place) :
    (trimPlace place).2 <+: t.drop (trimPlace place).1 ∧
    ((trimPlace place).2 ≠ [] →
      splitTop separators angles (trimPlace place).2 = [(trimPlace place).2]) ∧
    ∀ i c, t[i]? = some c → Covers place i → isBlank c ∨ Covers (trimPlace place) i := by
  obtain ⟨front, ps, back, read, start, text, level, single⟩ := h
  obtain ⟨tail, blank, split⟩ := exists_trailing place.2
  have alone : pieces place.2 = ps := by
    rw [← text]
    exact pieces_flatten_left (pieces_flatten_right read)
  have whole : t = flatten front ++ (place.2 ++ flatten back) := by
    rw [← flatten_pieces t, read, flatten_append, flatten_append, text]
  refine ⟨?_, fun ne => ?_, fun i c char covers => ?_⟩
  · rw [whole, split, trimPlace, ← start]
    simp
  · rw [← alone] at single
    exact splitTop_of_isWhole (isTrimmed_trim ne) (isWhole_trim single)
  · obtain ⟨from_, below⟩ := covers
    have inside : place.2[i - place.1]? = some c := by
      rw [whole, getElem?_append_right (by omega), start, getElem?_append_left (by omega)] at char
      exact char
    rw [split] at inside
    by_cases early : i - place.1 < place.2.leadingBlanks.length
    · rw [getElem?_append_left early] at inside
      exact .inl (all_eq_true.1 all_takeWhile c (mem_of_getElem? inside))
    rw [getElem?_append_right (by omega)] at inside
    by_cases shown : i - place.1 - place.2.leadingBlanks.length < place.2.trim.length
    · exact .inr ⟨by simp only [trimPlace]; omega, by simp only [trimPlace]; omega⟩
    · rw [getElem?_append_right (by omega)] at inside
      exact .inl (blank c (mem_of_getElem? inside))

theorem covers_of_trimPlace {place : Nat × Text} (covers : Covers (trimPlace place) i) :
    Covers place i := by
  obtain ⟨tail, -, split⟩ := exists_trailing place.2
  have whole := congrArg length split
  obtain ⟨start, stop⟩ := covers
  simp only [trimPlace, length_append] at start stop whole
  exact ⟨by omega, by omega⟩

theorem IsSegment.not_separatesAt {place : Nat × Text} (h : IsSegment separators angles t place)
    (covers : Covers place i) : ¬ SeparatesAt separators angles t i := by
  obtain ⟨front, ps, back, read, start, text, level, single⟩ := h
  rintro ⟨init, c, rest, read', rfl, cut⟩
  obtain ⟨from_, below⟩ := covers
  rw [← start] at from_ below
  rw [← text] at below
  obtain ⟨x, rfl, later⟩ : ∃ x, init = front ++ x ∧ ps ++ back = x ++ .code c :: rest := by
    rcases append_eq_append_iff.1 (read.symm.trans read') with ⟨x, rfl, later⟩ | ⟨x, rfl, later⟩
    · exact ⟨x, rfl, later⟩
    cases x with
    | nil => exact ⟨[], by simp, by simpa using later.symm⟩
    | cons p x =>
      cases later
      simp only [flatten_append, flatten_cons, Piece.text, length_append, length_cons] at from_
      omega
  rw [depthBehind_append_codeAfter, codeAfter_append, level] at cut
  rcases append_eq_append_iff.1 later with ⟨y, rfl, -⟩ | ⟨y, rfl, more⟩
  · rw [flatten_append, length_append, flatten_append, length_append] at below
    omega
  cases y with
  | nil => simp at below
  | cons p y =>
    cases more
    exact (isWhole_cons_iff.1 (isWhole_append_iff.1 single).2).1 cut

/-- Splitting cuts a text into trimmed parts in order at disjoint places. What lies outside of the
parts is blank or a separator in code outside of all brackets, no part has such a separator, and a
part that is split again stays as it is. -/
theorem splitTop_partitions (separators : List Char) (angles : Bool) (t : Text) :
    ∃ places : List (Nat × Text), places.map Prod.snd = splitTop separators angles t ∧
      (∀ place ∈ places, place.2.IsTrimmed ∧ place.2 <+: t.drop place.1) ∧
      places.Pairwise (fun p q => p.1 + p.2.length ≤ q.1) ∧
      (∀ i c, t[i]? = some c → isBlank c ∨ SeparatesAt separators angles t i ∨
        ∃ place ∈ places, Covers place i) ∧
      (∀ i, SeparatesAt separators angles t i → ∀ place ∈ places, ¬ Covers place i) ∧
      ∀ part ∈ splitTop separators angles t, splitTop separators angles part = [part] := by
  obtain ⟨inside, covered⟩ := @isSegment_layOut separators angles t [] (pieces t) rfl rfl
  obtain ⟨-, sorted⟩ := pairwise_layOut 0 (segments separators angles 0 none (pieces t))
  have parts : (((layOut 0 (segments separators angles 0 none (pieces t))).map trimPlace).filter
      (!·.2.isEmpty)).map Prod.snd = splitTop separators angles t := by
    conv_rhs => rw [splitTop, ← map_snd_layOut 0 (segments separators angles 0 none (pieces t))]
    simp only [filter_map, map_map]
    rfl
  have listed {place : Nat × Text} : place ∈ ((layOut 0 (segments separators angles 0 none
      (pieces t))).map trimPlace).filter (!·.2.isEmpty) ↔ place.2 ≠ [] ∧
        ∃ raw ∈ layOut 0 (segments separators angles 0 none (pieces t)), trimPlace raw = place := by
    simp [and_comm]
  refine ⟨_, parts, fun place member => ?_, ?_, fun i c char => ?_, fun i cut place member => ?_,
    fun part member => ?_⟩
  · obtain ⟨ne, raw, known, rfl⟩ := listed.1 member
    exact ⟨isTrimmed_trim ne, (inside raw known).trim.1⟩
  · refine List.Pairwise.filter _ (pairwise_map.2 (sorted.imp fun {p q} apart => ?_))
    obtain ⟨tail, -, split⟩ := exists_trailing p.2
    have whole := congrArg length split
    simp only [trimPlace, length_append] at whole ⊢
    omega
  · rcases covered i (Nat.zero_le i) (List.getElem?_eq_some_iff.1 char).1 with
      cut | ⟨raw, member, covers⟩
    · exact .inr (.inl cut)
    refine ((inside raw member).trim.2.2 i c char covers).imp_right fun covers => .inr ?_
    refine ⟨_, listed.2 ⟨fun none => ?_, raw, member, rfl⟩, covers⟩
    have := Nat.lt_of_le_of_lt covers.1 covers.2
    simp [none] at this
  · obtain ⟨ne, raw, known, rfl⟩ := listed.1 member
    exact fun covers => (inside raw known).not_separatesAt (covers_of_trimPlace covers) cut
  · rw [← parts, mem_map] at member
    obtain ⟨place, member, rfl⟩ := member
    obtain ⟨ne, raw, known, rfl⟩ := listed.1 member
    exact (inside raw known).trim.2.1 ne

/-- A stray bracket in one part, a literal without an end in the other. -/
theorem splitTop_partitions_unended :
    splitTop [','] true "a) =>, `b,c" = [("a) =>" : Text), "`b,c"] ∧
      splitTop [','] true "`b,c" = [("`b,c" : Text)] := by
  have parts : splitTop [','] true "a) =>, `b,c" = [("a) =>" : Text), "`b,c"] := by decide +kernel
  obtain ⟨-, -, -, -, -, -, again⟩ := splitTop_partitions [','] true "a) =>, `b,c"
  exact ⟨parts, again _ (by rw [parts]; simp)⟩

end SfcJsx.Code
