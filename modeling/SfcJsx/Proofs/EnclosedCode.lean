import SfcJsx.Proofs.ListLayout

/-!
Code between two brackets. The bracket that closes a region is the one at which the depth of what
stands before it is back at zero. Main statement: a text fills the region of the brackets around it
exactly if its own brackets match, it ends before the closing one, and that one is no arrow's.
-/

namespace SfcJsx.Code

variable {angles : Bool} {opening closing c : Char} {depth after : Nat} {before : Option Char}
  {p : Piece} {ps qs : List Piece}

theorem isClosing_of_ne (ne : before ≠ some '=') (c : Char) :
    isClosing angles before c = isClosing angles none c := by
  have other : before != some '=' := by simpa using ne
  rw [isClosing, other]
  rfl

theorem depthAfter_of_ne (ne : before ≠ some '=') (depth : Nat) (ps : List Piece) :
    depthAfter angles depth before ps = depthAfter angles depth none ps := by
  cases ps with
  | nil => rfl
  | cons p ps =>
    cases p with
    | code c => rw [depthAfter, depthAfter, isClosing_of_ne ne]
    | literal | comment => rfl

theorem segments_of_ne (ne : before ≠ some '=') (separators : List Char) (depth : Nat)
    (ps : List Piece) :
    segments separators angles depth before ps = segments separators angles depth none ps := by
  cases ps with
  | nil => rfl
  | cons p ps =>
    cases p with
    | code c => rw [segments, segments, isClosing_of_ne ne]
    | literal | comment => rfl

theorem nextDepth_add (goesOn : ¬ (p.isCloser angles before ∧ depth = 0)) (more : Nat) :
    nextDepth angles (depth + more) before p = nextDepth angles depth before p + more := by
  unfold nextDepth
  split
  · omega
  · split
    · next closes =>
      have deep : depth ≠ 0 := fun top => goesOn ⟨closes, top⟩
      omega
    · rfl

theorem depthAfter_add (reached : depthAfter angles depth before ps = some after) (more : Nat) :
    depthAfter angles (depth + more) before ps = some (after + more) := by
  induction ps generalizing depth before with
  | nil =>
    cases reached
    rfl
  | cons p ps ih =>
    obtain ⟨goesOn, later⟩ := of_depthAfter_cons reached
    rw [depthAfter_cons, if_neg fun stray => goesOn ⟨stray.1, by omega⟩, nextDepth_add goesOn]
    exact ih later

theorem exists_depthAfter (reached : depthAfter angles depth before (ps ++ qs) = some after) :
    ∃ between, depthAfter angles depth before ps = some between ∧
      depthAfter angles between (codeAfter before ps) qs = some after := by
  induction ps generalizing depth before with
  | nil => exact ⟨depth, rfl, reached⟩
  | cons p ps ih =>
    obtain ⟨goesOn, later⟩ := of_depthAfter_cons reached
    rw [depthAfter_cons, if_neg goesOn, codeAfter_cons]
    exact ih later

theorem outer_inside (reached : depthAfter angles depth before ps = some after) :
    outer angles (depth + 1) before ps = [] := by
  induction ps generalizing depth before with
  | nil => rfl
  | cons p ps ih =>
    obtain ⟨goesOn, later⟩ := of_depthAfter_cons reached
    rw [outer_cons, nextDepth_add goesOn, ih later]
    rfl

theorem closeAt_succ_cons : closeAt angles closing (depth + 1) before (p :: ps) =
    if p.isCloser angles before ∧ depth = 0 then
      if p.code?.any (isDelimiter closing) then some ([], ps) else none
    else (closeAt angles closing (nextDepth angles depth before p + 1) p.code? ps).map fun found =>
      (p :: found.1, found.2) := by
  rw [closeAt_cons]
  by_cases stray : p.isCloser angles before ∧ depth = 0
  · simp [stray]
  · rw [if_neg fun ends => stray ⟨ends.1, by omega⟩, if_neg stray, nextDepth_add stray]

theorem closeAt_append (reached : depthAfter angles depth before ps = some after)
    (qs : List Piece) : closeAt angles closing (depth + 1) before (ps ++ qs) =
      (closeAt angles closing (after + 1) (codeAfter before ps) qs).map fun found =>
        (ps ++ found.1, found.2) := by
  induction ps generalizing depth before with
  | nil =>
    cases reached
    simp [codeAfter]
  | cons p ps ih =>
    obtain ⟨goesOn, later⟩ := of_depthAfter_cons reached
    rw [List.cons_append, closeAt_succ_cons, if_neg goesOn, ih later, Option.map_map,
      codeAfter_cons]
    rfl

theorem depthAfter_of_closeAt {inside after : List Piece}
    (found : closeAt angles closing (depth + 1) before ps = some (inside, after)) :
    depthAfter angles depth before inside = some 0 ∧ ∃ c, isDelimiter closing c ∧
      isClosing angles (codeAfter before inside) c ∧ ps = inside ++ .code c :: after := by
  induction ps generalizing depth before inside with
  | nil => cases found
  | cons p ps ih =>
    rw [closeAt_succ_cons] at found
    split at found
    · next stray =>
      split at found
      · next delimits =>
        cases found
        obtain ⟨closes, rfl⟩ := stray
        cases p with
        | code c => exact ⟨rfl, c, delimits, (Bool.and_eq_true_iff.1 closes).2, rfl⟩
        | literal | comment => cases delimits
      · cases found
    · next goesOn =>
      obtain ⟨⟨rest, behind⟩, here, same⟩ := Option.map_eq_some_iff.1 found
      cases same
      obtain ⟨reached, c, delimits, closes, rfl⟩ := ih here
      rw [depthAfter_cons, if_neg goesOn, codeAfter_cons]
      exact ⟨reached, c, delimits, closes, rfl⟩

/-- Two brackets that enclose text, of those that count where the first one opens a region. -/
abbrev IsEnclosing (opening closing : Char) : Prop :=
  IsBracketPair opening closing ∧ isPlain opening ∧
    isOpening (opening == '<') opening

/-- A text that fills the region of the brackets around it. -/
structure IsEnclosed (opening closing : Char) (t : Text) : Prop where
  level : IsLevel (opening == '<') t
  ends : Parts t [closing]
  closes : isClosing (opening == '<') (codeAfter none (pieces t)) closing

theorem codeAfter_concat (before : Option Char) (ps : List Piece) (p : Piece) :
    codeAfter before (ps ++ [p]) = codeAfter none [p] := by
  induction ps generalizing before with
  | nil => cases p <;> rfl
  | cons q ps ih => cases q <;> exact ih _

theorem ne_equals (pair : IsEnclosing opening closing) :
    (some opening : Option Char) ≠ some '=' := by
  rintro ⟨⟩
  exact absurd pair.2.2 (by decide)

theorem isClosing_codeAfter (ne : before ≠ some '=') (ps : List Piece) (c : Char) :
    isClosing angles (codeAfter before ps) c = isClosing angles (codeAfter none ps) c := by
  rcases List.eq_nil_or_concat ps with rfl | ⟨init, p, rfl⟩
  · exact isClosing_of_ne ne c
  · rw [List.concat_eq_append, codeAfter_concat, codeAfter_concat]

theorem balanced?_cons (pair : IsEnclosing opening closing) (t : Text) :
    balanced? opening closing (opening :: t) =
      (closeAt (opening == '<') closing 1 (some opening) (pieces t)).map fun found =>
        (flatten found.1, flatten found.2) := by
  have delimits : isDelimiter opening opening := (isDelimiter_iff_of_ascii pair.1.1).2 rfl
  rw [balanced?, if_pos delimits, pieces_cons_of_isPlain pair.2.1, closeAt, if_pos pair.2.2,
    Option.map_map]
  rfl

theorem pieces_enclosed (plain : isPlain opening) (closer : isPlain closing)
    {t : Text} (ends : Parts t [closing]) (u : Text) : pieces (opening :: (t ++ closing :: u)) =
      .code opening :: (pieces t ++ .code closing :: pieces u) := by
  have alone : pieces (t ++ [closing]) = pieces t ++ [.code closing] := by
    have single : pieces [closing] = [.code closing] := by
      rw [pieces_cons_of_isPlain closer, pieces]
    rw [show pieces (t ++ [closing]) = pieces t ++ pieces [closing] from ends, single]
  have parts : Parts (t ++ [closing]) u := EndsPlain.parts (.inr ⟨_, _, alone, closer⟩) u
  rw [Parts, alone, List.append_assoc, List.append_assoc] at parts
  rw [pieces_cons_of_isPlain plain]
  exact congrArg _ parts

namespace IsEnclosed

variable {t : Text}

theorem balanced? (h : IsEnclosed opening closing t) (pair : IsEnclosing opening closing)
    (u : Text) : Code.balanced? opening closing (opening :: (t ++ closing :: u)) = some (t, u) := by
  have whole := pieces_enclosed pair.2.1 pair.1.2.2 h.ends u
  rw [pieces_cons_of_isPlain pair.2.1] at whole
  have level : depthAfter (opening == '<') 0 (some opening) (pieces t) = some 0 := by
    rw [depthAfter_of_ne (ne_equals pair)]
    exact h.level
  have closes :
      isClosing (opening == '<') (codeAfter (some opening) (pieces t)) closing := by
    rw [isClosing_codeAfter (ne_equals pair)]
    exact h.closes
  have opens : ¬ isOpening (opening == '<') closing := by
    intro opens
    simp only [isClosing, isOpening, Bool.or_eq_true, beq_iff_eq, Bool.and_eq_true] at closes opens
    rcases closes with ((rfl | rfl) | rfl) | ⟨⟨-, rfl⟩, -⟩ <;> simp at opens
  have delimits : isDelimiter closing closing := (isDelimiter_iff_of_ascii pair.1.2.1).2 rfl
  rw [balanced?_cons pair, (List.cons.inj whole).2, closeAt_append level, closeAt, if_neg opens,
    if_pos closes]
  simp [delimits]

end IsEnclosed

theorem eq_of_balanced? (pair : IsEnclosing opening closing) {t content after : Text}
    (found : balanced? opening closing t = some (content, after)) :
    t = opening :: (content ++ closing :: after) := by
  cases t with
  | nil => simp [balanced?] at found
  | cons c rest =>
    have opens : isDelimiter opening c := by
      rw [balanced?] at found
      split at found
      · assumption
      · cases found
    obtain rfl := (isDelimiter_iff_of_ascii pair.1.1).1 opens
    rw [balanced?_cons pair] at found
    obtain ⟨⟨inside, behind⟩, close, same⟩ := Option.map_eq_some_iff.1 found
    cases same
    obtain ⟨-, d, delimits, -, whole⟩ := depthAfter_of_closeAt close
    obtain rfl := (isDelimiter_iff_of_ascii pair.1.2.1).1 delimits
    rw [← flatten_pieces rest, whole]
    simp [Piece.text]

theorem balanced?_enclosed_iff (pair : IsEnclosing opening closing) {t : Text} :
    balanced? opening closing (opening :: (t ++ [closing])) = some (t, []) ↔
      IsEnclosed opening closing t := by
  refine ⟨fun found => ?_, fun h => h.balanced? pair []⟩
  rw [balanced?_cons pair] at found
  obtain ⟨⟨inside, after⟩, close, same⟩ := Option.map_eq_some_iff.1 found
  obtain ⟨rfl, none⟩ := Prod.mk.inj same
  obtain ⟨level, c, delimits, closes, whole⟩ := depthAfter_of_closeAt close
  obtain rfl := (isDelimiter_iff_of_ascii pair.1.2.1).1 delimits
  have read := pieces_flatten_left whole
  have last : after = [] := by
    have behind : pieces (flatten after) = after :=
      pieces_flatten_right (whole.trans (List.append_cons inside (.code c) after))
    rw [← behind, none, pieces]
  rw [last] at whole
  have ne := ne_equals pair
  refine ⟨?_, ?_, ?_⟩
  · rw [IsLevel, read, ← depthAfter_of_ne ne]
    exact level
  · rw [Parts, whole, read, pieces_cons_of_isPlain pair.1.2.2, pieces]
  · rw [read, ← isClosing_codeAfter ne]
    exact closes

theorem parts_of_code {s : Text} {init : List Piece} {e : Char}
    (read : pieces s = init ++ [.code e]) (plain : isPlain c) (noStar : c ≠ '*') (u : Text) :
    Parts s (c :: u) := by
  have other : isQuote e = false := by
    obtain ⟨d, rest, after, -, first, -⟩ := lead_of_pieces_eq_cons (pieces_flatten_right read)
    exact isQuote_of_lead first
  have noSlash : c ≠ '/' := by
    rintro rfl
    cases plain
  have here : pieces (e :: c :: u) = .code e :: pieces (c :: u) := by
    rw [pieces]
    simp [lead, other, noStar, noSlash]
  have swapped : pieces (flatten init ++ e :: c :: u) = init ++ pieces (e :: c :: u) :=
    pieces_swap read fun _ same => same
  have whole : s = flatten init ++ [e] := by
    rw [← flatten_pieces s, read]
    simp [Piece.text]
  rw [Parts, read, whole, List.append_assoc, List.append_assoc]
  exact swapped.trans (congrArg _ here)

theorem Parts.before_plain {s rest : Text} {d : Char} (parts : Parts s (d :: rest))
    (goes : d ≠ '\n') (plain : isPlain c) (noStar : c ≠ '*') (u : Text) : Parts s (c :: u) := by
  by_cases slash : (marked s).getLast? = some ('/', true)
  · obtain ⟨init, split⟩ := List.getLast?_eq_some_iff.1 slash
    obtain ⟨s', u', -, -, none, read⟩ := exists_of_marked_eq split
    obtain rfl : u' = [] := by simpa [none] using (map_fst_marked u').symm
    rw [pieces] at read
    exact parts_of_code read plain noStar u
  · exact parts.swap goes slash (c :: u)

theorem IsLevel.append {s t : Text} (left : IsLevel angles s) (parts : Parts s t)
    (right : IsLevel angles t) : IsLevel angles (s ++ t) ∧
      outer angles 0 none (pieces (s ++ t)) =
        outer angles 0 none (pieces s) ++ outer angles 0 none (pieces t) := by
  obtain ⟨reached, same⟩ := depthAfter_before right (codeAfter none (pieces s))
  rw [IsLevel, show pieces (s ++ t) = pieces s ++ pieces t from parts, depthAfter_append left,
    outer_append left, same]
  exact ⟨reached, rfl⟩

theorem isLevel_enclosed (opens : isOpening angles opening)
    (closer : isOpening angles closing = false)
    (closes : ∀ before, isClosing angles before closing)
    (plain : isPlain opening ∧ isPlain closing ∧ opening ≠ '=') {t : Text}
    (level : IsLevel angles t) (ends : Parts t [closing]) :
    IsLevel angles (opening :: (t ++ [closing])) ∧
      outer angles 0 none (pieces (opening :: (t ++ [closing]))) = [] := by
  have inside : depthAfter angles 0 (some opening) (pieces t) = some 0 := by
    rw [depthAfter_of_ne (by simpa using plain.2.2)]
    exact level
  have deeper : depthAfter angles 1 (some opening) (pieces t) = some 1 := depthAfter_add inside 1
  have read : pieces (opening :: (t ++ [closing])) =
      .code opening :: (pieces t ++ [.code closing]) := by
    rw [pieces_enclosed plain.1 plain.2.1 ends, pieces]
  constructor
  · rw [IsLevel, read, depthAfter, if_pos opens, depthAfter_append deeper, depthAfter, closer,
      closes]
    rfl
  · rw [read, outer, if_pos opens, outer_append deeper, outer_inside inside, outer, closer, closes]
    rfl

theorem isLevel_parentheses {t : Text} (level : IsLevel angles t) (ends : Parts t [')']) :
    IsLevel angles ('(' :: (t ++ [')'])) ∧
      outer angles 0 none (pieces ('(' :: (t ++ [')']))) = [] :=
  isLevel_enclosed rfl (by cases angles <;> rfl) (fun _ => rfl) ⟨rfl, rfl, by decide⟩ level ends

theorem segments_of_not_mem (whole : c ∉ outer angles depth before ps) :
    segments [c] angles depth before ps = [flatten ps] := by
  refine segments_eq_singleton fun d member listed => whole ?_
  rwa [List.mem_singleton.1 listed] at member

theorem segments_separated (ascii : c.toNat < 0x80) (plain : isPlain c)
    (flat : isUnbracketed c) {t : Text} (level : IsLevel angles t)
    (whole : c ∉ outer angles 0 none (pieces t)) {u : Text} (parts : Parts t (c :: u))
    (before : Option Char) : segments [c] angles 0 before (pieces (t ++ c :: u)) =
      t :: segments [c] angles 0 (some c) (pieces u) := by
  obtain ⟨reached, same⟩ := depthAfter_before level before
  obtain ⟨opens, closes⟩ := isUnbracketed_spec flat angles (codeAfter before (pieces t))
  have single : segments [c] angles 0 before (pieces t) = [t] := by
    rw [segments_of_not_mem (by rwa [same]), flatten_pieces]
  rw [show pieces (t ++ c :: u) = pieces t ++ pieces (c :: u) from parts, segments_append reached,
    single, pieces_cons_of_isPlain plain, segments, opens, closes, if_neg Bool.false_ne_true,
    if_neg Bool.false_ne_true, if_pos ⟨rfl, ascii, by simp⟩, glue, segments.extend, List.append_nil]

end SfcJsx.Code
