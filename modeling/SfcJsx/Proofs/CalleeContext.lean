import SfcJsx.Proofs.ScannedWords

/-!
The function that an initial value calls, by what stands behind the value. An angle bracket behind
the name may be closed far behind, but what separates the texts on the way does not matter.
-/

namespace SfcJsx

open List Code Text

namespace Code

variable {angles : Bool} {closing : Char}

theorem closeAt_of_ne {before : Option Char} (ne : before ≠ some '=') (depth : Nat)
    (ps : List Piece) :
    closeAt angles closing (depth + 1) before ps = closeAt angles closing (depth + 1) none ps := by
  cases ps with
  | nil => rfl
  | cons p ps =>
    rw [closeAt_cons, closeAt_cons, nextDepth, nextDepth, Piece.isCloser, Piece.isCloser]
    simp only [isClosing_of_ne ne]

/-- A text that stands between others: code with no brackets, that neither goes on a word nor makes
an arrow. -/
structure IsSeparator (x : Text) : Prop where
  plain : ∀ c ∈ x, isPlain c
  flat : ∀ c ∈ x, isUnbracketed c
  starts : x.head?.all (fun c => !isIdentChar c && c != '*')
  shown : x.trimStart ≠ []
  ends : x.getLast? ≠ some '='

theorem codeAfter_map_code {x : Text} (ne : x ≠ []) (before : Option Char) :
    codeAfter before (x.map .code) = x.getLast? := by
  obtain ⟨init, c, rfl⟩ := (eq_nil_or_concat x).resolve_left ne
  rw [concat_eq_append, map_append, map_singleton, codeAfter_concat]
  simp [codeAfter]

namespace IsSeparator

variable {x y : Text}

theorem ne_nil (separates : IsSeparator x) : x ≠ [] := by
  rintro rfl
  exact separates.shown rfl

theorem closeAt_append (separates : IsSeparator x) (depth : Nat) (before : Option Char)
    (qs : List Piece) :
    (closeAt angles closing (depth + 1) before (x.map .code ++ qs)).map Prod.snd =
      (closeAt angles closing (depth + 1) none qs).map Prod.snd := by
  have level : depthAfter angles depth before (x.map .code) = some depth :=
    depthAfter_map_code separates.flat depth before
  rw [Code.closeAt_append level, codeAfter_map_code separates.ne_nil,
    closeAt_of_ne separates.ends, Option.map_map]
  rfl

theorem closeAt_swap (left : IsSeparator x) (right : IsSeparator y) (depth : Nat)
    (before : Option Char) (ps qs : List Piece) :
    (closeAt angles closing (depth + 1) before (ps ++ (x.map .code ++ qs))).map Prod.snd =
        (closeAt angles closing (depth + 1) before (ps ++ (y.map .code ++ qs))).map Prod.snd ∨
      ∃ rest, (closeAt angles closing (depth + 1) before (ps ++ (x.map .code ++ qs))).map Prod.snd =
          some (rest ++ (x.map .code ++ qs)) ∧
        (closeAt angles closing (depth + 1) before (ps ++ (y.map .code ++ qs))).map Prod.snd =
          some (rest ++ (y.map .code ++ qs)) := by
  induction ps generalizing depth before with
  | nil => exact .inl ((left.closeAt_append depth before qs).trans
      (right.closeAt_append depth before qs).symm)
  | cons p ps ih =>
    rw [cons_append, cons_append, closeAt_succ_cons, closeAt_succ_cons]
    split
    · split
      · exact .inr ⟨ps, rfl, rfl⟩
      · exact .inl rfl
    · simp only [Option.map_map, Function.comp_def]
      exact ih _ _

end IsSeparator

end Code

namespace Script.Local

def behindAngles (t : Text) : Option Char :=
  (match balanced? '<' '>' t with
    | some (_, after) => after.trimStart
    | none => t).head?

theorem callee?_eq (t : Text) : callee? t =
    if !t.leadingIdentifier.isEmpty &&
        behindAngles (trimStart (t.drop t.leadingIdentifier.length)) = some '(' then
      some t.leadingIdentifier
    else none := rfl

theorem behindAngles_of_ne {c : Char} (ne : c ≠ '<') (t : Text) :
    behindAngles (c :: t) = some c := by
  have none : balanced? '<' '>' (c :: t) = none := by
    rw [balanced?, if_neg]
    exact fun delimits => ne ((isDelimiter_iff_of_ascii (by decide)).1 delimits)
  rw [behindAngles, none]
  rfl

theorem exists_leadingIdentifier (t : Text) : ∃ rest, t = t.leadingIdentifier ++ rest ∧
    ∀ c ∈ t.leadingIdentifier, isIdentChar c := by
  cases shown : t.leadingIdentifier.isEmpty with
  | true =>
    rw [isEmpty_iff.1 shown]
    exact ⟨t, rfl, by simp⟩
  | false =>
    obtain ⟨named, rest, whole, -⟩ := exists_of_leadingIdentifier shown
    exact ⟨rest, whole, isIdentChar_of_mem named⟩

theorem behindAngles_angle (t : Text) : behindAngles ('<' :: t) =
    ((closeAt true '>' 1 (some '<') (pieces t)).map Prod.snd).elim (some '<')
      fun rest => (flatten rest).trimStart.head? := by
  have pair : IsEnclosing '<' '>' := by decide
  rw [behindAngles, balanced?_cons pair, show ('<' == '<') = true from rfl]
  cases closeAt true '>' 1 (some '<') (pieces t) <;> rfl

theorem exists_trimStart_separator {x : Text} (separates : IsSeparator x) (w : Text) :
    ∃ c rest, (x ++ w).trimStart = c :: rest ∧ c ≠ '<' ∧ c ≠ '(' := by
  obtain ⟨c, rest, shown⟩ := exists_cons_of_ne_nil separates.shown
  have member : c ∈ x := (dropWhile_sublist _).subset (by
    rw [trimStart] at shown
    rw [shown]
    exact mem_cons_self)
  have flat := separates.flat c member
  refine ⟨c, rest ++ w, ?_, ?_, ?_⟩
  · rw [trimStart_append, shown]
    rfl
  · rintro rfl
    cases flat
  · rintro rfl
    cases flat

theorem parts_separator {x : Text} (separates : IsSeparator x) {t : Text}
    (settled : IsSettled t) (w : Text) : pieces (t ++ (x ++ w)) =
      pieces t ++ (x.map .code ++ pieces w) := by
  have parts : Code.Parts t (x ++ w) := by
    have starts := separates.starts
    have plain := separates.plain
    cases x with
    | nil => exact absurd rfl separates.ne_nil
    | cons c x =>
      refine settled.parts_cons (plain c (by simp)) ?_ (x ++ w)
      rintro rfl
      cases starts
  rw [show pieces (t ++ (x ++ w)) = _ from parts, pieces_append_of_isPlain separates.plain]

section

variable {x y : Text} (left : IsSeparator x) (right : IsSeparator y)

include left right

theorem behindAngles_swap {t : Text} (settled : IsSettled t) (w : Text) :
    behindAngles (t ++ (x ++ w)).trimStart = some '(' ↔
      behindAngles (t ++ (y ++ w)).trimStart = some '(' := by
  have other {z : Text} (separates : IsSeparator z) :
      (z ++ w).trimStart.head? ≠ some '(' ∧ behindAngles (z ++ w).trimStart ≠ some '(' := by
    obtain ⟨c, rest, shown, angle, round⟩ := exists_trimStart_separator separates w
    rw [shown, behindAngles_of_ne angle]
    exact ⟨by simpa using round, by simpa using round⟩
  obtain ⟨blanks, blank, split⟩ := Script.exists_blanks t
  rw [trimStart_append t (x ++ w), trimStart_append t (y ++ w)]
  cases shown : t.trimStart with
  | nil =>
    exact iff_of_false (other left).2 (other right).2
  | cons c r =>
    rw [if_neg (cons_ne_nil c r), if_neg (cons_ne_nil c r), cons_append, cons_append]
    by_cases angle : c = '<'
    · subst angle
      have inner : IsSettled r := by
        rw [split, shown, IsSettled, pieces_append_of_isPlain fun d member => isPlain_of_isBlank
          (blank d member), pieces_cons_of_isPlain rfl] at settled
        exact fun p member => settled p (by simp [member])
      rw [behindAngles_angle, behindAngles_angle, parts_separator left inner,
        parts_separator right inner]
      rcases left.closeAt_swap right 0 (some '<') (Code.pieces r) (Code.pieces w) with
        same | ⟨rest, first, second⟩
      · rw [same]
      · -- The region is closed before the separator.
        have read (z : Text) : Code.flatten (rest ++ (z.map .code ++ Code.pieces w)) =
            Code.flatten rest ++ (z ++ w) := by
          have chars : Code.flatten (z.map .code) = z := by
            simp [Code.flatten, flatMap_map, Piece.text]
          rw [Code.flatten_append, Code.flatten_append, chars, flatten_pieces]
        rw [first, second, Option.elim_some, Option.elim_some, read, read,
          trimStart_append _ (x ++ w), trimStart_append _ (y ++ w)]
        split
        · exact iff_of_false (other left).1 (other right).1
        · next some =>
          obtain ⟨d, rest', whole⟩ := exists_cons_of_ne_nil some
          rw [whole]
          rfl
    · rw [behindAngles_of_ne angle, behindAngles_of_ne angle]

theorem callee?_swap {v : Text} (settled : IsSettled v) (w : Text) :
    callee? (v ++ (x ++ w)) = callee? (v ++ (y ++ w)) := by
  have stops {z : Text} (separates : IsSeparator z) :
      (v ++ (z ++ w)).leadingIdentifier = v.leadingIdentifier := by
    refine leadingIdentifier_append ?_ v
    have starts := separates.starts
    cases z with
    | nil => exact absurd rfl separates.ne_nil
    | cons c z =>
      simp only [head?_cons, Option.all_some, Bool.and_eq_true, Bool.not_eq_true'] at starts
      exact starts.1
  obtain ⟨rest, whole, letters⟩ := exists_leadingIdentifier v
  have behind (z : Text) : (v ++ (z ++ w)).drop v.leadingIdentifier.length = rest ++ (z ++ w) := by
    have split : v ++ (z ++ w) = v.leadingIdentifier ++ (rest ++ (z ++ w)) := by
      rw [← append_assoc v.leadingIdentifier, ← whole]
    rw [split, drop_left]
  have later : IsSettled rest := by
    rw [whole, IsSettled, pieces_append_of_isPlain
      fun c member => isPlain_of_isIdentChar (letters c member)] at settled
    exact fun p member => settled p (mem_append_right _ member)
  rw [callee?_eq, callee?_eq, stops left, stops right, behind, behind]
  simp only [behindAngles_swap left right later w]

end

end Script.Local

end SfcJsx
