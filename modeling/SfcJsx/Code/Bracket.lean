import SfcJsx.Code.Piece

/-!
Matching brackets in code. All kinds of brackets nest in one count; angle brackets count only where
asked for, and the `>` of an arrow never does. The two delimiters of a region are single bytes: of
their code points only the low byte counts.
-/

namespace SfcJsx.Code

open List

def isOpening (angles : Bool) (c : Char) : Bool :=
  c == '(' || c == '[' || c == '{' || (angles && c == '<')

def isClosing (angles : Bool) (before : Option Char) (c : Char) : Bool :=
  c == ')' || c == ']' || c == '}' || (angles && c == '>' && before != some '=')

/-- Whether `c` is a delimiter, as its low byte: only ASCII characters are a byte of their own. -/
def isDelimiter (delimiter c : Char) : Bool :=
  c.toNat < 0x80 && c.toNat == delimiter.toNat % 0x100

theorem isDelimiter_iff_of_ascii {delimiter c : Char} (ascii : delimiter.toNat < 0x80) :
    isDelimiter delimiter c = true ↔ c = delimiter := by
  have low : delimiter.toNat % 0x100 = delimiter.toNat := Nat.mod_eq_of_lt (by omega)
  simp only [isDelimiter, low, Bool.and_eq_true, decide_eq_true_eq, beq_iff_eq]
  exact ⟨fun h => Char.toNat_inj.1 h.2, fun h => by simpa [h] using ascii⟩

/-- The pieces before the bracket that brings the depth to zero, and the pieces after it. There is
none when the pieces end first or when that bracket is not `closing`. -/
def closeAt (angles : Bool) (closing : Char) (depth : Nat) (before : Option Char) :
    List Piece → Option (List Piece × List Piece)
  | [] => none
  | .code c :: ps =>
    if isOpening angles c then
      (closeAt angles closing (depth + 1) (some c) ps).map fun (inside, after) =>
        (.code c :: inside, after)
    else if isClosing angles before c then
      match depth with
      | 0 => none
      | 1 => if isDelimiter closing c then some ([], ps) else none
      | d + 2 =>
        (closeAt angles closing (d + 1) (some c) ps).map fun (inside, after) =>
          (.code c :: inside, after)
    else
      (closeAt angles closing depth (some c) ps).map fun (inside, after) =>
        (.code c :: inside, after)
  | p :: ps =>
    (closeAt angles closing depth none ps).map fun (inside, after) => (p :: inside, after)

/-- For a text that starts with `opening`: the content up to the bracket that matches it, and the
text after that bracket. Angle brackets count when `opening` is one. -/
def balanced? (opening closing : Char) (t : Text) : Option (Text × Text) :=
  match t with
  | [] => none
  | c :: _ =>
    if isDelimiter opening c then
      (closeAt (opening == '<') closing 0 none (pieces t)).map fun (inside, after) =>
        ((flatten inside).drop 1, flatten after)
    else none

variable {angles : Bool} {closing : Char} {depth : Nat} {before : Option Char} {p : Piece}
  {ps inside after : List Piece}

def Piece.code? : Piece → Option Char
  | code c => some c
  | literal _ | comment _ => none

def Piece.isCloser (angles : Bool) (before : Option Char) (p : Piece) : Bool :=
  p.code?.any fun c => !isOpening angles c && isClosing angles before c

/-- The depth behind a piece. A closing bracket without an opening one leaves it at zero. -/
def nextDepth (angles : Bool) (depth : Nat) (before : Option Char) (p : Piece) : Nat :=
  if p.code?.any (isOpening angles) then depth + 1
  else if p.isCloser angles before then depth - 1
  else depth

theorem closeAt_cons : closeAt angles closing depth before (p :: ps) =
    if p.isCloser angles before ∧ depth ≤ 1 then
      if depth = 1 ∧ p.code?.any (isDelimiter closing) then some ([], ps) else none
    else (closeAt angles closing (nextDepth angles depth before p) p.code? ps).map fun found =>
      (p :: found.1, found.2) := by
  cases p with
  | code c =>
    cases opens : isOpening angles c <;> cases closes : isClosing angles before c <;>
      rcases depth with _ | _ | depth <;>
      simp [closeAt, Piece.isCloser, Piece.code?, nextDepth, opens, closes]
  | literal | comment =>
    rw [closeAt]
    · rfl
    · simp

theorem closeAt_swap (found : closeAt angles closing depth before ps = some (inside, after)) :
    ∃ c, isDelimiter closing c = true ∧ ps = inside ++ .code c :: after ∧
      ∀ after', closeAt angles closing depth before (inside ++ .code c :: after') =
        some (inside, after') := by
  induction ps generalizing depth before inside with
  | nil => cases found
  | cons p ps ih =>
    rw [closeAt_cons] at found
    split at found
    · next ends =>
      split at found
      · next last =>
        obtain ⟨rfl, rfl⟩ := Prod.mk.inj (Option.some.inj found)
        cases p with
        | code c => exact ⟨c, last.2, rfl, fun _ => by
            rw [nil_append, closeAt_cons, if_pos ends, if_pos last]⟩
        | literal | comment => cases last.2
      · cases found
    · next goesOn =>
      obtain ⟨⟨i, a⟩, later, same⟩ := Option.map_eq_some_iff.1 found
      obtain ⟨rfl, rfl⟩ := Prod.mk.inj same
      obtain ⟨c, delimits, rfl, again⟩ := ih later
      refine ⟨c, delimits, rfl, fun after' => ?_⟩
      rw [cons_append, closeAt_cons, if_neg goesOn, again]
      rfl

theorem suffix_of_balanced? {opening closing : Char} {t content after : Text}
    (h : balanced? opening closing t = some (content, after)) :
    after <:+ t ∧ after.length < t.length := by
  unfold balanced? at h
  split at h
  · simp at h
  · split at h
    · obtain ⟨⟨inside, rest⟩, found, same⟩ := Option.map_eq_some_iff.1 h
      obtain ⟨-, rfl⟩ := Prod.mk.inj same
      obtain ⟨d, -, split, -⟩ := closeAt_swap found
      have whole := congrArg flatten split
      rw [flatten_pieces, append_cons, flatten_append] at whole
      rw [whole]
      exact ⟨suffix_append _ _, by simp [Piece.text]; omega⟩
    · simp at h

end SfcJsx.Code
