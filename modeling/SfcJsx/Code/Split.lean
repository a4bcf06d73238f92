import SfcJsx.Code.Bracket

/-!
Splitting code at separators that stand outside brackets, literals and comments.
-/

namespace SfcJsx.Code

open List Piece

/-- The texts between separators, as they are; one more than there are separators. A closing bracket
without an opening one leaves the depth at zero. -/
def segments (separators : List Char) (angles : Bool) (depth : Nat) (before : Option Char) :
    List Piece → List Text
  | [] => [[]]
  | .code c :: ps =>
    if isOpening angles c then
      extend [c] (segments separators angles (depth + 1) (some c) ps)
    else if isClosing angles before c then
      extend [c] (segments separators angles (depth - 1) (some c) ps)
    else if depth = 0 ∧ c.toNat < 0x80 ∧ c ∈ separators then
      [] :: segments separators angles depth (some c) ps
    else extend [c] (segments separators angles depth (some c) ps)
  | p :: ps => extend p.text (segments separators angles depth none ps)
where
  /-- Puts a text in front of the first segment. -/
  extend (t : Text) : List Text → List Text
    | [] => [t]
    | first :: rest => (t ++ first) :: rest

def splitTop (separators : List Char) (angles : Bool) (t : Text) : List Text :=
  ((segments separators angles 0 none (pieces t)).map Text.trim).filter (!·.isEmpty)

variable {separators : List Char} {angles : Bool} {depth : Nat} {before : Option Char} {p : Piece}
  {ps : List Piece}

theorem segments.length_extend_le {t : Text} {ts : List Text} {n : Nat}
    (h : ∀ s ∈ ts, s.length ≤ n) : ∀ s ∈ extend t ts, s.length ≤ t.length + n := by
  cases ts with
  | nil => simp [extend]
  | cons first rest =>
    intro s member
    simp only [extend, mem_cons] at member
    rcases member with rfl | member
    · have := h first (by simp)
      simp
      omega
    · have := h s (by simp [member])
      omega

def Piece.isOuter (angles : Bool) (depth : Nat) (before : Option Char) (p : Piece) : Bool :=
  depth == 0 && p.code?.any fun c => !isOpening angles c && !isClosing angles before c

theorem segments_cons : segments separators angles depth before (p :: ps) =
    if p.isOuter angles depth before ∧ p.code?.any fun c => decide (c.toNat < 0x80 ∧ c ∈ separators)
    then [] :: segments separators angles (nextDepth angles depth before p) p.code? ps
    else segments.extend p.text
      (segments separators angles (nextDepth angles depth before p) p.code? ps) := by
  cases p with
  | code c =>
    cases opens : isOpening angles c <;> cases closes : isClosing angles before c <;>
      simp [segments, isOuter, isCloser, code?, text, nextDepth, opens, closes]
  | literal | comment =>
    rw [segments]
    · simp [code?, nextDepth, isCloser]
    · simp

theorem length_segments_le (depth : Nat) (before : Option Char) (ps : List Piece) :
    ∀ s ∈ segments separators angles depth before ps, s.length ≤ (flatten ps).length := by
  induction ps generalizing depth before with
  | nil => simp [segments]
  | cons p ps ih =>
    rw [segments_cons, flatten_cons, length_append]
    split
    · refine forall_mem_cons.2 ⟨Nat.zero_le _, fun s member => ?_⟩
      exact Nat.le_trans (ih _ _ s member) (Nat.le_add_left _ _)
    · exact segments.length_extend_le (ih _ _)

theorem length_of_mem_splitTop {t s : Text}
    (h : s ∈ splitTop separators angles t) : s.length ≤ t.length := by
  simp only [splitTop, mem_filter, mem_map] at h
  obtain ⟨⟨raw, member, rfl⟩, _⟩ := h
  have := length_segments_le 0 none (pieces t) raw member
  rw [flatten_pieces] at this
  exact Nat.le_trans (Text.length_trim_le raw) this

end SfcJsx.Code
