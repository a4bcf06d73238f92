import Mathlib.Data.List.Induction
import SfcJsx.Proofs.WrittenObjects

/-!
Code without comments whose literals are closed. Such code stays apart from what follows it, and so
does what is left of it when blanks or a bracket at its end are cut off.
-/

namespace SfcJsx

open List

theorem Text.exists_trimEnd (t : Text) :
    ∃ blanks, (∀ c ∈ blanks, isBlank c) ∧ t = t.trimEnd ++ blanks := by
  obtain ⟨lead, blank, whole⟩ := Script.exists_blanks t.reverse
  refine ⟨lead.reverse, by simpa using blank, ?_⟩
  have reversed := congrArg reverse whole
  rwa [reverse_append, reverse_reverse] at reversed

variable {gap : Text}

namespace Code

def Piece.isSettled : Piece → Bool
  | code _ => true
  | literal text => decide (IsClosed text)
  | comment _ => false

/-- Text without comments whose literals are closed. -/
def IsSettled (t : Text) : Prop := ∀ p ∈ pieces t, p.isSettled

instance (t : Text) : Decidable (IsSettled t) :=
  inferInstanceAs (Decidable (∀ p ∈ pieces t, p.isSettled))

theorem isSettled_of_isPlain {t : Text} (plain : ∀ c ∈ t, isPlain c) : IsSettled t := by
  intro p member
  rw [pieces_of_isPlain plain] at member
  obtain ⟨c, -, rfl⟩ := mem_map.1 member
  rfl

theorem exists_of_isClosed {t : Text} {init : List Piece} {text : Text}
    (read : pieces t = init ++ [.literal text]) (closed : IsClosed text) :
    ∃ quote, isQuote quote ∧ t.getLast? = some quote := by
  obtain ⟨quote, body, rfl, quoted, -, -⟩ := exists_of_pieces_literal read
  have last := (endsClosed_of_literalTail (closed ['.']) (by decide)).last
  refine ⟨quote, quoted, ?_⟩
  rw [← flatten_pieces t, read]
  simp [Piece.text, getLast?_append, getLast?_cons, last]

namespace IsSettled

variable {s t : Text}

theorem parts (settled : IsSettled t) {u : Text}
    (ends : t.getLast? = some '/' → u.head? ≠ some '/' ∧ u.head? ≠ some '*') : Parts t u := by
  refine parts_of_isClosed (fun p member => ?_) (fun text member => ?_) ends
  · have here := settled p member
    cases p with
    | code | literal => rfl
    | comment => cases here
  · obtain ⟨p, member, same⟩ := mem_filterMap.1 member
    have here := settled p member
    cases p with
    | code | comment => cases same
    | literal text' =>
      cases same
      exact of_decide_eq_true here

theorem parts_cons (settled : IsSettled t) {c : Char} (plain : isPlain c)
    (noStar : c ≠ '*') (u : Text) : Parts t (c :: u) := by
  refine settled.parts fun _ => ⟨?_, by simpa using noStar⟩
  rintro ⟨⟩
  cases plain

theorem append (left : IsSettled s) (parts : Parts s t) (right : IsSettled t) :
    IsSettled (s ++ t) := by
  intro p member
  rw [show pieces (s ++ t) = pieces s ++ pieces t from parts, mem_append] at member
  exact member.elim (left p) (right p)

theorem of_concat {e : Char} (settled : IsSettled (s ++ [e])) (other : isQuote e = false) :
    IsSettled s ∧ pieces (s ++ [e]) = pieces s ++ [.code e] := by
  obtain ⟨init, p, read⟩ : ∃ init p, pieces (s ++ [e]) = init ++ [p] := by
    rcases eq_nil_or_concat (pieces (s ++ [e])) with empty | ⟨init, p, read⟩
    · have nothing := flatten_pieces (s ++ [e])
      rw [empty] at nothing
      simp at nothing
    · exact ⟨init, p, by rw [read, concat_eq_append]⟩
  have whole := flatten_pieces (s ++ [e])
  have here := settled p (by simp [read])
  have code : p = .code e ∧ flatten init = s := by
    cases p with
    | code c =>
      rw [read] at whole
      have both : flatten init = s ∧ [c] = [e] :=
        append_inj' (by simpa [Piece.text] using whole) rfl
      obtain ⟨rfl, same⟩ := both
      exact ⟨by rw [singleton_inj.1 same], rfl⟩
    | literal text =>
      obtain ⟨quote, quoted, last⟩ := exists_of_isClosed read (of_decide_eq_true here)
      obtain rfl : e = quote := by simpa using last
      rw [quoted] at other
      cases other
    | comment => cases here
  obtain ⟨rfl, rfl⟩ := code
  have alone := pieces_flatten_left read
  refine ⟨fun q member => settled q ?_, by rw [alone, read]⟩
  rw [alone] at member
  rw [read]
  exact mem_append_left _ member

theorem of_blanks (blank : ∀ c ∈ gap, Text.isBlank c) (settled : IsSettled (s ++ gap)) :
    IsSettled s ∧ pieces (s ++ gap) = pieces s ++ gap.map .code := by
  induction gap using reverseRecOn with
  | nil => simpa using settled
  | append_singleton gap e ih =>
    have other : isQuote e = false := by
      have plain := isPlain_of_isBlank (blank e (by simp))
      simp only [isPlain, Bool.and_eq_true, Bool.not_eq_true'] at plain
      exact plain.1
    rw [← append_assoc] at settled
    obtain ⟨front, read⟩ := settled.of_concat other
    obtain ⟨rest, alone⟩ := ih (forall_mem_append.1 blank).1 front
    refine ⟨rest, ?_⟩
    rw [← append_assoc, read, alone]
    simp

end IsSettled

theorem subset_outer_append (angles : Bool) (depth : Nat) (before : Option Char)
    (ps qs : List Piece) : outer angles depth before ps ⊆ outer angles depth before (ps ++ qs) := by
  rw [outer_append_depthBehind]
  exact subset_append_left _ _

theorem outer_before (depth : Nat) (before : Option Char) (ps : List Piece) :
    outer false depth before ps = outer false depth none ps := by
  cases ps with
  | nil => rfl
  | cons p ps => cases p <;> rfl

theorem segments_before (separators : List Char) (depth : Nat) (before : Option Char)
    (ps : List Piece) :
    segments separators false depth before ps = segments separators false depth none ps := by
  cases ps with
  | nil => rfl
  | cons p ps => cases p <;> rfl

/-- Settled text whose round, square and curly brackets match. -/
@[mk_iff] structure IsCode (t : Text) : Prop where
  settled : IsSettled t
  level : IsLevel false t

def outside (t : Text) : Text := outer false 0 none (pieces t)

instance (t : Text) : Decidable (IsCode t) := decidable_of_iff' _ (isCode_iff t)

theorem IsCode.append {s t : Text} (left : IsCode s) (parts : Parts s t) (right : IsCode t) :
    IsCode (s ++ t) :=
  ⟨left.settled.append parts right.settled, (left.level.append parts right.level).1⟩

theorem outside_append {s t : Text} (left : IsCode s) (parts : Parts s t) :
    outside (s ++ t) = outside s ++ outside t := by
  rw [outside, show pieces (s ++ t) = pieces s ++ pieces t from parts, outer_append left.level,
    outer_before 0 (codeAfter none (pieces s))]
  rfl

theorem isCode_flat {t : Text} (plain : ∀ c ∈ t, isPlain c)
    (flat : ∀ c ∈ t, isUnbracketed c) : IsCode t ∧ outside t = t := by
  have read := pieces_of_isPlain plain
  refine ⟨⟨isSettled_of_isPlain plain, ?_⟩, ?_⟩
  · rw [IsLevel, read, depthAfter_map_code flat]
  · rw [outside, read, outer_map_code flat, if_pos rfl]

theorem isCode_blanks (blank : gap.isBlankText) : IsCode gap ∧ outside gap = gap := by
  have each := all_eq_true.1 blank
  exact isCode_flat (fun c member => isPlain_of_isBlank (each c member))
    fun c member => isUnbracketed_of_isBlank (each c member)

theorem isCode_name {x : Text} (named : Text.isIdentifier x) : IsCode x ∧ outside x = x := by
  have each := Text.isIdentChar_of_mem named
  exact isCode_flat (fun c member => isPlain_of_isIdentChar (each c member))
    fun c member => isUnbracketed_of_isIdentChar (each c member)

end Code

end SfcJsx
