import SfcJsx.Proofs.SettledCode

/-!
Binding patterns as trees, with the names that they bind and how they are written: with any blanks
between their tokens, and any initial values of which no comma outside of brackets is a part.
-/

namespace SfcJsx.Code

open List

variable {t gap : Text}

inductive Kind where
  | object
  | array
  deriving DecidableEq

def Kind.opening : Kind → Char
  | object => '{'
  | array => '['

def Kind.closing : Kind → Char
  | object => '}'
  | array => ']'

def Kind.enclose (kind : Kind) (t : Text) : Text := kind.opening :: (t ++ [kind.closing])

/-- What stands before the target of an element. -/
inductive Head where
  | bare
  | spread (gap : Text)
  | key (text gap : Text)

mutual

/-- A binding pattern as a tree. -/
inductive Pattern where
  | name (x : Text)
  | group (kind : Kind) (elements : Elements)

inductive Elements where
  | last (element : Element)
  | cons (element : Element) (rest : Elements)

inductive Element where
  /-- Nothing between two commas, or behind the last one. -/
  | hole (blanks : Text)
  | item (before : Text) (head : Head) (target : Pattern) (gap : Text) (initial : Option Text)

end

def Head.text : Head → Text
  | bare => []
  | spread gap => "..." ++ gap
  | key text gap => text ++ ':' :: gap

def initialText : Option Text → Text
  | none => []
  | some value => '=' :: value

mutual

def Pattern.text : Pattern → Text
  | .name x => x
  | .group kind elements => kind.enclose elements.text

def Elements.text : Elements → Text
  | .last element => element.text
  | .cons element rest => element.text ++ ',' :: rest.text

def Element.text : Element → Text
  | .hole blanks => blanks
  | .item before head target gap initial =>
    before ++ (head.text ++ target.text ++ (gap ++ initialText initial))

end

mutual

def Pattern.names : Pattern → List Text
  | .name x => [x]
  | .group _ elements => elements.names

def Elements.names : Elements → List Text
  | .last element => element.names
  | .cons element rest => element.names ++ rest.names

def Element.names : Element → List Text
  | .hole _ => []
  | .item _ _ target _ _ => target.names

end

@[mk_iff] structure IsListed (t : Text) : Prop where
  code : IsCode t
  whole : ',' ∉ outside t

/-- An initial value, which makes no arrow of the equals sign before it. -/
@[mk_iff] structure IsInitial (t : Text) : Prop extends IsListed t where
  starts : t.head? ≠ some '>'

/-- The key of an element: a name, a literal or a computed key. -/
@[mk_iff] structure IsKey (t : Text) : Prop extends IsListed t where
  undivided : ':' ∉ outside t
  starts : t.head?.any (fun c => !(Text.isBlank c || c == '.' || c == '{'))
  kind : '=' ∉ t ∨ t.head?.any (fun c => isQuote c || c == '[')

instance (t : Text) : Decidable (IsListed t) := decidable_of_iff' _ (isListed_iff t)

instance (t : Text) : Decidable (IsInitial t) := decidable_of_iff' _ (isInitial_iff t)

instance (t : Text) : Decidable (IsKey t) := decidable_of_iff' _ (isKey_iff t)

theorem IsKey.exists_cons (isKey : IsKey t) :
    ∃ c rest, t = c :: rest ∧ Text.isBlank c = false ∧ c ≠ '.' ∧ c ≠ '{' := by
  have starts := isKey.starts
  cases t with
  | nil => cases starts
  | cons c rest =>
    simp only [head?_cons, Option.any_some, Bool.not_eq_true', Bool.or_eq_false_iff,
      beq_eq_false_iff_ne] at starts
    exact ⟨c, rest, rfl, starts.1.1, starts.1.2, starts.2⟩

def Head.isWritten : Head → Bool
  | bare => true
  | spread gap => gap.isBlankText
  | key text gap => decide (IsKey text) && gap.isBlankText

mutual

/-- Whether a pattern reads as what it is, name by name. -/
def Pattern.isWritten : Pattern → Bool
  | .name x => x.isIdentifier
  | .group _ elements => elements.isWritten

def Elements.isWritten : Elements → Bool
  | .last element => element.isWritten
  | .cons element rest => element.isWritten && rest.isWritten

def Element.isWritten : Element → Bool
  | .hole blanks => blanks.isBlankText
  | .item before head target gap initial =>
    before.isBlankText && head.isWritten && target.isWritten && gap.isBlankText &&
      initial.all fun value => decide (IsInitial value)

end

theorem IsListed.append {s : Text} (left : IsListed s) (parts : Parts s t) (right : IsListed t) :
    IsListed (s ++ t) := by
  refine ⟨left.code.append parts right.code, ?_⟩
  rw [outside_append left.code parts]
  exact fun member => (mem_append.1 member).elim left.whole right.whole

theorem isListed_marks (plain : t.all isPlain) (flat : t.all isUnbracketed)
    (whole : t.contains ',' = false) : IsListed t ∧ EndsPlain t := by
  have each := all_eq_true.1 plain
  obtain ⟨code, same⟩ := isCode_flat each (all_eq_true.1 flat)
  refine ⟨⟨code, ?_⟩, endsPlain_of_isPlain each⟩
  rw [same]
  simpa using whole

theorem isListed_blanks (blank : gap.isBlankText) : IsListed gap := by
  obtain ⟨code, same⟩ := isCode_blanks blank
  refine ⟨code, ?_⟩
  rw [same]
  exact fun member => absurd (all_eq_true.1 blank _ member) (by decide)

theorem endsPlain_blanks (blank : gap.isBlankText) : EndsPlain gap :=
  endsPlain_of_isBlank (all_eq_true.1 blank)

/-- The text of a pattern: one part of a list, with no colon outside of brackets, that anything may
follow. -/
structure IsTarget (t : Text) : Prop extends IsListed t where
  undivided : ':' ∉ outside t
  trimmed : t.IsTrimmed
  ends : EndsPlain t
  starts : t.head? ≠ some '.'

theorem isTarget_name {x : Text} (named : Text.isIdentifier x) : IsTarget x := by
  obtain ⟨code, same⟩ := isCode_name named
  have letters := Text.isIdentChar_of_mem named
  have other {c : Char} (apart : Text.isIdentChar c = false) : c ∉ x := by
    intro member
    rw [letters c member] at apart
    cases apart
  refine ⟨⟨code, ?_⟩, ?_, Script.isTrimmed_of_isIdentifier named,
    endsPlain_of_isIdentChar letters, ?_⟩
  · rw [same]
    exact other (by decide)
  · rw [same]
    exact other (by decide)
  · exact fun dot => other (by decide) (mem_of_mem_head? dot)

theorem Kind.isPlain_closing (kind : Kind) : isPlain kind.closing := by cases kind <;> rfl

theorem Kind.isPlain_opening (kind : Kind) : isPlain kind.opening := by cases kind <;> rfl

theorem Kind.isTrimmed (kind : Kind) (t : Text) : (kind.enclose t).IsTrimmed := by
  cases kind <;> exact Text.isTrimmed_cons rfl _ ⟨by simp, rfl, rfl⟩

theorem parts_closing (settled : IsSettled t) (kind : Kind) (u : Text) :
    Parts t (kind.closing :: u) :=
  settled.parts_cons kind.isPlain_closing (by cases kind <;> decide) u

theorem Kind.isTarget (kind : Kind) (code : IsCode t) : IsTarget (kind.enclose t) := by
  have ends := parts_closing code.settled kind []
  have read : pieces (kind.enclose t) =
      .code kind.opening :: (pieces t ++ [.code kind.closing]) := by
    rw [Kind.enclose, pieces_enclosed kind.isPlain_opening kind.isPlain_closing ends, pieces]
  have level : IsLevel false (kind.enclose t) ∧ outside (kind.enclose t) = [] := by
    cases kind <;>
      exact isLevel_enclosed rfl rfl (fun _ => rfl) ⟨rfl, rfl, by decide⟩ code.level ends
  have settled : IsSettled (kind.enclose t) := by
    intro p member
    rw [read, mem_cons, mem_append, mem_singleton] at member
    rcases member with rfl | inside | rfl
    · rfl
    · exact code.settled p inside
    · rfl
  refine ⟨⟨⟨settled, level.1⟩, by simp [level.2]⟩, by simp [level.2], kind.isTrimmed t,
    .inr ⟨.code kind.opening :: pieces t, kind.closing, read, kind.isPlain_closing⟩, ?_⟩
  cases kind <;> simp [Kind.enclose, Kind.opening]

theorem Head.isListed {head : Head} (written : head.isWritten) :
    IsListed head.text ∧ EndsPlain head.text := by
  cases head with
  | bare => exact isListed_marks rfl rfl rfl
  | spread gap =>
    have dots : IsListed "..." ∧ EndsPlain "..." := isListed_marks rfl rfl rfl
    exact ⟨dots.1.append (dots.2.parts gap) (isListed_blanks written),
      dots.2.append (endsPlain_blanks written)⟩
  | key text gap =>
    simp only [Head.isWritten, Bool.and_eq_true, decide_eq_true_eq] at written
    obtain ⟨key, blank⟩ := written
    have colon : IsListed [':'] ∧ EndsPlain [':'] := isListed_marks rfl rfl rfl
    have behind : IsListed (':' :: gap) :=
      colon.1.append (colon.2.parts gap) (isListed_blanks blank)
    have parts : Parts text (':' :: gap) := key.code.settled.parts_cons rfl (by decide) gap
    refine ⟨key.toIsListed.append parts behind, ?_⟩
    rcases colon.2.append (endsPlain_blanks blank) with none | ⟨ps, c, read, plain⟩
    · cases none
    · refine .inr ⟨pieces text ++ ps, c, ?_, plain⟩
      rw [Head.text, show pieces (text ++ ':' :: gap) = pieces text ++ pieces (':' :: gap) from
        parts, append_assoc, ← read]
      rfl

theorem isListed_initialText {initial : Option Text}
    (written : initial.all (fun value => decide (IsInitial value))) :
    IsListed (initialText initial) := by
  cases initial with
  | none => exact (isListed_marks rfl rfl rfl).1
  | some value =>
    have sign : IsListed ['='] ∧ EndsPlain ['='] := isListed_marks rfl rfl rfl
    exact sign.1.append (sign.2.parts value) (of_decide_eq_true written).toIsListed

mutual

theorem Pattern.isTarget : {p : Pattern} → (written : p.isWritten) → IsTarget p.text
  | .name _, written => by
    rw [Pattern.text]
    exact isTarget_name written
  | .group kind _, written => by
    rw [Pattern.text]
    exact kind.isTarget (Elements.isCode written)

theorem Elements.isCode : {es : Elements} → (written : es.isWritten) → IsCode es.text
  | .last _, written => by
    rw [Elements.text]
    exact (Element.isListed written).code
  | .cons e rest, written => by
    rw [Elements.isWritten, Bool.and_eq_true] at written
    rw [Elements.text]
    have front := (Element.isListed written.1).code
    have plain : ∀ c ∈ [','], isPlain c := all_eq_true.1 rfl
    have comma : IsCode [','] := (isCode_flat plain (all_eq_true.1 rfl)).1
    have behind : IsCode (',' :: rest.text) :=
      comma.append ((endsPlain_of_isPlain plain).parts _) (Elements.isCode written.2)
    exact front.append (front.settled.parts_cons rfl (by decide) _) behind

theorem Element.isListed : {e : Element} → (written : e.isWritten) → IsListed e.text
  | .hole _, written => by
    rw [Element.text]
    exact isListed_blanks written
  | .item before head target gap initial, written => by
    simp only [Element.isWritten, Bool.and_eq_true] at written
    obtain ⟨⟨⟨⟨blank, headed⟩, targeted⟩, spaced⟩, valued⟩ := written
    have front := Head.isListed headed
    have inner := Pattern.isTarget targeted
    rw [Element.text]
    refine (isListed_blanks blank).append ((endsPlain_blanks blank).parts _) ?_
    refine (front.1.append (front.2.parts _) inner.toIsListed).append
      ((front.2.append inner.ends).parts _) ?_
    exact (isListed_blanks spaced).append ((endsPlain_blanks spaced).parts _)
      (isListed_initialText valued)

end

end SfcJsx.Code
