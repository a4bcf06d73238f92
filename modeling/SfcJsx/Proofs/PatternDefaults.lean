import SfcJsx.Proofs.PatternNames

/-!
When all names of a binding pattern are read, where no initial value has a colon outside of
brackets. They are if only names have initial values. A nested pattern with an initial value loses
all of its names if that value does not end with the pattern's own closing bracket, and else the
last one, unless it has an initial value of its own.
-/

namespace SfcJsx.Code

open List Element

mutual

/-- No colon stands in an initial value. -/
def Pattern.isUndivided : Pattern → Bool
  | .name _ => true
  | .group _ elements => elements.isUndivided

def Elements.isUndivided : Elements → Bool
  | .last element => element.isUndivided
  | .cons element rest => element.isUndivided && rest.isUndivided

def Element.isUndivided : Element → Bool
  | .hole _ => true
  | .item _ _ target _ initial =>
    target.isUndivided && initial.all fun value => !(outside value).contains ':'

end

mutual

/-- Only names have initial values. -/
def Pattern.isSimple : Pattern → Bool
  | .name _ => true
  | .group _ elements => elements.isSimple

def Elements.isSimple : Elements → Bool
  | .last element => element.isSimple
  | .cons element rest => element.isSimple && rest.isSimple

def Element.isSimple : Element → Bool
  | .hole _ | .item _ _ (.name _) _ _ => true
  | .item _ _ (.group _ elements) _ initial => initial.isNone && elements.isSimple

end

mutual

/-- Whether all names are found when the text `tail` follows the pattern. -/
def Pattern.keeps : Pattern → Text → Bool
  | .name _, tail => isFree tail
  | .group kind elements, tail =>
    if tail.isBlankText then elements.keeps []
    else match Text.before? [kind.closing] tail.trimEnd with
      | some inner => elements.keeps (kind.closing :: inner)
      | none => elements.names.isEmpty

def Elements.keeps : Elements → Text → Bool
  | .last element, tail => element.keeps tail
  | .cons element rest, tail => element.keeps [] && rest.keeps tail

def Element.keeps : Element → Text → Bool
  | .hole _, _ => true
  | .item _ _ target gap initial, tail =>
    target.keeps (gap ++ initialText initial ++ tail).trimEnd

end

theorem colons_of_not_mem {t : Text} (undivided : ':' ∉ outside t) :
    beforeColon t = t ∧ behindColons t = [] := by
  have single : segments [':'] false 0 none (pieces t) = [t] := by
    rw [segments_of_not_mem undivided, flatten_pieces]
  exact ⟨by rw [beforeColon, single]; rfl, by rw [behindColons, single]; rfl⟩

theorem Head.found_of_not_mem {tail : Text} (undivided : ':' ∉ outside tail) (head : Head)
    (target : Text) (names : Text → List Text) : head.found target tail names = names tail := by
  obtain ⟨before, behind⟩ := colons_of_not_mem undivided
  cases head with
  | bare | spread => simp only [Head.found, readBehind, behind]
  | key => rw [Head.found, behind, if_pos rfl, before]

theorem undivided_tail {g gap : Text} {initial : Option Text} (edge : IsEdge g)
    (blank : gap.isBlankText) (written : initial.all (fun value => decide (IsInitial value)))
    (undivided : initial.all (fun value => !(outside value).contains ':'))
    (colons : ':' ∉ outside g) : ':' ∉ outside (gap ++ initialText initial ++ g).trimEnd := by
  have front : IsListed (gap ++ initialText initial) :=
    (isListed_blanks blank).append ((endsPlain_blanks blank).parts _) (isListed_initialText written)
  have parts := edge.parts front.code.settled
  have spaced := isCode_blanks blank
  intro member
  have whole := outside_trimEnd_subset (front.code.settled.append parts edge.settled) member
  rw [outside_append front.code parts, outside_append spaced.1 ((endsPlain_blanks blank).parts _),
    spaced.2, mem_append, mem_append] at whole
  rcases whole with (inGap | inValue) | behind
  · exact absurd (all_eq_true.1 blank _ inGap) (by decide)
  · cases initial with
    | none => simp [initialText, outside, pieces, outer] at inValue
    | some value =>
      have sign : outside ('=' :: value) = '=' :: outside value := by
        rw [outside, pieces_cons_of_isPlain rfl, outer, if_neg (by decide), if_neg (by decide),
          if_pos rfl, outer_before 0 (some '='), outside]
      rw [initialText, sign, mem_cons] at inValue
      have inside := inValue.resolve_left (by decide)
      simp only [Option.all_some, Bool.not_eq_true', contains_eq_mem,
        decide_eq_false_iff_not] at undivided
      exact undivided inside
  · exact colons behind

theorem append_eq_append_iff_of_length {α : Type} {as bs as' bs' : List α}
    (left : as.length ≤ as'.length) (right : bs.length ≤ bs'.length) :
    as ++ bs = as' ++ bs' ↔ as = as' ∧ bs = bs' := by
  refine ⟨fun same => ?_, fun ⟨first, second⟩ => by rw [first, second]⟩
  have total := congrArg length same
  simp only [length_append] at total
  exact append_inj same (by omega)

mutual

theorem Pattern.found_eq_names_iff : {p : Pattern} → (written : p.isWritten) →
    (undivided : p.isUndivided) → {g : Text} → (tail : IsTail g) → (':' ∉ outside g) →
    (p.found g).length ≤ p.names.length ∧ (p.found g = p.names ↔ p.keeps g)
  | .name x, _, _, g, _, _ => by
    rw [Pattern.found, Pattern.names, Pattern.keeps]
    cases isFree g <;> simp
  | .group kind es, written, undivided, g, tail, colons => by
    rw [Pattern.found, Pattern.names, Pattern.keeps]
    by_cases blank : g.isBlankText
    · rw [if_pos blank, if_pos blank]
      exact Elements.found_eq_names_iff written undivided isEdge_nil
        (by simp [outside, pieces, outer])
    · rw [if_neg blank, if_neg blank]
      cases found : Text.before? [kind.closing] g.trimEnd with
      | some inner =>
        exact Elements.found_eq_names_iff written undivided (tail.cut found)
          fun member => colons ((settled_cut tail.settled found).2 member)
      | none => exact ⟨Nat.zero_le _, eq_comm.trans isEmpty_iff.symm⟩

theorem Elements.found_eq_names_iff : {es : Elements} → (written : es.isWritten) →
    (undivided : es.isUndivided) → {g : Text} → (edge : IsEdge g) → (':' ∉ outside g) →
    (es.found g).length ≤ es.names.length ∧ (es.found g = es.names ↔ es.keeps g)
  | .last e, written, undivided, g, edge, colons => by
    rw [Elements.found, Elements.names, Elements.keeps]
    exact Element.found_eq_names_iff written undivided edge colons
  | .cons e rest, written, undivided, g, edge, colons => by
    rw [Elements.isWritten, Bool.and_eq_true] at written
    rw [Elements.isUndivided, Bool.and_eq_true] at undivided
    obtain ⟨short, first⟩ := Element.found_eq_names_iff written.1 undivided.1 isEdge_nil
      (by simp [outside, pieces, outer])
    obtain ⟨shorter, others⟩ := Elements.found_eq_names_iff written.2 undivided.2 edge colons
    rw [Elements.found, Elements.names, Elements.keeps, Bool.and_eq_true, ← first, ← others]
    refine ⟨?_, append_eq_append_iff_of_length short shorter⟩
    simp only [length_append]
    omega

theorem Element.found_eq_names_iff : {e : Element} → (written : e.isWritten) →
    (undivided : e.isUndivided) → {g : Text} → (edge : IsEdge g) → (':' ∉ outside g) →
    (e.found g).length ≤ e.names.length ∧ (e.found g = e.names ↔ e.keeps g)
  | .hole _, _, _, g, edge, colons => by
    have free : ':' ∉ outside g.trimEnd :=
      fun member => colons (outside_trimEnd_subset edge.settled member)
    rw [found, names, keeps, readBehind, (colons_of_not_mem free).2]
    simp
  | .item before head target gap initial, written, undivided, g, edge, colons => by
    simp only [isWritten, Bool.and_eq_true] at written
    obtain ⟨⟨⟨-, targeted⟩, spaced⟩, valued⟩ := written
    simp only [isUndivided, Bool.and_eq_true] at undivided
    have free := undivided_tail edge spaced valued undivided.2 colons
    rw [found, names, keeps, Head.found_of_not_mem free]
    exact Pattern.found_eq_names_iff targeted undivided.1 (edge.tail spaced valued).trimEnd free

end

theorem isFree_initialText {gap : Text} (blank : gap.isBlankText) (initial : Option Text) :
    isFree (gap ++ initialText initial).trimEnd := by
  cases initial with
  | none =>
    rw [initialText, append_nil, Text.trimEnd_of_isBlankText blank]
    rfl
  | some value =>
    rw [initialText, Text.trimEnd_append (by decide), isFree,
      Script.trimStart_blanks_append (all_eq_true.1 blank) rfl]
    rfl

mutual

theorem Elements.keeps_of_isSimple : {es : Elements} → (written : es.isWritten) →
    (simple : es.isSimple) → es.keeps []
  | .last _, written, simple => by
    rw [Elements.keeps]
    exact Element.keeps_of_isSimple written simple
  | .cons _ _, written, simple => by
    rw [Elements.isWritten, Bool.and_eq_true] at written
    rw [Elements.isSimple, Bool.and_eq_true] at simple
    rw [Elements.keeps, Element.keeps_of_isSimple written.1 simple.1,
      Elements.keeps_of_isSimple written.2 simple.2]
    rfl

theorem Element.keeps_of_isSimple : {e : Element} → (written : e.isWritten) →
    (simple : e.isSimple) → e.keeps []
  | .hole _, _, _ => rfl
  | .item _ _ (.name _) gap initial, written, _ => by
    simp only [isWritten, Bool.and_eq_true] at written
    rw [keeps, Pattern.keeps, append_nil]
    exact isFree_initialText written.1.2 initial
  | .item _ _ (.group _ _) gap initial, written, simple => by
    simp only [isWritten, Pattern.isWritten, Bool.and_eq_true] at written
    rw [isSimple, Bool.and_eq_true, Option.isNone_iff_eq_none] at simple
    obtain ⟨rfl, inner⟩ := simple
    rw [keeps, initialText, append_nil, append_nil, Text.trimEnd_of_isBlankText written.1.2,
      Pattern.keeps, if_pos (show Text.isBlankText [] = true from rfl)]
    exact Elements.keeps_of_isSimple written.1.1.2 inner

end

theorem Pattern.keeps_of_isSimple {p : Pattern} (written : p.isWritten)
    (simple : p.isSimple) : p.keeps [] := by
  cases p with
  | name => rfl
  | group =>
    exact Elements.keeps_of_isSimple written simple

/-- The names that are read in the text of a pattern, whatever its initial values are. If none of
these has a colon outside of brackets then the names are those that the pattern binds exactly if
each of them is told from what stands behind it, and so they are if only names have initial
values. -/
theorem Pattern.patternNames_of_written {p : Pattern} (written : p.isWritten = true) :
    patternNames p.text = p.found [] ∧
    (p.isUndivided = true → (patternNames p.text = p.names ↔ p.keeps [] = true)) ∧
    (p.isUndivided = true → p.isSimple = true → patternNames p.text = p.names) := by
  have tail : IsTail [] := ⟨isEdge_nil.settled, isEdge_nil.whole, rfl⟩
  have read := Pattern.patternNames_text written tail
  rw [append_nil] at read
  have exactly (undivided : p.isUndivided = true) :
      patternNames p.text = p.names ↔ p.keeps [] = true := by
    rw [read]
    exact (Pattern.found_eq_names_iff written undivided tail (by simp [outside, pieces, outer])).2
  exact ⟨read, exactly, fun undivided simple =>
    (exactly undivided).2 (Pattern.keeps_of_isSimple written simple)⟩

def settings : Pattern :=
  .group .object
    (.cons (.item " " .bare (.name "a") " " (some " 1"))
    (.cons (.item " " (.key "b" " ")
      (.group .object (.last (.item " " .bare (.name "c") " " (some " \x7b\x7d ")))) " "
      (some " \x7b\x7d"))
    (.cons (.item " " (.key "'d=e'" " ")
      (.group .array
        (.cons (.item [] .bare (.name "f") [] none)
        (.cons (.hole " ")
        (.last (.item " " (.spread []) (.name "g") [] none))))) [] none)
    (.last (.item " " (.spread []) (.name "rest") " " none)))))

theorem Pattern.patternNames_settings : settings.isWritten = true ∧ settings.isUndivided = true ∧
    settings.text = ("\x7b a = 1, b: \x7b c = \x7b\x7d \x7d = \x7b\x7d, 'd=e': [f, , ...g], " ++
      "...rest \x7d").toList ∧
    patternNames settings.text =
      ["a".toList, "c".toList, "f".toList, "g".toList, "rest".toList] := by
  have written : settings.isWritten = true := by decide +kernel
  have undivided : settings.isUndivided = true := by decide +kernel
  refine ⟨written, undivided, by decide +kernel, ?_⟩
  rw [((Pattern.patternNames_of_written written).2.1 undivided).2 (by decide +kernel)]
  decide +kernel

def nestedInitial : Pattern :=
  .group .object (.last (.item " " (.key "a" " ")
    (.group .object (.last (.item " " .bare (.name "b") " " none))) " " (some " \x7b\x7d ")))

def choiceInitial : Pattern :=
  .group .object (.last (.item " " .bare (.name "a") " " (some " x ? y : z ")))

/-- The name of a nested pattern with an initial value is lost, and a colon in an initial value
makes a name of what stands behind it. -/
theorem Pattern.patternNames_misread :
    (nestedInitial.text = "\x7b a: \x7b b \x7d = \x7b\x7d \x7d".toList ∧
      nestedInitial.names = ["b".toList] ∧ patternNames nestedInitial.text = []) ∧
    (choiceInitial.text = "\x7b a = x ? y : z \x7d".toList ∧
      choiceInitial.names = ["a".toList] ∧ patternNames choiceInitial.text = ["z".toList]) := by
  have tail : IsTail [] := ⟨isEdge_nil.settled, isEdge_nil.whole, rfl⟩
  have read {p : Pattern} (written : p.isWritten = true) : patternNames p.text = p.found [] := by
    simpa using Pattern.patternNames_text written tail
  refine ⟨⟨by decide +kernel, by decide +kernel, ?_⟩, by decide +kernel, by decide +kernel, ?_⟩
  · rw [read (by decide +kernel)]
    decide +kernel
  · have behind : behindColons
        (Text.trimEnd (" ".toList ++ initialText (some " x ? y : z ") ++ [])) = ["z".toList] := by
      decide +kernel
    have named : patternNames "z" = ["z".toList] := patternNames_name (x := "z") rfl tail
    rw [read (by decide +kernel), choiceInitial, Pattern.found, if_pos (by rfl), Elements.found,
      Element.found, Head.found, readBehind]
    simp only [behind, named]

end SfcJsx.Code
