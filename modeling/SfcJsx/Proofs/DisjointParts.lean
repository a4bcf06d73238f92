import SfcJsx.Proofs.TextSearch

/-!
Texts that stand in another text side by side. `Holds` puts them in one text in order and without
overlap, `Placed` distributes them over several texts, and `occurrenceCount` is the largest number
of disjoint occurrences of one text.
-/

namespace SfcJsx.Text

open List

/-- The parts stand in the text one after the other, without overlap. -/
def Holds : (parts : List Text) → (t : Text) → Prop
  | [], _ => True
  | part :: parts, t => ∃ gap rest, t = gap ++ part ++ rest ∧ Holds parts rest

section Holds

variable {parts more : List Text} {s t : Text}

theorem Holds.after (h : Holds parts t) (lead : Text) : Holds parts (lead ++ t) := by
  cases parts with
  | nil => trivial
  | cons part parts =>
    obtain ⟨gap, rest, rfl, later⟩ := h
    exact ⟨lead ++ gap, rest, by simp, later⟩

theorem Holds.append (first : Holds parts s) (second : Holds more t) :
    Holds (parts ++ more) (s ++ t) := by
  induction parts generalizing s with
  | nil => exact second.after s
  | cons part parts ih =>
    obtain ⟨gap, rest, rfl, later⟩ := first
    exact ⟨gap, rest ++ t, by simp, ih later⟩

theorem Holds.before (h : Holds parts t) (tail : Text) : Holds parts (t ++ tail) := by
  have whole : Holds (parts ++ []) (t ++ tail) := h.append trivial
  rwa [append_nil] at whole

theorem Holds.within (h : Holds parts t) (lead tail : Text) : Holds parts (lead ++ t ++ tail) :=
  (h.after lead).before tail

theorem holds_singleton (t : Text) : Holds [t] t := ⟨[], [], by simp, trivial⟩

theorem holds_flatten (units : List Text) : Holds units units.flatten := by
  induction units with
  | nil => trivial
  | cons unit units ih => exact (holds_singleton unit).append ih

theorem holds_flatMap_cons (c : Char) (units : List Text) :
    Holds units (units.flatMap (c :: ·)) := by
  induction units with
  | nil => trivial
  | cons unit units ih => exact ((holds_singleton unit).after [c]).append ih

theorem holds_intercalate (separator : Text) (units : List Text) :
    Holds units (intercalate separator units) := by
  induction units with
  | nil => trivial
  | cons unit units ih =>
    cases units with
    | nil => simpa using holds_singleton unit
    | cons next units =>
      exact (holds_singleton unit).append (ih.after separator)

theorem Holds.sublist (h : Holds parts t) (fewer : more.Sublist parts) : Holds more t := by
  induction fewer generalizing t with
  | slnil => trivial
  | cons part _ ih =>
    obtain ⟨gap, rest, rfl, later⟩ := h
    exact (ih later).after (gap ++ part)
  | cons_cons part _ ih =>
    obtain ⟨gap, rest, rfl, later⟩ := h
    exact ⟨gap, rest, rfl, ih later⟩

theorem Holds.isBlankText (h : Holds parts t) (blank : t.isBlankText) :
    ∀ part ∈ parts, part.isBlankText := by
  induction parts generalizing t with
  | nil => simp
  | cons part parts ih =>
    obtain ⟨gap, rest, rfl, later⟩ := h
    simp only [Text.isBlankText, all_append, Bool.and_eq_true] at blank
    intro other member
    rcases mem_cons.1 member with rfl | member
    · exact blank.1.2
    · exact ih later blank.2 other member

end Holds

/-- The parts stand in the units, each part inside one unit. -/
inductive Placed : (parts units : List Text) → Prop
  | nil : Placed [] []
  | cons {here there : List Text} {unit : Text} {units : List Text} (holds : Holds here unit)
      (rest : Placed there units) : Placed (here ++ there) (unit :: units)

section Placed

variable {parts more units others : List Text} {t : Text}

theorem placed_singleton_iff : Placed parts [t] ↔ Holds parts t := by
  constructor
  · intro h
    cases h with
    | cons holds rest =>
      cases rest with
      | nil => rwa [append_nil]
  · intro h
    rw [← append_nil parts]
    exact .cons h .nil

theorem placed_nil (units : List Text) : Placed [] units := by
  induction units with
  | nil => exact .nil
  | cons unit units ih => exact .cons (show Holds [] unit from trivial) ih

theorem Placed.append (first : Placed parts units) (second : Placed more others) :
    Placed (parts ++ more) (units ++ others) := by
  induction first with
  | nil => exact second
  | cons holds _ ih =>
    rw [append_assoc]
    exact .cons holds ih

theorem Placed.holds (h : Placed parts units) (inside : Holds units t) : Holds parts t := by
  induction h generalizing t with
  | nil => trivial
  | @cons here there unit units holds _ ih =>
    obtain ⟨gap, rest, rfl, later⟩ := inside
    exact (holds.after gap).append (ih later)

theorem Placed.filter {keeps : Text → Bool} (h : Placed parts units)
    (spare : ∀ unit here, keeps unit = false → Holds here unit → here ⊆ parts → here = []) :
    Placed parts (units.filter keeps) := by
  induction h with
  | nil => exact .nil
  | @cons here there unit units holds _ ih =>
    have rest := ih fun unit here gone inside subset =>
      spare unit here gone inside fun _ member => mem_append_right _ (subset member)
    cases kept : keeps unit with
    | true =>
      rw [filter_cons_of_pos kept]
      exact .cons holds rest
    | false =>
      obtain rfl := spare unit here kept holds fun _ member => mem_append_left _ member
      rw [filter_cons_of_neg (by simp [kept])]
      exact rest

end Placed

/-- The number of occurrences met from the left, each after the end of the one before. -/
def occurrenceCount (sought t : Text) : Nat :=
  if _ne : sought = [] then 0
  else match _found : cut? sought t with
    | none => 0
    | some (_, tail) => occurrenceCount sought tail + 1
termination_by t.length
decreasing_by exact length_tail_of_cut? _ne _found

variable {sought : Text}

theorem exists_cut? (sought gap rest : Text) :
    ∃ before lead, cut? sought (gap ++ sought ++ rest) = some (before, lead ++ rest) := by
  have occurs : sought <:+: gap ++ sought ++ rest := ⟨gap, rest, rfl⟩
  obtain ⟨⟨before, tail⟩, found⟩ := Option.isSome_iff_exists.1 (isSome_cut?_iff.2 occurs)
  -- The occurrence found is as long as the given one and starts no later.
  have early := length_le_of_cut? found rfl
  have whole := eq_append_of_cut? found
  have shorter : rest.length ≤ tail.length := by
    have := congrArg length whole
    simp only [length_append] at this
    omega
  have given : tail <:+ gap ++ sought ++ rest := ⟨before ++ sought, whole.symm⟩
  obtain ⟨lead, rfl⟩ := suffix_of_suffix_length_le (suffix_append _ rest) given shorter
  exact ⟨before, lead, found⟩

theorem le_occurrenceCount_iff (ne : sought ≠ []) {n : Nat} {t : Text} :
    n ≤ occurrenceCount sought t ↔ Holds (replicate n sought) t := by
  induction n generalizing t with
  | zero => simp [Holds]
  | succ n ih =>
    rw [occurrenceCount, dif_neg ne]
    constructor
    · intro enough
      split at enough
      · omega
      · next before tail found =>
        exact ⟨before, tail, eq_append_of_cut? found, ih.1 (by omega)⟩
    · rintro ⟨gap, rest, rfl, later⟩
      obtain ⟨before, lead, found⟩ := exists_cut? sought gap rest
      have counted := ih.2 (later.after lead)
      split
      · next absent =>
        rw [found] at absent
        cases absent
      · next other tail again =>
        rw [found] at again
        cases again
        omega

end SfcJsx.Text
