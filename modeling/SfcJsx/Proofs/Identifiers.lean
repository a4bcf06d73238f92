import SfcJsx.Text.Blank
import SfcJsx.Text.Identifier

/-!
The characters of names against blanks, digits and punctuation, and the words that a text starts
with.
-/

namespace SfcJsx.Text

open List

variable {c : Char} {p : Char → Bool} {name t rest : Text}

theorem isIdentChar_of_isBlank (blank : isBlank c) : isIdentChar c = false := by
  let codes := blankRanges.flatMap fun range => range' range.1 (range.2 + 1 - range.1)
  have apart : ∀ code ∈ codes, isIdentChar (Char.ofNat code) = false := by decide +kernel
  obtain ⟨range, member, lower, upper⟩ := (Ranges.covers_eq_true_iff _ _).1 blank
  have listed : c.toNat ∈ codes := mem_flatMap.2 ⟨range, member, mem_range'_1.2 (by omega)⟩
  simpa using apart c.toNat listed

theorem isIdentStart_of_isAlpha (alpha : c.isAlpha) : isIdentStart c := by
  have small : c.toNat < 0x80 := by
    rcases Bool.or_eq_true_iff.1 alpha with upper | lower
    · have last := (of_decide_eq_true upper).2
      exact Nat.lt_of_le_of_lt (UInt32.le_iff_toNat_le.1 last) (by decide)
    · have last := of_decide_eq_true (Bool.and_eq_true_iff.1 lower).2
      exact Nat.lt_of_le_of_lt (UInt32.le_iff_toNat_le.1 last) (by decide)
  rw [isIdentStart, isAlphabetic, if_pos small, alpha]
  rfl

theorem isDigit_range (digit : c.isDigit) : 48 ≤ c.toNat ∧ c.toNat ≤ 57 := by
  simp only [Char.isDigit, Bool.and_eq_true, decide_eq_true_eq, UInt32.le_iff_toNat_le] at digit
  exact digit

theorem isIdentStart_of_isDigit (digit : c.isDigit) : isIdentStart c = false := by
  have starts : ∀ code ∈ range' 48 10, isIdentStart (Char.ofNat code) = false := by
    decide +kernel
  have := isDigit_range digit
  simpa using starts c.toNat (mem_range'_1.2 (by omega))

theorem isIdentChar_of_isDigit (digit : c.isDigit) : isIdentChar c := by
  have small : c.toNat < 0x80 := by have := isDigit_range digit; omega
  rw [isIdentChar, isAlphanumeric, isNumeric, if_pos small, digit]
  simp

theorem isIdentStart_eq_false (other : isIdentChar c = false) : isIdentStart c = false := by
  cases start : isIdentStart c with
  | false => rfl
  | true => rw [isIdentChar_of_isIdentStart start] at other; cases other

theorem isDigit_eq_false (other : isIdentChar c = false) : c.isDigit = false := by
  cases digit : c.isDigit with
  | false => rfl
  | true => rw [isIdentChar_of_isDigit digit] at other; cases other

theorem isDigit_of_isIdentStart (start : isIdentStart c) : c.isDigit = false := by
  cases digit : c.isDigit with
  | false => rfl
  | true => rw [isIdentStart_of_isDigit digit] at start; cases start

theorem isBlank_eq_false (inName : isIdentChar c) : isBlank c = false := by
  cases blank : isBlank c with
  | false => rfl
  | true => rw [isIdentChar_of_isBlank blank] at inName; cases inName

theorem not_mem_of_any (inClass : p c) {marks : Text}
    (apart : marks.any p = false) : c ∉ marks := by
  intro member
  rw [any_eq_true.2 ⟨c, member, inClass⟩] at apart
  cases apart

theorem exists_start (named : isIdentifier name) : ∃ c tail, name = c :: tail ∧ isIdentStart c := by
  cases name with
  | nil => cases named
  | cons c tail =>
    rw [isIdentifier, Bool.and_eq_true] at named
    exact ⟨c, tail, rfl, named.1⟩

theorem isIdentChar_of_mem (named : isIdentifier name) : ∀ c ∈ name, isIdentChar c := by
  cases name with
  | nil => cases named
  | cons c tail =>
    rw [isIdentifier, Bool.and_eq_true, all_eq_true] at named
    rintro d (_ | ⟨_, inside⟩)
    · exact isIdentChar_of_isIdentStart named.1
    · exact named.2 d inside

theorem takeWhile_of_head? (stops : t.head?.any p = false) : t.takeWhile p = [] := by
  cases t with
  | nil => rfl
  | cons c t =>
    have : p c = false := stops
    simp [this]

theorem takeWhile_append {run : Text} (inside : ∀ c ∈ run, p c)
    (stops : rest.head?.any p = false) : (run ++ rest).takeWhile p = run := by
  rw [takeWhile_append_of_pos inside, takeWhile_of_head? stops, append_nil]

theorem takeWhile_append_of_head? {tail : Text} (stops : tail.head?.any p = false)
    (t : Text) : (t ++ tail).takeWhile p = t.takeWhile p := by
  rw [List.takeWhile_append, takeWhile_of_head? stops]
  split
  · next all =>
    rw [append_nil]
    exact ((List.takeWhile_prefix p).eq_of_length all).symm
  · rfl

theorem dropWhile_of_head? (stops : t.head?.any p = false) : t.dropWhile p = t := by
  cases t with
  | nil => rfl
  | cons c t =>
    have : p c = false := stops
    simp [this]

theorem trimStart_cons (blank : isBlank c) (t : Text) : trimStart (c :: t) = trimStart t :=
  dropWhile_cons_of_pos blank

theorem trimStart_append (t tail : Text) : (t ++ tail).trimStart =
    if t.trimStart = [] then tail.trimStart else t.trimStart ++ tail := by
  rw [trimStart, dropWhile_append]
  simp only [List.isEmpty_iff]
  rfl

theorem trim_cons (blank : isBlank c) (t : Text) : trim (c :: t) = trim t :=
  congrArg trimEnd (trimStart_cons blank t)

theorem trim_append_blanks {gap : Text} (blank : ∀ c ∈ gap, isBlank c) :
    trim (t ++ gap) = t.trim := by
  have none : trimStart (gap ++ []) = [] := dropWhile_append_of_pos blank
  rw [append_nil] at none
  have ends (s : Text) : (s ++ gap).trimEnd = s.trimEnd := by
    have last : ∀ c ∈ gap.reverse, isBlank c := by simpa using blank
    rw [trimEnd, reverse_append, dropWhile_append_of_pos last, trimEnd]
  rw [trim, trim, trimStart_append, none]
  split
  · next empty => rw [empty]
  · exact ends _

theorem trim_concat (blank : isBlank c) (t : Text) : trim (t ++ [c]) = trim t :=
  trim_append_blanks (forall_mem_singleton.2 blank)

theorem head?_dropWhile (p : Char → Bool) (t : Text) : (t.dropWhile p).head?.any p = false := by
  have stops := head?_dropWhile_not p t
  cases first : (t.dropWhile p).head? with
  | none => rfl
  | some c => simpa [first] using stops

theorem takeWhile_name (named : isIdentifier name)
    (ended : rest.head?.any isIdentChar = false) : (name ++ rest).takeWhile isIdentChar = name :=
  takeWhile_append (isIdentChar_of_mem named) ended

end SfcJsx.Text
