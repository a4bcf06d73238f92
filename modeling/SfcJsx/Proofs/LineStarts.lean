import SfcJsx.Source.LineIndex

/-!
Offsets and positions of a text, told by its bytes. A line feed is a byte of its own, so the table
of line starts may be read off the bytes: the line of an offset is the number of line feeds before
it. On the way back, a line's start and a column are added as words, so a position outside of the
text has no offset, or is an error where the sum is no word.
-/

namespace SfcJsx

open List

variable {t : Text} {o l c s : Nat} {a : Char}

def Text.bytes (t : Text) : List UInt8 := t.flatMap String.utf8EncodeChar

theorem Text.length_bytes (t : Text) : t.bytes.length = t.width := by
  induction t with
  | nil => rfl
  | cons c t ih =>
    rw [bytes, flatMap_cons, length_append, String.length_utf8EncodeChar, width_cons, ← ih, bytes]

namespace LineIndex

def lineFeed : UInt8 := 10

variable {bs : List UInt8}

/-- Line `0` starts with the text, and line `l + 1` behind a line feed that `l` others precede. -/
def StartsLine (bs : List UInt8) : Nat → Nat → Prop
  | 0, start => start = 0
  | line + 1, start =>
    ∃ k, start = k + 1 ∧ bs[k]? = some lineFeed ∧ (bs.take k).count lineFeed = line

theorem toNat_of_mem_utf8EncodeChar {b : UInt8} (member : b ∈ String.utf8EncodeChar a) :
    b.toNat = a.toNat ∨ 128 ≤ b.toNat := by
  unfold String.utf8EncodeChar at member
  grind [UInt8.toNat_ofNat', Char.toNat]

theorem lineFeed_not_mem (other : a ≠ '\n') : lineFeed ∉ String.utf8EncodeChar a := by
  intro member
  rcases toNat_of_mem_utf8EncodeChar member with same | high
  · exact other (Char.toNat_inj.1 same.symm)
  · exact absurd high (by decide)

def startsIn (offset : Nat) : List UInt8 → List Nat
  | [] => []
  | b :: rest =>
    if b = lineFeed then (offset + 1) :: startsIn (offset + 1) rest else startsIn (offset + 1) rest

theorem startsIn_append {word : List UInt8} (none : lineFeed ∉ word) (offset : Nat) :
    startsIn offset (word ++ bs) = startsIn (offset + word.length) bs := by
  induction word generalizing offset with
  | nil => rfl
  | cons b word ih =>
    rw [mem_cons, not_or] at none
    rw [cons_append, startsIn, if_neg (Ne.symm none.1), ih none.2, length_cons, Nat.add_assoc,
      Nat.add_comm 1]

theorem startsAfter_eq (offset : Nat) (t : Text) :
    startsAfter offset t = startsIn offset t.bytes := by
  induction t generalizing offset with
  | nil => rfl
  | cons a t ih =>
    rw [startsAfter, Text.bytes, flatMap_cons]
    split
    · next feed =>
      subst feed
      rw [ih]
      rfl
    · next other =>
      rw [startsIn_append (lineFeed_not_mem other), String.length_utf8EncodeChar, ih]
      rfl

theorem getElem?_startsIn (offset : Nat) : (startsIn offset bs)[l]? = some s ↔
    ∃ k, s = offset + k + 1 ∧ bs[k]? = some lineFeed ∧ (bs.take k).count lineFeed = l := by
  induction bs generalizing offset l with
  | nil => simp [startsIn]
  | cons b bs ih =>
    rw [← Nat.or_exists_add_one, startsIn]
    by_cases feed : b = lineFeed
    · cases l <;> simp [feed, ih, Nat.add_assoc, Nat.add_comm 1, eq_comm]
    · simp [feed, ih, Nat.add_assoc, Nat.add_comm 1]

theorem getElem?_starts : (ofText t).starts[l]? = some s ↔ StartsLine t.bytes l s := by
  rw [ofText, startsAfter_eq]
  cases l with
  | zero => simp [StartsLine, eq_comm]
  | succ l => simp [StartsLine, getElem?_startsIn]

theorem length_takeWhile_startsIn (offset n : Nat) :
    ((startsIn offset bs).takeWhile (· ≤ offset + n)).length = (bs.take n).count lineFeed := by
  induction bs generalizing offset n with
  | nil => simp [startsIn]
  | cons b bs ih =>
    cases n with
    | zero =>
      cases first : startsIn offset (b :: bs) with
      | nil => rfl
      | cons s rest =>
        obtain ⟨k, after, -⟩ := (getElem?_startsIn (l := 0) offset).1 (by rw [first]; rfl)
        have late : ¬ s ≤ offset := by omega
        simp [late]
    | succ n =>
      have next := ih (offset + 1) n
      rw [Nat.add_right_comm, Nat.add_assoc] at next
      by_cases feed : b = lineFeed
      · rw [startsIn, if_pos feed, takeWhile_cons_of_pos (by simp), length_cons, next, feed,
          take_succ_cons, count_cons_self]
      · simp [startsIn, feed, next]

theorem StartsLine.count_take (starts : StartsLine bs l s) : (bs.take s).count lineFeed = l := by
  cases l with
  | zero => simp [show s = 0 from starts]
  | succ l =>
    obtain ⟨k, rfl, feed, before⟩ := starts
    rw [take_add_one, feed, count_append, before]
    rfl

theorem StartsLine.unique {s' : Nat} (first : StartsLine t.bytes l s)
    (second : StartsLine t.bytes l s') : s = s' :=
  Option.some.inj ((getElem?_starts.2 first).symm.trans (getElem?_starts.2 second))

theorem length_takeWhile_starts (o : Nat) : ((ofText t).starts.takeWhile (· ≤ o)).length =
    (t.bytes.take o).count lineFeed + 1 := by
  have later : ((startsIn 0 t.bytes).takeWhile (· ≤ o)).length =
      (t.bytes.take o).count lineFeed := by simpa using length_takeWhile_startsIn 0 o
  simp [ofText, startsAfter_eq, later]

theorem exists_start (o : Nat) : ∃ s, s ≤ o ∧
    (ofText t).starts[(t.bytes.take o).count lineFeed]? = some s := by
  have inside := Nat.lt_succ_self ((t.bytes.take o).count lineFeed)
  rw [Nat.succ_eq_add_one, ← length_takeWhile_starts] at inside
  have held := all_eq_true.1 all_takeWhile _ (getElem_mem inside)
  rw [(List.takeWhile_prefix _).getElem] at held
  exact ⟨_, by simpa using held, getElem?_eq_getElem _⟩

theorem position?_eq_some_iff : (ofText t).position? o = some ⟨l, c⟩ ↔
    o ≤ t.width ∧ (t.bytes.take o).count lineFeed = l ∧
      ∃ s, StartsLine t.bytes l s ∧ s + c = o := by
  obtain ⟨s, early, first⟩ := exists_start (t := t) o
  have starts := getElem?_starts.1 first
  have read : (ofText t).starts.getD ((t.bytes.take o).count lineFeed) 0 = s := by
    rw [getD_eq_getElem?_getD, first, Option.getD_some]
  simp only [position?, length_takeWhile_starts, Nat.add_sub_cancel, read]
  constructor
  · intro found
    split at found
    · next inside =>
      obtain ⟨rfl, rfl⟩ := Position.mk.inj (Option.some.inj found)
      exact ⟨inside, rfl, s, starts, Nat.add_sub_cancel' early⟩
    · cases found
  · rintro ⟨inside, rfl, s', starts', rfl⟩
    obtain rfl := starts.unique starts'
    have size : s + c ≤ (ofText t).size := inside
    rw [if_pos size, Nat.add_sub_cancel_left]

theorem position?_eq_none_iff : (ofText t).position? o = none ↔ t.width < o := by
  rw [position?]
  simp [ofText]

theorem offset?_of_starts (starts : StartsLine t.bytes l s) (c : Nat) : (ofText t).offset? ⟨l, c⟩ =
    if s + c < UInt32.size then .ok (if s + c ≤ t.width then some (s + c) else none)
    else .error .overflow := by
  simp only [offset?, getElem?_starts.2 starts]
  split
  · next fits => rw [addWords_of_lt fits]; rfl
  · next large => rw [addWords_of_le (Nat.not_lt.1 large)]; rfl

theorem offset?_of_not_starts (absent : ∀ s, ¬ StartsLine t.bytes l s) (c : Nat) :
    (ofText t).offset? ⟨l, c⟩ = .ok none := by
  cases line : (ofText t).starts[l]? with
  | none => simp only [offset?, line]
  | some s => exact absurd (getElem?_starts.1 line) (absent s)

theorem offset?_eq_some_iff (short : t.width < UInt32.size) :
    (ofText t).offset? ⟨l, c⟩ = .ok (some o) ↔
      o ≤ t.width ∧ ∃ s, StartsLine t.bytes l s ∧ s + c = o := by
  constructor
  · intro found
    by_cases line : ∃ s, StartsLine t.bytes l s
    · obtain ⟨s, starts⟩ := line
      rw [offset?_of_starts starts] at found
      grind
    · rw [offset?_of_not_starts (not_exists.1 line)] at found
      cases found
  · rintro ⟨inside, s, starts, rfl⟩
    rw [offset?_of_starts starts, if_pos (by omega), if_pos inside]

theorem offset?_eq_none_iff : (ofText t).offset? ⟨l, c⟩ = .ok none ↔
    ∀ s, StartsLine t.bytes l s → t.width < s + c ∧ s + c < UInt32.size := by
  constructor
  · intro found s starts
    rw [offset?_of_starts starts] at found
    grind
  · intro outside
    by_cases line : ∃ s, StartsLine t.bytes l s
    · obtain ⟨s, starts⟩ := line
      obtain ⟨behind, fits⟩ := outside s starts
      rw [offset?_of_starts starts, if_pos fits, if_neg (Nat.not_le.2 behind)]
    · exact offset?_of_not_starts (not_exists.1 line) c

theorem offset?_eq_overflow_iff : (ofText t).offset? ⟨l, c⟩ = .error .overflow ↔
    ∃ s, StartsLine t.bytes l s ∧ UInt32.size ≤ s + c := by
  constructor
  · intro found
    by_cases line : ∃ s, StartsLine t.bytes l s
    · obtain ⟨s, starts⟩ := line
      rw [offset?_of_starts starts] at found
      exact ⟨s, starts, by grind⟩
    · rw [offset?_of_not_starts (not_exists.1 line)] at found
      cases found
  · rintro ⟨s, starts, large⟩
    rw [offset?_of_starts starts, if_neg (Nat.not_lt.2 large)]

theorem position?_eq_some_iff_of_starts (starts : StartsLine t.bytes l s)
    (inside : s + c ≤ t.width) : (ofText t).position? (s + c) = some ⟨l, c⟩ ↔
      lineFeed ∉ (t.bytes.take (s + c)).drop s := by
  have between : (t.bytes.take (s + c)).count lineFeed =
      l + ((t.bytes.take (s + c)).drop s).count lineFeed := by
    have split := congrArg (count lineFeed) (take_append_drop s (t.bytes.take (s + c)))
    rw [count_append, take_take, Nat.min_eq_left (Nat.le_add_right s c), starts.count_take] at split
    exact split.symm
  rw [position?_eq_some_iff, ← count_eq_zero]
  constructor
  · rintro ⟨-, line, -⟩
    omega
  · intro none
    exact ⟨inside, by omega, s, starts, rfl⟩

/-- What the positions and the offsets of a text say of each other, at an offset and a position. -/
structure Inverts (t : Text) (o l c : Nat) : Prop where
  outside : (ofText t).position? o = none ↔ t.width < o
  /-- The line is told by the line feeds before the offset, the column by the start of the line. -/
  inside : (ofText t).position? o = some ⟨l, c⟩ ↔ o ≤ t.width ∧
    (t.bytes.take o).count lineFeed = l ∧ ∃ s, StartsLine t.bytes l s ∧ s + c = o
  back : ∀ p, (ofText t).position? o = some p → (ofText t).offset? p = .ok (some o)
  found : (ofText t).offset? ⟨l, c⟩ = .ok (some o) ↔
    o ≤ t.width ∧ ∃ s, StartsLine t.bytes l s ∧ s + c = o
  absent : (ofText t).offset? ⟨l, c⟩ = .ok none ↔
    ∀ s, StartsLine t.bytes l s → t.width < s + c ∧ s + c < UInt32.size
  overflow : (ofText t).offset? ⟨l, c⟩ = .error .overflow ↔
    ∃ s, StartsLine t.bytes l s ∧ UInt32.size ≤ s + c
  /-- A position is that of its offset unless its column leads into a later line. -/
  forth : ∀ s, StartsLine t.bytes l s → (ofText t).offset? ⟨l, c⟩ = .ok (some o) →
    ((ofText t).position? o = some ⟨l, c⟩ ↔ lineFeed ∉ (t.bytes.take o).drop s)

/-- Positions and offsets of a text are inverse to each other. A position outside of the text has no
offset, but one whose line start and column have no sum of 32 bits is an error. -/
theorem positions_invert_offsets (short : t.width < UInt32.size) (o l c : Nat) :
    Inverts t o l c where
  outside := position?_eq_none_iff
  inside := position?_eq_some_iff
  back p found := by
    obtain ⟨inside, -, s, starts, sum⟩ := position?_eq_some_iff.1 found
    exact (offset?_eq_some_iff short).2 ⟨inside, s, starts, sum⟩
  found := offset?_eq_some_iff short
  absent := offset?_eq_none_iff
  overflow := offset?_eq_overflow_iff
  forth s starts found := by
    obtain ⟨inside, s', starts', rfl⟩ := (offset?_eq_some_iff short).1 found
    obtain rfl := starts.unique starts'
    exact position?_eq_some_iff_of_starts starts inside

theorem positions_invert_offsets_accent : Text.width "é\nb" < UInt32.size ∧
    (ofText "é\nb").position? 4 = some ⟨1, 1⟩ ∧ (ofText "é\nb").offset? ⟨1, 1⟩ = .ok (some 4) := by
  have found : (ofText "é\nb").position? 4 = some ⟨1, 1⟩ := by decide
  exact ⟨by decide, found, (positions_invert_offsets (t := "é\nb") (by decide) 4 1 1).back _ found⟩

/-- The second line of this text has no column beyond three. -/
theorem offset?_overflows :
    (ofText "one\ntwo").offset? ⟨1, 4294967292⟩ = .error .overflow := by
  have starts : StartsLine (Text.bytes "one\ntwo") 1 4 := getElem?_starts.1 (by decide)
  exact offset?_eq_overflow_iff.2 ⟨4, starts, by decide⟩

end LineIndex

end SfcJsx
