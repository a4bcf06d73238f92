/-!
Text is a list of characters. Positions in a source are counted in UTF-8 bytes: `width` measures a
text, `from?` and `slice?` cut it at byte offsets and refuse an offset inside a character.
-/

namespace SfcJsx

abbrev Text := List Char

instance : Coe String Text := ⟨String.toList⟩

namespace Text

def width : Text → Nat
  | [] => 0
  | c :: rest => c.utf8Size + width rest

@[simp] theorem width_nil : width [] = 0 := rfl

@[simp] theorem width_cons (c : Char) (t : Text) : width (c :: t) = c.utf8Size + width t := rfl

@[simp] theorem width_append (s t : Text) : width (s ++ t) = width s + width t := by
  induction s with
  | nil => simp
  | cons c s ih => simp [ih, Nat.add_assoc]

theorem length_le_width (t : Text) : t.length ≤ width t := by
  induction t with
  | nil => simp
  | cons c t ih =>
    have := c.utf8Size_pos
    simp
    omega

theorem width_pos {t : Text} (ne : t ≠ []) : 0 < width t :=
  Nat.lt_of_lt_of_le (List.length_pos_iff.2 ne) (length_le_width t)

def from? : Text → Nat → Option Text
  | t, 0 => some t
  | [], _ + 1 => none
  | c :: rest, n + 1 => if c.utf8Size ≤ n + 1 then from? rest (n + 1 - c.utf8Size) else none

@[simp] theorem from?_zero (t : Text) : from? t 0 = some t := by
  cases t <;> rfl

theorem exists_width_cons (c : Char) (s : Text) : ∃ n, c.utf8Size + width s = n + 1 ∧
    c.utf8Size ≤ n + 1 ∧ n + 1 - c.utf8Size = width s := by
  have := c.utf8Size_pos
  exact ⟨c.utf8Size + width s - 1, by omega, by omega, by omega⟩

theorem from?_width_append (s t : Text) : from? (s ++ t) (width s) = some t := by
  induction s with
  | nil => simp
  | cons c s ih =>
    obtain ⟨n, hn, hle, hsub⟩ := exists_width_cons c s
    simp [hn, from?, hle, hsub, ih]

def upTo? : Text → Nat → Option Text
  | _, 0 => some []
  | [], _ + 1 => none
  | c :: rest, n + 1 =>
    if c.utf8Size ≤ n + 1 then (upTo? rest (n + 1 - c.utf8Size)).map (c :: ·) else none

theorem upTo?_width_append (s t : Text) : upTo? (s ++ t) (width s) = some s := by
  induction s with
  | nil => cases t <;> rfl
  | cons c s ih =>
    obtain ⟨n, hn, hle, hsub⟩ := exists_width_cons c s
    simp [hn, upTo?, hle, hsub, ih]

def slice? (t : Text) (start stop : Nat) : Option Text :=
  if start ≤ stop then (t.from? start).bind (upTo? · (stop - start)) else none

theorem slice?_append (s t u : Text) :
    slice? (s ++ t ++ u) (width s) (width s + width t) = some t := by
  simp [slice?, List.append_assoc, from?_width_append, upTo?_width_append]

def dropBytes (t : Text) (start : Nat) : Text := (t.from? start).getD []

def slice (t : Text) (start stop : Nat) : Text := (t.slice? start stop).getD []

def after? : (lead t : Text) → Option Text
  | [], t => some t
  | _ :: _, [] => none
  | a :: lead, c :: t => if a = c then after? lead t else none

theorem after?_eq_some_iff {lead t rest : Text} : after? lead t = some rest ↔ t = lead ++ rest := by
  induction lead generalizing t with
  | nil => simp [after?]
  | cons a lead ih =>
    cases t with
    | nil => simp [after?]
    | cons c t =>
      by_cases h : a = c
      · simp [after?, h, ih]
      · simp [after?, h, Ne.symm h]

def startsWith (t lead : Text) : Bool := (after? lead t).isSome

theorem startsWith_eq_true_iff {t lead : Text} :
    t.startsWith lead = true ↔ ∃ rest, t = lead ++ rest := by
  simp [startsWith, Option.isSome_iff_exists, after?_eq_some_iff]

def before? (tail t : Text) : Option Text :=
  (after? tail.reverse t.reverse).map List.reverse

def endsWith (t tail : Text) : Bool := (before? tail t).isSome

def cut? (sought : Text) : Text → Option (Text × Text)
  | [] => if sought.isEmpty then some ([], []) else none
  | c :: rest =>
    match after? sought (c :: rest) with
    | some tail => some ([], tail)
    | none => (cut? sought rest).map fun (before, tail) => (c :: before, tail)

theorem eq_append_of_cut? {sought t before tail : Text}
    (h : cut? sought t = some (before, tail)) : t = before ++ sought ++ tail := by
  induction t generalizing before with
  | nil =>
    simp only [cut?] at h
    split at h <;> simp_all
  | cons c t ih =>
    simp only [cut?] at h
    split at h
    · next found =>
      obtain ⟨rfl, rfl⟩ := by simpa using h
      simpa using after?_eq_some_iff.1 found
    · cases hc : cut? sought t with
      | none => simp [hc] at h
      | some pair =>
        obtain ⟨b, a⟩ := pair
        obtain ⟨rfl, rfl⟩ := by simpa [hc] using h
        simp [ih hc]

def containsText (t sought : Text) : Bool := (cut? sought t).isSome

theorem length_tail_of_cut? {sought t before tail : Text} (ne : sought ≠ [])
    (h : cut? sought t = some (before, tail)) : tail.length < t.length := by
  have := List.length_pos_iff.2 ne
  rw [eq_append_of_cut? h]
  simp
  omega

/-- Puts `new` for every occurrence of `old`, from left to right; an empty `old` occurs nowhere. -/
def replace (old new : Text) (t : Text) : Text :=
  if _ne : old = [] then t
  else match _found : cut? old t with
    | none => t
    | some (before, tail) => before ++ new ++ replace old new tail
termination_by t.length
decreasing_by exact length_tail_of_cut? _ne _found

def fields (isSeparator : Char → Bool) : Text → List Text
  | [] => [[]]
  | c :: rest =>
    match fields isSeparator rest with
    | [] => [[c]]
    | piece :: pieces => if isSeparator c then [] :: piece :: pieces else (c :: piece) :: pieces

def breakAt (isStop : Char → Bool) (t : Text) : Text × Text :=
  (t.takeWhile (!isStop ·), t.dropWhile (!isStop ·))

def ofNat (n : Nat) : Text := (Nat.repr n).toList

end Text

end SfcJsx
