import SfcJsx.Code.Word
import SfcJsx.Proofs.PieceCut

/-!
Where a name occurs in code: at the places where it stands alone, in order. A character that the
name does not have separates the occurrences before it from those behind it.
-/

namespace SfcJsx.Code

open List Text

variable {name s t after : Text} {flags : List Bool} {i index skip : Nat} {c : Char}
  {before before' : Option Char}

theorem occurrencesFrom_append_cons (ne : name ≠ []) (apart : c ∉ name) (s t : Text)
    (before : Option Char) (index : Nat) (short : skip ≤ s.length)
    (long : flags.length = s.length) (flag : Bool) (more : List Bool) :
    occurrencesFrom name before index skip (s ++ c :: t) (flags ++ flag :: more) =
      occurrencesFrom name before index skip (s ++ [c]) (flags ++ [flag]) ++
        occurrencesFrom name (some c) (index + s.length + 1) 0 t more := by
  induction s generalizing before index skip flags with
  | nil =>
    obtain rfl : skip = 0 := Nat.le_zero.1 short
    obtain rfl := length_eq_zero_iff.1 long
    obtain ⟨d, tail, rfl⟩ := exists_cons_of_ne_nil ne
    have other : d ≠ c := fun same => apart (by simp [same])
    simp [occurrencesFrom, after?, other]
  | cons d s ih =>
    obtain ⟨first, flags, rfl⟩ := exists_cons_of_length_eq_add_one long
    have step {skip : Nat} (short : skip ≤ s.length) :
        occurrencesFrom name (some d) (index + 1) skip (s ++ c :: t) (flags ++ flag :: more) =
          occurrencesFrom name (some d) (index + 1) skip (s ++ [c]) (flags ++ [flag]) ++
            occurrencesFrom name (some c) (index + (d :: s).length + 1) 0 t more := by
      rw [ih (some d) (index + 1) short (Nat.succ.inj long), length_cons,
        Nat.add_right_comm index 1, Nat.add_assoc index s.length 1]
    cases skip with
    | succ skip => exact step (Nat.le_of_succ_le_succ short)
    | zero =>
      rcases after?_of_break apart (d :: s) with ⟨rest, same⟩ | absent
      · have inside : name.length - 1 ≤ s.length := by
          have := congrArg length same
          simp only [length_append, length_cons] at this
          omega
        have found (u : Text) : after? name (d :: (s ++ c :: u)) = some (rest ++ c :: u) := by
          rw [← cons_append, same, append_assoc, after?_append]
        have head (u : Text) : isStandalone before (rest ++ c :: u) =
            isStandalone before (rest ++ [c]) := by
          cases rest <;> rfl
        simp only [cons_append, occurrencesFrom, found, head t, tail_cons, headD_cons, step inside]
        split <;> next here => simp [here]
      · simp only [cons_append] at absent
        simp only [cons_append, occurrencesFrom, absent]
        exact step (Nat.zero_le _)

def partsNames (before : Option Char) : Bool :=
  !before.any fun c => isIdentChar c || c == '.'

theorem occurrencesFrom_shift (same : partsNames before = partsNames before')
    (index shift skip : Nat) (t : Text)
    (flags : List Bool) :
    occurrencesFrom name before' (index + shift) skip t flags =
      (occurrencesFrom name before index skip t flags).map (· + shift) := by
  induction t generalizing before before' index skip flags with
  | nil => rfl
  | cons c t ih =>
    have later (skip : Nat) :
        occurrencesFrom name (some c) (index + shift + 1) skip t flags.tail =
          (occurrencesFrom name (some c) (index + 1) skip t flags.tail).map (· + shift) := by
      rw [Nat.add_right_comm]
      exact ih rfl _ _ _
    cases skip with
    | succ skip => exact later skip
    | zero =>
      have standalone (after : Text) : isStandalone before after = isStandalone before' after :=
        congrArg (· && _) same
      simp only [occurrencesFrom, later, standalone]
      split
      · split <;> rfl
      · rfl

theorem exists_of_mem_occurrencesFrom (mem : i ∈ occurrencesFrom name before index skip t flags) :
    ∃ s after, t = s ++ (name ++ after) ∧ i = index + s.length ∧ s.length < t.length ∧
      isStandalone (s.getLast?.or before) after ∧
        (flags.drop s.length).headD false := by
  induction t generalizing before index skip flags with
  | nil => simp [occurrencesFrom] at mem
  | cons c t ih =>
    have later {skip : Nat}
        (mem : i ∈ occurrencesFrom name (some c) (index + 1) skip t flags.tail) :
        ∃ s after, c :: t = s ++ (name ++ after) ∧ i = index + s.length ∧
          s.length < (c :: t).length ∧ isStandalone (s.getLast?.or before) after ∧
          (flags.drop s.length).headD false := by
      obtain ⟨s, after, rfl, rfl, short, standalone, flagged⟩ := ih mem
      refine ⟨c :: s, after, rfl, by simp only [length_cons]; omega, Nat.succ_lt_succ short, ?_, ?_⟩
      · rw [getLast?_cons]
        cases last : s.getLast? <;> simpa [last] using standalone
      · simpa [drop_tail] using flagged
    cases skip with
    | succ skip => exact later mem
    | zero =>
      simp only [occurrencesFrom] at mem
      split at mem
      · next after found =>
        split at mem
        · next here =>
          rcases mem_cons.1 mem with rfl | mem
          · rw [Bool.and_eq_true] at here
            exact ⟨[], after, by simpa using after?_eq_some_iff.1 found, rfl,
              Nat.succ_pos t.length, here.1, here.2⟩
          · exact later mem
        · exact later mem
      · exact later mem

theorem mem_occurrencesFrom (mem : i ∈ occurrencesFrom name before index skip t flags) :
    index ≤ i ∧ i < index + t.length := by
  obtain ⟨s, after, -, rfl, short, -⟩ := exists_of_mem_occurrencesFrom mem
  omega

theorem exists_occurrencesFrom_name (ne : name ≠ []) (parted : partsNames before)
    {after : Text} (ends : after.head?.any isIdentChar = false) (index : Nat) (flags : List Bool) :
    ∃ later, occurrencesFrom name before index 0 (name ++ after) (true :: flags) =
      index :: later := by
  obtain ⟨c, tail, rfl⟩ := exists_cons_of_ne_nil ne
  have found := after?_append (c :: tail) after
  have standalone : isStandalone before after := by
    simp only [isStandalone, ends, Bool.not_false, Bool.and_true]
    exact parted
  rw [cons_append] at found ⊢
  simp only [occurrencesFrom, found, standalone, headD_cons, Bool.and_self, ↓reduceIte]
  exact ⟨_, rfl⟩

theorem mem_occurrencesFrom_of_isStandalone (ne : name ≠ []) (named : name.all isIdentChar)
    (passed : skip = 0 ∨ before.any isIdentChar ∧ (t.take skip).all isIdentChar)
    (occurs : t = s ++ (name ++ after)) (alone : isStandalone (s.getLast?.or before) after)
    (flagged : (flags.drop s.length).headD false) :
    index + s.length ∈ occurrencesFrom name before index skip t flags := by
  induction s generalizing t before index skip flags with
  | nil =>
    rw [getLast?_nil, Option.none_or, isStandalone, Bool.and_eq_true] at alone
    obtain rfl : skip = 0 := by
      refine passed.resolve_right fun inName => ?_
      cases before with
      | none => cases inName.1
      | some c => simp [show isIdentChar c from inName.1] at alone
    obtain ⟨flags, rfl⟩ : ∃ rest, flags = true :: rest := by
      cases flags with
      | nil => cases flagged
      | cons flag flags => exact ⟨flags, by rw [show flag = true from flagged]⟩
    obtain ⟨later, first⟩ := exists_occurrencesFrom_name ne alone.1 (by simpa using alone.2) index
      flags
    rw [occurs, nil_append, first]
    exact mem_cons_self
  | cons d s ih =>
    subst occurs
    have later {k : Nat} (passed : k = 0 ∨
        isIdentChar d ∧ ((s ++ (name ++ after)).take k).all isIdentChar) :
        index + (d :: s).length ∈
          occurrencesFrom name (some d) (index + 1) k (s ++ (name ++ after)) flags.tail := by
      rw [length_cons, Nat.add_comm s.length, ← Nat.add_assoc]
      refine ih passed rfl ?_ (by rwa [drop_tail])
      rw [getLast?_cons] at alone
      cases last : s.getLast? <;> simpa [last] using alone
    cases skip with
    | succ k =>
      have inName := passed.resolve_left (Nat.succ_ne_zero k)
      rw [cons_append, take_succ_cons, all_cons, Bool.and_eq_true] at inName
      exact later (.inr inName.2)
    | zero =>
      rw [cons_append]
      simp only [occurrencesFrom]
      split
      · next rest found =>
        have whole := after?_eq_some_iff.1 found
        obtain ⟨c, tail, rfl⟩ := exists_cons_of_ne_nil ne
        obtain ⟨rfl, whole⟩ := cons.inj whole
        rw [all_cons, Bool.and_eq_true] at named
        have mem := @later tail.length (.inr ⟨named.1, by rw [whole]; simpa using named.2⟩)
        split
        · exact mem_cons_of_mem _ mem
        · exact mem
      · exact later (.inl rfl)

theorem pairwise_occurrencesFrom (before : Option Char) (index skip : Nat) (t : Text)
    (flags : List Bool) : (occurrencesFrom name before index skip t flags).Pairwise (· < ·) := by
  induction t generalizing before index skip flags with
  | nil => exact .nil
  | cons c t ih =>
    cases skip with
    | succ k => exact ih _ _ _ _
    | zero =>
      simp only [occurrencesFrom]
      split
      · split
        · exact pairwise_cons.2 ⟨fun _ mem => (mem_occurrencesFrom mem).1, ih _ _ _ _⟩
        · exact ih _ _ _ _
      · exact ih _ _ _ _

def EndsWord (s : Text) : Prop :=
  s = [] ∨ ∃ init c, s = init ++ [c] ∧ isIdentChar c = false ∧ c ≠ '.'

theorem occurrences_zero (t : Text) (flags : List Bool) :
    occurrences t flags name 0 = occurrencesFrom name none 0 0 t flags := rfl

theorem length_mask (t : Text) : (mask t).length = t.length := by
  have := congrArg length (map_fst_marked t)
  simpa [mask] using this

theorem Parts.mask_append (parts : Parts s t) : mask (s ++ t) = mask s ++ mask t := by
  simp [mask, parts.marked_append]

theorem drop_mask_append (s : Text) (flags : List Bool) :
    (mask s ++ flags).drop s.length = flags := by
  rw [← length_mask s, drop_left]

theorem endsWord_of_partsNames (parted : partsNames s.getLast?) : EndsWord s := by
  rcases eq_nil_or_concat s with rfl | ⟨init, c, rfl⟩
  · exact .inl rfl
  · rw [concat_eq_append] at parted ⊢
    have : isIdentChar c = false ∧ c ≠ '.' := by simpa [partsNames] using parted
    exact .inr ⟨init, c, rfl, this⟩

theorem parts_of_mask {u : Text} (flagged : ((mask (s ++ c :: u)).drop s.length).headD false) :
    Parts s (c :: u) := by
  have chars : ((marked (s ++ c :: u)).drop s.length).map (·.1) = c :: u := by
    rw [map_drop, map_fst_marked, drop_left]
  rw [mask, ← map_drop] at flagged
  cases later : (marked (s ++ c :: u)).drop s.length with
  | nil => simp [later] at chars
  | cons m b =>
    obtain ⟨d, flag⟩ := m
    obtain rfl : flag := by simpa [later] using flagged
    obtain ⟨rfl, -⟩ := cons.inj (by simpa [later] using chars)
    have whole := take_append_drop s.length (marked (s ++ d :: u))
    rw [later] at whole
    obtain ⟨s', u', same, left, -, read⟩ := exists_of_marked_eq whole.symm
    have long : s.length = s'.length := by
      have chars := congrArg length (map_fst_marked (s ++ d :: u))
      have front := congrArg length (map_fst_marked s')
      rw [left] at front
      simp only [length_map, length_take, length_append] at chars front
      omega
    obtain ⟨rfl, behind⟩ := append_inj same long
    cases behind
    have right := pieces_flatten_right read
    rw [flatten_cons, flatten_pieces] at right
    rw [Parts, read, ← right]
    rfl

theorem exists_of_mem_occurrences (ne : name ≠ []) (mem : i ∈ occurrences t (mask t) name 0) :
    ∃ s after, t = s ++ (name ++ after) ∧ i = s.length ∧ partsNames s.getLast? ∧
      Parts s (name ++ after) := by
  rw [occurrences_zero] at mem
  obtain ⟨s, after, rfl, rfl, -, standalone, flagged⟩ := exists_of_mem_occurrencesFrom mem
  refine ⟨s, after, rfl, Nat.zero_add _, ?_, ?_⟩
  · rw [Option.or_none, isStandalone, Bool.and_eq_true] at standalone
    exact standalone.1
  · obtain ⟨c, tail, rfl⟩ := exists_cons_of_ne_nil ne
    exact parts_of_mask flagged

theorem occurrences_append (ne : name ≠ []) (named : name.all isIdentChar)
    (ends : EndsWord s) (parts : Parts s t) :
    occurrences (s ++ t) (mask (s ++ t)) name 0 =
      occurrences s (mask s) name 0 ++ (occurrences t (mask t) name 0).map (· + s.length) := by
  rcases ends with rfl | ⟨init, c, rfl, other, dot⟩
  · simp [occurrences_zero, occurrencesFrom]
  · have apart : c ∉ name := by
      intro mem
      rw [all_eq_true.1 named c mem] at other
      cases other
    have parted : partsNames none = partsNames (some c) := by simp [partsNames, other, dot]
    have long := length_mask (init ++ [c])
    rcases eq_nil_or_concat (mask (init ++ [c])) with none | ⟨flags, flag, same⟩
    · simp [none] at long
    rw [concat_eq_append] at same
    rw [same, length_append, length_append] at long
    rw [occurrences_zero, occurrences_zero, occurrences_zero, parts.mask_append, same, append_assoc,
      append_assoc, singleton_append, singleton_append, occurrencesFrom_append_cons ne apart _ _ _ _
        (Nat.zero_le _) (Nat.succ.inj long), ← occurrencesFrom_shift parted]
    simp

theorem occurrences_eq_nil_of_removed (ne : name ≠ []) (named : name.all isIdentChar)
    {gone rest : Text} (ends : EndsWord s) (endsGone : EndsWord gone) (plain : EndsPlain s)
    (plainGone : EndsPlain gone)
    (absent : occurrences (s ++ (gone ++ rest)) (mask (s ++ (gone ++ rest))) name 0 = []) :
    occurrences (s ++ rest) (mask (s ++ rest)) name 0 = [] := by
  have cut (t : Text) := occurrences_append ne named ends (plain.parts t)
  rw [cut, occurrences_append ne named endsGone (plainGone.parts rest)] at absent
  simp only [append_eq_nil_iff, map_eq_nil_iff] at absent
  rw [cut, absent.1, absent.2.2]
  rfl

end SfcJsx.Code
