import SfcJsx.Proofs.NameOccurrences

/-!
The search for a name. Occurrences that are turned down are passed over as a whole. Main statement:
the search still finds the first place at which the name stands alone in code, for any mask of the
bytes: a place inside an occurrence has a character of the name before it.
-/

namespace SfcJsx.Code

open List Text

variable {name : Text} {mask : List Bool}

theorem head?_eq_some_iff_of_pairwise {l : List Nat} (sorted : l.Pairwise (· ≤ ·)) {i : Nat} :
    l.head? = some i ↔ i ∈ l ∧ ∀ j ∈ l, i ≤ j := by
  cases l with
  | nil => simp
  | cons j l =>
    have later := (pairwise_cons.1 sorted).1
    constructor
    · rintro ⟨⟩
      exact ⟨mem_cons_self, forall_mem_cons.2 ⟨Nat.le_refl _, later⟩⟩
    · rintro ⟨mem, least⟩
      rcases mem_cons.1 mem with rfl | mem
      · rfl
      · rw [Nat.le_antisymm (least j mem_cons_self) (later i mem)]
        rfl

/-- The flags of characters, where a mask has one flag a byte. -/
def flagsOf (mask : List Bool) : Text → List Bool
  | [] => []
  | c :: t => mask.headD false :: flagsOf (mask.drop c.utf8Size) t

theorem drop_flagsOf (s u : Text) (mask : List Bool) :
    (flagsOf mask (s ++ u)).drop s.length = flagsOf (mask.drop s.width) u := by
  induction s generalizing mask with
  | nil => rfl
  | cons c s ih => simp [flagsOf, ih]

theorem flagsOf_byteMask (t : Text) : flagsOf (byteMask t) t = Code.mask t := by
  have marks (ms : List (Char × Bool)) : flagsOf (ms.flatMap fun m => replicate m.1.utf8Size m.2)
      (ms.map Prod.fst) = ms.map Prod.snd := by
    induction ms with
    | nil => rfl
    | cons m ms ih =>
      obtain ⟨n, size⟩ := Nat.exists_eq_add_one.2 m.1.utf8Size_pos
      simp [flagsOf, size, replicate_succ, ih]
  have read := marks (marked t)
  rwa [map_fst_marked] at read

/-- At a byte offset stands the name, marked as code, with no character of a name around it and no
dot before it. -/
def StandsAt (t : Text) (mask : List Bool) (name : Text) (offset : Nat) : Prop :=
  ∃ s after, t = s ++ (name ++ after) ∧ s.width = offset ∧ mask[offset]? = some true ∧
    (∀ c ∈ s.getLast?, c ≠ '.' ∧ isIdentChar c = false) ∧ ∀ c ∈ after.head?, isIdentChar c = false

theorem mem_map_occurrences_iff (isName : name.isIdentifier) (s u : Text) {offset : Nat} :
    offset ∈ (occurrences (s ++ u) (flagsOf mask (s ++ u)) name s.length).map
        (fun i => width ((s ++ u).take i)) ↔
      s.width ≤ offset ∧ StandsAt (s ++ u) mask name offset := by
  have ne : name ≠ [] := by
    rintro rfl
    cases isName
  have named : name.all isIdentChar := by
    obtain ⟨c, tail, rfl⟩ := exists_cons_of_ne_nil ne
    rw [isIdentifier, Bool.and_eq_true] at isName
    rw [all_cons, isIdentChar_of_isIdentStart isName.1, isName.2]
    rfl
  have flag (v after : Text) : ((flagsOf (mask.drop s.width) (v ++ (name ++ after))).drop
      v.length).headD false = true ↔ mask[width (s ++ v)]? = some true := by
    obtain ⟨c, tail, rfl⟩ := exists_cons_of_ne_nil ne
    rw [drop_flagsOf, drop_drop, ← width_append, cons_append, flagsOf, headD_cons,
      headD_eq_head?_getD, head?_drop]
    cases mask[width (s ++ v)]? <;> simp
  have alone (v after : Text) : isStandalone (v.getLast?.or s.getLast?) after ↔
      (∀ c ∈ (s ++ v).getLast?, c ≠ '.' ∧ isIdentChar c = false) ∧
        ∀ c ∈ after.head?, isIdentChar c = false := by
    rw [isStandalone, getLast?_append]
    cases v.getLast?.or s.getLast? <;> cases after.head? <;> simp [and_comm]
  rw [mem_map, occurrences, drop_flagsOf, take_left, drop_left]
  constructor
  · rintro ⟨i, mem, rfl⟩
    obtain ⟨v, after, rfl, rfl, -, standalone, flagged⟩ := exists_of_mem_occurrencesFrom mem
    rw [take_length_add_append, take_left]
    refine ⟨by simp, s ++ v, after, by simp, rfl, (flag v after).1 flagged, (alone v after).1 ?_⟩
    exact standalone
  · rintro ⟨behind, w, after, whole, rfl, flagged, standalone⟩
    obtain ⟨v, rfl⟩ : ∃ v, w = s ++ v := by
      rcases append_eq_append_iff.1 whole with ⟨v, rfl, -⟩ | ⟨v, rfl, -⟩
      · exact ⟨v, rfl⟩
      · have := length_le_width v
        rw [width_append] at behind
        obtain rfl : v = [] := length_eq_zero_iff.1 (by omega)
        exact ⟨[], by simp⟩
    rw [append_assoc, append_right_inj] at whole
    subst whole
    exact ⟨s.length + v.length, mem_occurrencesFrom_of_isStandalone ne named (.inl rfl) rfl
      ((alone v after).2 standalone) ((flag v after).2 flagged),
      by rw [take_length_add_append, take_left]⟩

theorem width_take_le {i j : Nat} (le : i ≤ j) (t : Text) :
    width (t.take i) ≤ width (t.take j) := by
  obtain ⟨more, same⟩ := take_prefix_take_left (l := t) le
  rw [← same, width_append]
  exact Nat.le_add_right _ _

/-- A search from a character boundary on gives the first byte offset at which the name stands alone
in code, and none where there is no such offset. -/
theorem findIdentifier?_exact (isName : name.isIdentifier) (mask : List Bool) (s u : Text) :
    (∀ offset, (findIdentifier? (s ++ u) (flagsOf mask (s ++ u)) name s.length).map
        (fun i => width ((s ++ u).take i)) = some offset ↔
      (s.width ≤ offset ∧ StandsAt (s ++ u) mask name offset) ∧
        ∀ other, s.width ≤ other → StandsAt (s ++ u) mask name other → offset ≤ other) ∧
    (findIdentifier? (s ++ u) (flagsOf mask (s ++ u)) name s.length = none ↔
      ∀ offset, s.width ≤ offset → ¬ StandsAt (s ++ u) mask name offset) ∧
    flagsOf (byteMask (s ++ u)) (s ++ u) = Code.mask (s ++ u) := by
  have places := @mem_map_occurrences_iff name mask isName s u
  have sorted : ((occurrences (s ++ u) (flagsOf mask (s ++ u)) name s.length).map
      fun i => width ((s ++ u).take i)).Pairwise (· ≤ ·) :=
    pairwise_map.2 ((pairwise_occurrencesFrom _ _ _ _ _).imp fun less =>
      width_take_le (Nat.le_of_lt less) _)
  refine ⟨fun offset => ?_, ?_, flagsOf_byteMask _⟩
  · rw [findIdentifier?, ← head?_map, head?_eq_some_iff_of_pairwise sorted, places]
    simp only [places, and_imp]
  · rw [findIdentifier?, head?_eq_none_iff,
      ← map_eq_nil_iff (f := fun i => width ((s ++ u).take i)), eq_nil_iff_forall_not_mem]
    simp only [places, not_and]

/-- The member of that name and the string are passed over. -/
theorem findIdentifier?_exact_operand :
    isIdentifier "ab" ∧
      ((3 ≤ 14 ∧ StandsAt "é+é.ab+'ab'+ab" (byteMask "é+é.ab+'ab'+ab") "ab" 14) ∧
        ∀ other, 3 ≤ other → StandsAt "é+é.ab+'ab'+ab" (byteMask "é+é.ab+'ab'+ab") "ab" other →
          14 ≤ other) := by
  have isName : isIdentifier "ab" := by decide
  exact ⟨isName, ((findIdentifier?_exact isName (byteMask "é+é.ab+'ab'+ab") "é+" "é.ab+'ab'+ab").1
    14).1 (by decide +kernel)⟩

end SfcJsx.Code
