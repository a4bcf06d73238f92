import SfcJsx.Text.Blank

/-!
Finding a text in another: the first occurrence, and when there is none. The fields of a text that
is put together from others.
-/

namespace SfcJsx.Text

open List

variable {sought t lead body : Text} {c : Char} {ts : List Text} {isStop : Char → Bool}

theorem after?_append (lead rest : Text) : after? lead (lead ++ rest) = some rest :=
  after?_eq_some_iff.2 rfl

theorem after?_eq_none_iff : after? lead t = none ↔ ¬ lead <+: t := by
  rw [Option.eq_none_iff_forall_ne_some]
  constructor
  · rintro none ⟨rest, whole⟩
    exact none rest (after?_eq_some_iff.2 whole.symm)
  · intro absent rest found
    exact absent ⟨rest, (after?_eq_some_iff.1 found).symm⟩

theorem after?_of_break (apart : c ∉ lead) (init : Text) :
    (∃ rest, init = lead ++ rest) ∨ ∀ more, after? lead (init ++ c :: more) = none := by
  by_cases starts : lead <+: init
  · obtain ⟨rest, whole⟩ := starts
    exact .inl ⟨rest, whole.symm⟩
  · refine .inr fun more => after?_eq_none_iff.2 fun occurs => ?_
    have line : init ++ [c] <+: init ++ c :: more := ⟨more, by simp⟩
    rcases prefix_or_prefix_of_prefix occurs line with short | long
    · rcases prefix_concat_iff.1 short with rfl | inside
      · exact apart (by simp)
      · exact starts inside
    · exact apart (long.subset (by simp))

theorem isSome_cut?_iff : (cut? sought t).isSome ↔ sought <:+: t := by
  induction t with
  | nil => cases sought <;> simp [cut?]
  | cons c t ih =>
    rw [infix_cons_iff, ← ih, cut?]
    split
    · next tail found =>
      simp only [Option.isSome_some, true_iff]
      exact .inl ⟨tail, (after?_eq_some_iff.1 found).symm⟩
    · next absent =>
      rw [after?_eq_none_iff] at absent
      simp [absent]

theorem containsText_iff : t.containsText sought ↔ sought <:+: t := isSome_cut?_iff

theorem containsText_eq_false_iff : t.containsText sought = false ↔ ¬ sought <:+: t := by
  rw [← containsText_iff, Bool.not_eq_true]

theorem infix_concat_iff_of_ne {last : Char} (ne : last ≠ c) :
    sought ++ [last] <:+: t ++ [c] ↔ sought ++ [last] <:+: t := by
  have apart : ¬ sought ++ [last] <:+ t ++ [c] := by
    rw [suffix_concat_iff]
    rintro (empty | ⟨lead, same, -⟩)
    · simp at empty
    · exact ne (append_inj_right' same rfl |> singleton_inj.1)
  simp only [infix_concat_iff, apart, false_or]

theorem length_le_of_cut? {gap rest tail : Text} (found : cut? sought t = some (body, tail))
    (whole : t = gap ++ sought ++ rest) : body.length ≤ gap.length := by
  induction t generalizing body gap with
  | nil =>
    have empty := congrArg length (eq_append_of_cut? found)
    simp only [length_nil, length_append] at empty
    omega
  | cons c t ih =>
    rw [cut?] at found
    split at found
    · obtain ⟨rfl, -⟩ : [] = body ∧ _ := by simpa using found
      exact Nat.zero_le _
    · next absent =>
      obtain ⟨⟨inner, after⟩, later, same⟩ := Option.map_eq_some_iff.1 found
      obtain ⟨rfl, rfl⟩ : c :: inner = body ∧ after = tail := by simpa using same
      cases gap with
      | nil => exact absurd ⟨rest, whole.symm⟩ (after?_eq_none_iff.1 absent)
      | cons d gap => exact Nat.succ_le_succ (ih later (cons.inj whole).2)

/-- A text is cut at the first occurrence of what is sought. -/
theorem cut?_eq_some_iff {tail : Text} : cut? sought t = some (body, tail) ↔
    t = body ++ sought ++ tail ∧
      ∀ gap rest, t = gap ++ sought ++ rest → body.length ≤ gap.length := by
  refine ⟨fun found => ⟨eq_append_of_cut? found, fun _ _ => length_le_of_cut? found⟩, ?_⟩
  rintro ⟨rfl, first⟩
  have occurs : sought <:+: body ++ sought ++ tail := ⟨body, tail, rfl⟩
  obtain ⟨⟨before, after⟩, found⟩ := Option.isSome_iff_exists.1 (isSome_cut?_iff.2 occurs)
  have whole := eq_append_of_cut? found
  have same := Nat.le_antisymm (first before after whole) (length_le_of_cut? found rfl)
  rw [append_assoc, append_assoc] at whole
  obtain ⟨rfl, behind⟩ := append_inj whole same
  rw [found, append_cancel_left behind]

theorem cut?_append (ne : sought ≠ []) (first : ¬ sought <:+: body ++ sought.dropLast)
    (rest : Text) : cut? sought (body ++ sought ++ rest) = some (body, rest) := by
  refine cut?_eq_some_iff.2 ⟨rfl, fun gap more same => Nat.not_lt.1 fun early => first ?_⟩
  have long : body ++ sought.dropLast <+: body ++ sought ++ rest :=
    ((prefix_append_right_inj body).2 ( dropLast_prefix sought)).trans (prefix_append _ _)
  have short : gap ++ sought <+: body ++ sought ++ rest := ⟨more, same.symm⟩
  refine (suffix_append gap sought).isInfix.trans (prefix_of_prefix_length_le short long ?_).isInfix
  have := length_pos_iff.2 ne
  simp only [length_append, length_dropLast]
  omega

theorem cut?_append_of_mem {before : Text} (inside : c ∈ sought) (plain : c ∉ before)
    (rest : Text) : cut? sought (before ++ sought ++ rest) = some (before, rest) := by
  refine cut?_eq_some_iff.2 ⟨rfl, fun gap more same => ?_⟩
  -- The character occurs first where it stands in the first occurrence.
  have index := congrArg (idxOf c) same
  rw [append_assoc, append_assoc, idxOf_append, idxOf_append, if_neg plain, idxOf_append,
    if_pos inside, idxOf_append, if_pos inside] at index
  split at index
  · next early =>
    have := idxOf_lt_length_of_mem early
    omega
  · omega

theorem not_infix_of_cut? {tail : Text} (ne : sought ≠ [])
    (found : cut? sought t = some (body, tail)) : ¬ sought <:+: body ++ sought.dropLast := by
  rintro ⟨gap, more, same⟩
  have whole : t = gap ++ sought ++ (more ++ [sought.getLast ne] ++ tail) := by
    rw [eq_append_of_cut? found, ← append_assoc, ← append_assoc, same,
      append_assoc body sought.dropLast, dropLast_concat_getLast]
  have early := length_le_of_cut? found whole
  have lengths := congrArg length same
  have := length_pos_iff.2 ne
  simp only [length_append, length_dropLast] at lengths
  omega

theorem intercalate_concat (ne : ts ≠ []) (between last : Text) :
    intercalate between (ts ++ [last]) = intercalate between ts ++ (between ++ last) := by
  induction ts with
  | nil => exact absurd rfl ne
  | cons first rest ih =>
    cases rest with
    | nil => simp [intercalate_cons_cons]
    | cons second rest =>
      have later := ih (by simp)
      simp only [cons_append, intercalate_cons_cons] at later ⊢
      rw [later, ← append_assoc]

theorem mem_of_mem_intercalate {gap : Text} (member : c ∈ intercalate gap ts) :
    c ∈ gap ∨ ∃ t ∈ ts, c ∈ t := by
  induction ts with
  | nil => cases member
  | cons t ts ih =>
    cases ts with
    | nil => exact .inr ⟨t, by simp, by simpa using member⟩
    | cons t' ts =>
      rw [intercalate_cons_cons, mem_append, mem_append] at member
      rcases member with (here | between) | later
      · exact .inr ⟨t, by simp, here⟩
      · exact .inl between
      · exact (ih later).imp_right fun ⟨s, listed, inside⟩ => ⟨s, by simp [listed], inside⟩

section Fields

variable {isSeparator : Char → Bool}

theorem fields_eq_splitOnP (isSeparator : Char → Bool) (t : Text) :
    t.fields isSeparator = t.splitOnP isSeparator := by
  induction t with
  | nil => rfl
  | cons c t ih =>
    obtain ⟨piece, pieces, read⟩ := exists_cons_of_ne_nil (splitOnP_ne_nil isSeparator t)
    rw [fields, ih, splitOnP_cons_eq_if_modifyHead, read]
    rfl

theorem exists_fields_cons (t : Text) :
    ∃ (piece : Text) (pieces : List Text), t.fields isSeparator = piece :: pieces := by
  rw [fields_eq_splitOnP]
  exact exists_cons_of_ne_nil (splitOnP_ne_nil isSeparator t)

theorem fields_append (ends : isSeparator c) (s t : Text) :
    fields isSeparator (s ++ c :: t) = s.fields isSeparator ++ t.fields isSeparator := by
  simp only [fields_eq_splitOnP, splitOnP_append_cons s t ends]

theorem fields_of_forall (inside : ∀ c ∈ t, isSeparator c = false) :
    t.fields isSeparator = [t] := by
  rw [fields_eq_splitOnP, splitOnP_eq_singleton inside]

theorem flatten_fields (isSeparator : Char → Bool) (t : Text) :
    (t.fields isSeparator).flatten = t.filter (!isSeparator ·) := by
  induction t with
  | nil => rfl
  | cons c t ih =>
    obtain ⟨piece, pieces, read⟩ := @exists_fields_cons isSeparator t
    rw [read] at ih
    rw [fields, read, filter_cons, ← ih]
    cases isSeparator c <;> rfl

theorem isSeparator_of_mem_fields {piece : Text} (member : piece ∈ t.fields isSeparator) :
    ∀ c ∈ piece, isSeparator c = false := by
  intro c inside
  have kept : c ∈ (t.fields isSeparator).flatten := mem_flatten.2 ⟨piece, member, inside⟩
  rw [flatten_fields] at kept
  simpa using (mem_filter.1 kept).2

theorem not_mem_of_mem_fields {piece : Text} (member : piece ∈ t.fields (· == c)) : c ∉ piece :=
  fun inside => by simpa using isSeparator_of_mem_fields member c inside

theorem intercalate_fields (c : Char) (t : Text) : intercalate [c] (t.fields (· == c)) = t := by
  rw [fields_eq_splitOnP]
  exact intercalate_splitOn c

theorem beq_of_not_mem (free : c ∉ t) : ∀ d ∈ t, (d == c) = false := by
  intro d member
  rw [beq_eq_false_iff_ne]
  rintro rfl
  exact free member

theorem fields_intercalate (ne : ts ≠ []) (free : ∀ t ∈ ts, c ∉ t) :
    fields (· == c) (intercalate [c] ts) = ts := by
  rw [fields_eq_splitOnP]
  exact splitOn_intercalate c free ne

end Fields

theorem subset_trim (t : Text) : t.trim ⊆ t := by
  intro c inside
  have kept := (dropWhile_suffix _).subset (mem_reverse.1 inside)
  exact (dropWhile_suffix _).subset (mem_reverse.1 kept)

theorem breakAt_append {s : Text} (free : ∀ c ∈ s, isStop c = false) (rest : Text) :
    breakAt isStop (s ++ rest) =
      (s ++ (breakAt isStop rest).1, (breakAt isStop rest).2) := by
  have all : ∀ c ∈ s, !isStop c := by simpa using free
  rw [breakAt, takeWhile_append_of_pos all, dropWhile_append_of_pos all]
  rfl

theorem breakAt_cons (stop : isStop c) (t : Text) : breakAt isStop (c :: t) = ([], c :: t) := by
  simp [breakAt, stop]

theorem words_append_cons (blank : isBlank c) (s t : Text) :
    words (s ++ c :: t) = s.words ++ t.words := by
  rw [words, fields_append blank, filter_append]
  rfl

theorem words_of_forall {w : Text} (ne : w ≠ []) (inside : ∀ c ∈ w, isBlank c = false) :
    w.words = [w] := by
  rw [words, fields_of_forall inside]
  simpa using ne

theorem flatten_words (t : Text) : t.words.flatten = t.filter (!isBlank ·) := by
  rw [words, flatten_filter_not_isEmpty, flatten_fields]

end SfcJsx.Text
