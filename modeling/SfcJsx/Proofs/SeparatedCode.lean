import SfcJsx.Proofs.SettledCode

/-!
Cutting code at separators outside of brackets, whatever else the code is: brackets that close
nothing, comments and literals that stay open. What is trimmed keeps its brackets, and between two
separators code is read as it is alone.
-/

namespace SfcJsx

open List Text

def Text.ink (t : Text) : Text := t.filter (!isBlank ·)

theorem Text.ink_append (s t : Text) : ink (s ++ t) = ink s ++ ink t := filter_append s t

theorem Text.ink_trim (t : Text) : t.trim.ink = t.ink := by
  obtain ⟨lead, tail, blankLead, blankTail, whole⟩ := exists_trim t
  have gone {gap : Text} (blank : ∀ c ∈ gap, isBlank c) : gap.ink = [] := by
    simpa [ink] using blank
  rw [whole, ink_append, ink_append, gone blankLead, gone blankTail, ← whole]
  simp

variable {gap : Text}

namespace Code

variable {c : Char} {s t u v : Text}

def openBrackets (t : Text) : Nat := depthBehind false 0 none (pieces t)

theorem depthBehind_before (depth : Nat) (before : Option Char) (ps : List Piece) :
    depthBehind false depth before ps = depthBehind false depth none ps := by
  cases ps with
  | nil => rfl
  | cons p ps => cases p <;> rfl

theorem depthBehind_append_codeAfter (angles : Bool) (depth : Nat) (before : Option Char)
    (ps qs : List Piece) : depthBehind angles depth before (ps ++ qs) =
      depthBehind angles (depthBehind angles depth before ps) (codeAfter before ps) qs := by
  induction ps generalizing depth before with
  | nil => rfl
  | cons p ps ih => rw [cons_append, depthBehind, ih, depthBehind, codeAfter_cons]

theorem codeAfter_append (before : Option Char) (ps qs : List Piece) :
    codeAfter before (ps ++ qs) = codeAfter (codeAfter before ps) qs := by
  induction ps generalizing before with
  | nil => rfl
  | cons p ps ih => rw [cons_append, codeAfter_cons, ih, codeAfter_cons]

theorem depthBehind_append (depth : Nat) (ps qs : List Piece) :
    depthBehind false depth none (ps ++ qs) =
      depthBehind false (depthBehind false depth none ps) none qs := by
  rw [depthBehind_append_codeAfter, depthBehind_before _ (codeAfter none ps)]

theorem outer_false_append (depth : Nat) (ps qs : List Piece) :
    outer false depth none (ps ++ qs) =
      outer false depth none ps ++ outer false (depthBehind false depth none ps) none qs := by
  rw [outer_append_depthBehind, outer_before _ (codeAfter none ps)]

theorem Parts.outside_append (parts : Parts s t) (level : openBrackets s = 0) :
    outside (s ++ t) = outside s ++ outside t ∧ openBrackets (s ++ t) = openBrackets t := by
  rw [openBrackets] at level
  rw [outside, openBrackets, show pieces (s ++ t) = pieces s ++ pieces t from parts,
    outer_false_append, depthBehind_append, level]
  exact ⟨rfl, rfl⟩

theorem outside_cons (plain : isPlain c) (flat : isUnbracketed c) (t : Text) :
    outside (c :: t) = c :: outside t ∧ openBrackets (c :: t) = openBrackets t := by
  obtain ⟨opens, closes⟩ := isUnbracketed_spec flat false none
  have next : nextDepth false 0 none (.code c) = 0 := by
    simp [nextDepth, Piece.code?, Piece.isCloser, opens, closes]
  have outer : (Piece.code c).isOuter false 0 none := by
    simp [Piece.isOuter, Piece.code?, opens, closes]
  rw [outside, openBrackets, pieces_cons_of_isPlain plain, outer_cons, depthBehind, next,
    if_pos outer, outer_before, depthBehind_before]
  exact ⟨rfl, rfl⟩

theorem outside_blanks (blank : ∀ c ∈ s, isBlank c) (t : Text) :
    outside (s ++ t) = s ++ outside t ∧ openBrackets (s ++ t) = openBrackets t := by
  induction s with
  | nil => exact ⟨rfl, rfl⟩
  | cons c s ih =>
    obtain ⟨here, later⟩ := forall_mem_cons.1 blank
    have first := outside_cons (isPlain_of_isBlank here) (isUnbracketed_of_isBlank here) (s ++ t)
    rw [cons_append, first.1, first.2, (ih later).1, (ih later).2]
    exact ⟨rfl, rfl⟩

theorem outer_of_forall_code? {ps : List Piece} (other : ∀ p ∈ ps, p.code? = none) (depth : Nat) :
    outer false depth none ps = [] ∧ depthBehind false depth none ps = depth := by
  induction ps with
  | nil => exact ⟨rfl, rfl⟩
  | cons p ps ih =>
    obtain ⟨here, later⟩ := forall_mem_cons.1 other
    cases p with
    | code => cases here
    | literal | comment => exact ih later

theorem code?_lead_eq_none_iff (c : Char) (rest : Text) : (lead c rest).1.code? = none ↔
    isQuote c ∨ c = '/' ∧ (rest.head? = some '/' ∨ rest.head? = some '*') := by
  unfold lead
  split
  · simp_all [Piece.code?]
  · split
    · simp_all [Piece.code?]
    · split <;> simp_all [Piece.code?]

theorem lead_longer {body : Text} (whole : (lead c body).2 = []) (gap : Text) :
    ∃ more, gap = more ++ (lead c (body ++ gap)).2 := by
  obtain ⟨q, behind, read⟩ : ∃ q behind, lead c (body ++ gap) = (q, behind) := ⟨_, _, rfl⟩
  obtain ⟨body', text, -⟩ := lead_swap read fun _ same => same
  have same := lead_append c (body ++ gap)
  rw [read, text] at same
  rw [read]
  rcases append_eq_append_iff.1 (cons.inj same).2 with ⟨w, rfl, rfl⟩ | ⟨w, -, rfl⟩
  · have next : StartsAs (w ++ gap) w := fun d first => by
      cases w with
      | nil => cases first
      | cons => exact first
    obtain ⟨body'', text', again⟩ := lead_swap read next
    obtain rfl := (cons.inj (text.symm.trans text')).2
    rw [again] at whole
    exact ⟨[], by rw [show w = [] from whole]; rfl⟩
  · exact ⟨w, rfl⟩

section

variable (blank : ∀ c ∈ gap, isBlank c)

include blank

theorem exists_last_of_not_parts (joined : ¬ Parts s gap) :
    ∃ init p, pieces s = init ++ [p] ∧ p.code? = none := by
  rcases eq_nil_or_concat (pieces s) with nothing | ⟨init, p, read⟩
  · refine absurd ?_ joined
    rw [← flatten_pieces s, nothing]
    exact EndsPlain.parts (.inl rfl) gap
  rw [concat_eq_append] at read
  refine ⟨init, p, read, ?_⟩
  cases p with
  | literal | comment => rfl
  | code e =>
    refine absurd ?_ joined
    cases gap with
    | nil => simp [Parts, pieces]
    | cons b gap =>
      have here := blank b (by simp)
      exact parts_of_code read (isPlain_of_isBlank here) (by rintro rfl; cases here) gap

theorem exists_pieces_blanks (s : Text) :
    ∃ init ps qs x, pieces s = init ++ ps ∧ pieces (s ++ gap) = init ++ (qs ++ pieces x) ∧
      (∀ p ∈ ps ++ qs, p.code? = none) ∧ ∀ c ∈ x, isBlank c := by
  by_cases parts : Parts s gap
  · exact ⟨pieces s, [], [], gap, by simp, parts, by simp, blank⟩
  obtain ⟨init, p, read, last⟩ := exists_last_of_not_parts blank parts
  obtain ⟨c, body, after, text, first, nothing⟩ :=
    lead_of_pieces_eq_cons (pieces_flatten_right read)
  have ends : (lead c body).2 = [] := by
    rw [first, ← flatten_pieces after, nothing]
    rfl
  have whole : s ++ gap = flatten init ++ c :: (body ++ gap) := by
    rw [← flatten_pieces s, read, flatten_append, text]
    simp
  have later : pieces (s ++ gap) = init ++ pieces (c :: (body ++ gap)) := by
    rw [whole]
    exact pieces_swap read (by rw [text]; exact fun _ same => same)
  have still : (lead c (body ++ gap)).1.code? = none := by
    have other : (lead c body).1.code? = none := by rwa [first]
    rw [code?_lead_eq_none_iff] at other ⊢
    refine other.imp_right fun slash => ⟨slash.1, ?_⟩
    cases body with
    | nil => simp at slash
    | cons d body => exact slash.2
  obtain ⟨more, same⟩ := lead_longer ends gap
  refine ⟨init, [p], [(lead c (body ++ gap)).1], (lead c (body ++ gap)).2, read, ?_,
    by simpa using ⟨last, still⟩, ?_⟩
  · rw [later, pieces]
    rfl
  · intro d member
    exact blank d (by rw [same]; exact mem_append_right _ member)

theorem subset_outside_blanks (s : Text) :
    outside s ⊆ outside (s ++ gap) ∧ openBrackets (s ++ gap) = openBrackets s := by
  obtain ⟨init, ps, qs, x, read, longer, other, inGap⟩ := exists_pieces_blanks blank s
  have code := pieces_of_isPlain fun c member => isPlain_of_isBlank (inGap c member)
  obtain ⟨left, right⟩ := forall_mem_append.1 other
  constructor
  · rw [outside, outside, read, longer, outer_false_append, (outer_of_forall_code? left _).1,
      append_nil]
    exact subset_outer_append false 0 none init _
  · have flat (depth : Nat) : depthBehind false depth none (x.map .code) = depth :=
      depthBehind_of_depthAfter
        (depthAfter_map_code (fun c member => isUnbracketed_of_isBlank (inGap c member)) depth none)
    rw [openBrackets, openBrackets, read, longer, code, depthBehind_append, depthBehind_append,
      depthBehind_append, (outer_of_forall_code? left _).2, (outer_of_forall_code? right _).2, flat]

end

theorem outside_trim_subset (t : Text) :
    outside t.trim ⊆ outside t ∧ openBrackets t.trim = openBrackets t := by
  obtain ⟨lead, tail, blankLead, blankTail, whole⟩ := exists_trim t
  obtain ⟨shown, same⟩ := subset_outside_blanks blankTail t.trim
  obtain ⟨front, behind⟩ := outside_blanks blankLead (t.trim ++ tail)
  rw [← append_assoc, ← whole] at front behind
  rw [front, behind, same]
  exact ⟨List.Subset.trans shown (subset_append_right _ _), rfl⟩

theorem exists_cut (mark : c ∈ marks) (t : Text) : c ∉ outside t ∨ ∃ u v, t = u ++ c :: v ∧
    Parts u (c :: v) ∧ openBrackets u = 0 ∧ c ∉ outside u := by
  refine or_iff_not_imp_left.2 fun member => ?_
  obtain ⟨init, rest, read, level, first⟩ := exists_of_mem_outer (not_not.1 member)
  have alone := pieces_flatten_left read
  have behind : pieces (flatten rest) = rest := by
    rw [append_cons] at read
    exact pieces_flatten_right read
  have whole : t = flatten init ++ c :: flatten rest := by
    rw [← flatten_pieces t, read]
    simp [Piece.text]
  refine ⟨flatten init, flatten rest, whole, ?_, by rwa [openBrackets, alone],
    by rwa [outside, alone]⟩
  rw [Parts, ← whole, alone, pieces_cons_of_isPlain (isPlain_of_mark mark), behind, read]

theorem cut_induction {motive : Text → Prop} (mark : c ∈ marks)
    (whole : ∀ t, c ∉ outside t → motive t)
    (cut : ∀ u v, Parts u (c :: v) → openBrackets u = 0 → c ∉ outside u → motive v →
      motive (u ++ c :: v)) (t : Text) : motive t := by
  rcases exists_cut mark t with single | ⟨u, v, same, parts, level, first⟩
  · exact whole t single
  · rw [same]
    exact cut u v parts level first (cut_induction mark whole cut v)
termination_by t.length
decreasing_by
  rw [same]
  simp
  omega

theorem glue_nil_cons {ss : List Text} (ne : ss ≠ []) (ts : List Text) :
    glue ss ([] :: ts) = ss ++ ts := by
  induction ss with
  | nil => exact absurd rfl ne
  | cons s ss ih =>
    cases ss with
    | nil => simp [glue, segments.extend]
    | cons => rw [glue_cons (by simp), ih (by simp)]; rfl

theorem segments_cut (mark : c ∈ marks) (parts : Parts u (c :: v)) (level : openBrackets u = 0) :
    segments [c] false 0 none (pieces (u ++ c :: v)) =
      segments [c] false 0 none (pieces u) ++ segments [c] false 0 none (pieces v) := by
  obtain ⟨opens, closes⟩ := isUnbracketed_spec (isUnbracketed_of_mark mark) false
    (codeAfter none (pieces u))
  rw [openBrackets] at level
  rw [show pieces (u ++ c :: v) = pieces u ++ pieces (c :: v) from parts,
    segments_append_depthBehind, level, pieces_cons_of_isPlain (isPlain_of_mark mark), segments,
    opens, closes, if_neg Bool.false_ne_true, if_neg Bool.false_ne_true, if_pos ⟨rfl, ascii_of_mark
    mark, by simp⟩, segments_before [c] 0 (some c), glue_nil_cons (segments_ne_nil _ _ _)]

theorem segments_whole (single : c ∉ outside t) : segments [c] false 0 none (pieces t) = [t] := by
  rw [segments_of_not_mem single, flatten_pieces]

theorem segments_inside (mark : c ∈ marks) (t : Text) :
    (∀ s ∈ segments [c] false 0 none (pieces t), c ∉ outside s ∧ outside s ⊆ outside t ∧
      (openBrackets t = 0 → openBrackets s = 0)) ∧
    (segments [c] false 0 none (pieces t)).Pairwise fun s _ => openBrackets s = 0 := by
  induction t using cut_induction mark with
  | whole t single =>
    rw [segments_whole single]
    simpa using single
  | cut u v parts level first ih =>
    obtain ⟨shown, reached⟩ := parts.outside_append level
    obtain ⟨front, behind⟩ := outside_cons (isPlain_of_mark mark) (isUnbracketed_of_mark mark) v
    rw [segments_cut mark parts level, segments_whole first, shown, reached, front, behind]
    refine ⟨forall_mem_cons.2 ⟨⟨first, subset_append_left _ _, fun _ => level⟩, ?_⟩,
      pairwise_cons.2 ⟨fun _ _ => level, ih.2⟩⟩
    intro s member
    obtain ⟨whole, inner, closed⟩ := ih.1 s member
    refine ⟨whole, fun d listed => ?_, closed⟩
    exact mem_append_right _ (mem_cons_of_mem _ (inner listed))

theorem splitTop_cut (mark : c ∈ marks) (parts : Parts u (c :: v)) (level : openBrackets u = 0) :
    splitTop [c] false (u ++ c :: v) = splitTop [c] false u ++ splitTop [c] false v := by
  rw [splitTop, segments_cut mark parts level, map_append, filter_append]
  rfl

theorem splitTop_whole (single : c ∉ outside t) :
    splitTop [c] false t = if t.trim = [] then [] else [t.trim] := by
  rw [splitTop, segments_whole single]
  by_cases empty : t.trim = [] <;> simp [empty]

theorem splitTop_blank (t : Text) : splitTop [';'] false (' ' :: t) = splitTop [';'] false t := by
  obtain ⟨first, rest, read⟩ := exists_cons_of_ne_nil
    (@segments_ne_nil [';'] false 0 none (pieces t))
  have cons : segments [';'] false 0 none (pieces (' ' :: t)) = (' ' :: first) :: rest := by
    rw [pieces_cons_of_isPlain rfl, segments, segments_before [';'] 0 (some ' '), read]
    rfl
  rw [splitTop, cons, splitTop, read]
  rfl

theorem splitTop_inside (mark : c ∈ marks) (t : Text) :
    (∀ s ∈ splitTop [c] false t, s.IsTrimmed ∧ c ∉ outside s ∧ outside s ⊆ outside t ∧
      (openBrackets t = 0 → openBrackets s = 0)) ∧
    (splitTop [c] false t).Pairwise fun s _ => openBrackets s = 0 := by
  obtain ⟨inside, levels⟩ := segments_inside mark t
  constructor
  · intro s member
    obtain ⟨listed, filled⟩ := mem_filter.1 member
    obtain ⟨raw, cut, rfl⟩ := mem_map.1 listed
    obtain ⟨shown, same⟩ := outside_trim_subset raw
    obtain ⟨single, inner, closed⟩ := inside raw cut
    exact ⟨isTrimmed_trim (by simpa using filled), fun listed => single (shown listed),
      List.Subset.trans shown inner, fun level => same.trans (closed level)⟩
  · refine List.Pairwise.filter _ (pairwise_map.2 (levels.imp fun level => ?_))
    exact (outside_trim_subset _).2.trans level

theorem ink_splitTop_whole (single : c ∉ outside t) :
    ink (splitTop [c] false t).flatten = ink t := by
  rw [splitTop_whole single, ← ink_trim t]
  split
  · next empty => rw [empty]; rfl
  · rw [flatten_singleton]

theorem ink_lines (t : Text) : ink (splitTop ['\n'] false t).flatten = ink t := by
  have mark : '\n' ∈ marks := by decide
  induction t using cut_induction mark with
  | whole t single => exact ink_splitTop_whole single
  | cut u v parts level first ih =>
    rw [splitTop_cut mark parts level, List.flatten_append, ink_append, ih,
      ink_splitTop_whole first, ink_append]
    rfl

end Code

end SfcJsx
