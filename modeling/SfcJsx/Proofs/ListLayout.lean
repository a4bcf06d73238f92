import SfcJsx.Proofs.TopLevelSplit

/-!
How a list is laid out: its parts, blanks and separators around them, and comments. Main statement:
splitting gives back one text for each stretch between separators, so without comments it gives back
the parts.
-/

namespace SfcJsx

open List Text

variable {t : Text} {parts : List Text} {after : Nat} {c : Char}

theorem Text.trim_of_forall (blank : ∀ c ∈ t, isBlank c) : t.trim = [] := by
  have start : (t ++ []).dropWhile isBlank = [] := dropWhile_append_of_pos blank
  rw [append_nil] at start
  rw [trim, trimStart, start]
  rfl

namespace Code

variable {separators : List Char} {angles : Bool} {ps : List Piece}

theorem isClosing_before (opens : ¬ isOpening angles c)
    (level : depthAfter angles 0 none (.code c :: ps) = some after) (before : Option Char) :
    isClosing angles before c = false := by
  rw [depthAfter, if_neg opens] at level
  have free : isClosing angles none c = false := by
    cases closes : isClosing angles none c with
    | false => rfl
    | true =>
      rw [closes] at level
      cases level
  simp only [isClosing, Bool.or_eq_false_iff, Bool.and_eq_false_iff] at free ⊢
  exact ⟨free.1, .inl (by simpa using free.2)⟩

theorem depthAfter_before (level : depthAfter angles 0 none ps = some after) (before : Option Char)
    :
    depthAfter angles 0 before ps = some after ∧
      outer angles 0 before ps = outer angles 0 none ps := by
  cases ps with
  | nil => exact ⟨level, rfl⟩
  | cons p ps =>
    cases p with
    | code c =>
      by_cases opens : isOpening angles c
      · rw [depthAfter, if_pos opens] at level
        rw [depthAfter, if_pos opens, outer, if_pos opens, outer, if_pos opens]
        exact ⟨level, rfl⟩
      · have closes := isClosing_before opens level
        rw [depthAfter, if_neg opens, closes none] at level
        rw [depthAfter, if_neg opens, closes before, outer,
          if_neg opens, closes before, outer, if_neg opens, closes none]
        exact ⟨level, rfl⟩
    | literal | comment =>
      exact ⟨level, rfl⟩

/-- A list as it is written, item by item. -/
inductive Item where
  | part (text : Text)
  /-- A blank or a separator. -/
  | mark (c : Char)
  | comment (text : Text)
  deriving DecidableEq

variable {s : List Item} {item : Item}

namespace Item

def text : Item → Text
  | part text => text
  | mark c => [c]
  | comment text => text

def pieces : Item → List Piece
  | part text => Code.pieces text
  | mark c => [.code c]
  | comment text => [.comment text]

def part? : Item → Option Text
  | part text => some text
  | mark _ => none
  | comment _ => none

def isComment : Item → Bool
  | part _ => false
  | mark _ => false
  | comment _ => true

def separates (separators : List Char) : Item → Bool
  | part _ => false
  | mark c => separators.contains c
  | comment _ => false

end Item

def textOf (items : List Item) : Text := items.flatMap Item.text

@[simp] theorem textOf_nil : textOf [] = [] := rfl

@[simp] theorem textOf_cons (item : Item) (items : List Item) :
    textOf (item :: items) = item.text ++ textOf items := rfl

@[simp] theorem textOf_append (items others : List Item) :
    textOf (items ++ others) = textOf items ++ textOf others := by
  simp [textOf]

/-- The items between the separators. -/
def stretches (separators : List Char) (items : List Item) : List (List Item) :=
  items.splitOnP (Item.separates separators)

def partsOf (items : List Item) : List Text := items.filterMap Item.part?

/-- A list that is read as it is laid out, with a separator between any two parts. -/
structure IsLayout (separators : List Char) (angles : Bool) (items : List Item) : Prop where
  reads : pieces (textOf items) = items.flatMap Item.pieces
  trimmed : ∀ t, .part t ∈ items → t.IsTrimmed
  level : ∀ t, .part t ∈ items → IsLevel angles t
  whole : ∀ t, .part t ∈ items → ∀ c ∈ outer angles 0 none (pieces t), c ∉ separators
  mark : ∀ c, .mark c ∈ items → isBlank c ∨ c ∈ separators
  apart : ∀ s ∈ stretches separators items, (partsOf s).length ≤ 1

theorem map_textOf_modifyHead (item : Item) {ss : List (List Item)} (ne : ss ≠ []) :
    (ss.modifyHead (item :: ·)).map textOf = segments.extend item.text (ss.map textOf) := by
  obtain ⟨s, ss, rfl⟩ := exists_cons_of_ne_nil ne
  rfl

theorem comma_subset_marks : [','] ⊆ marks := by decide

theorem ascii_of_mark (mark : c ∈ marks) : c.toNat < 0x80 :=
  of_decide_eq_true (all_eq_true.1 (show marks.all (·.toNat < 0x80) = true from rfl) c mark)

theorem segments_layout (known : separators ⊆ marks) {items : List Item}
    (level : ∀ t, .part t ∈ items → IsLevel angles t)
    (whole : ∀ t, .part t ∈ items → ∀ c ∈ outer angles 0 none (pieces t), c ∉ separators)
    (mark : ∀ c, .mark c ∈ items → isBlank c ∨ c ∈ separators) (before : Option Char) :
    segments separators angles 0 before (items.flatMap Item.pieces) =
      (stretches separators items).map textOf := by
  induction items generalizing before with
  | nil => rfl
  | cons item items ih =>
    have later := ih (fun t member => level t (by simp [member]))
      (fun t member => whole t (by simp [member])) fun c member => mark c (by simp [member])
    have some : stretches separators items ≠ [] := splitOnP_ne_nil _ _
    rw [stretches, splitOnP_cons_eq_if_modifyHead, ← stretches, flatMap_cons]
    cases item with
    | part t =>
      obtain ⟨reached, same⟩ := depthAfter_before (level t (by simp)) before
      have single : segments separators angles 0 before (pieces t) = [t] := by
        rw [segments_eq_singleton (by rw [same]; exact whole t (by simp)), flatten_pieces]
      rw [Item.pieces, segments_append reached, single, later, if_neg (by simp [Item.separates]),
        map_textOf_modifyHead _ some]
      rfl
    | mark c =>
      have flat : isUnbracketed c :=
        (mark c (by simp)).elim isUnbracketed_of_isBlank fun listed =>
          isUnbracketed_of_mark (known listed)
      obtain ⟨opens, closes⟩ := isUnbracketed_spec flat angles before
      rw [Item.pieces, singleton_append, segments, opens, closes, if_neg Bool.false_ne_true,
        if_neg Bool.false_ne_true, later]
      by_cases listed : c ∈ separators
      · rw [if_pos ⟨rfl, ascii_of_mark (known listed), listed⟩,
          if_pos (by simpa [Item.separates] using listed)]
        rfl
      · rw [if_neg fun both => listed both.2.2, if_neg (by simpa [Item.separates] using listed),
          map_textOf_modifyHead _ some]
        rfl
    | comment t =>
      rw [Item.pieces, singleton_append, segments, later, if_neg (by simp [Item.separates]),
        map_textOf_modifyHead _ some]
      · rfl
      · simp

def rowText (s : List Item) : Text := (textOf s).trim

def rowsOf (ss : List (List Item)) : List Text := (ss.map rowText).filter (!·.isEmpty)

theorem rowsOf_append (ss ss' : List (List Item)) :
    rowsOf (ss ++ ss') = rowsOf ss ++ rowsOf ss' := by
  simp [rowsOf]

theorem rowsOf_cons_of_ne (ne : rowText s ≠ []) (ss : List (List Item)) :
    rowsOf (s :: ss) = rowText s :: rowsOf ss := by
  simp [rowsOf, ne]

theorem rowsOf_cons_of_eq (empty : rowText s = []) (ss : List (List Item)) :
    rowsOf (s :: ss) = rowsOf ss := by
  simp [rowsOf, empty]

namespace IsLayout

variable {items : List Item}

theorem splitTop_eq (h : IsLayout separators angles items) (known : separators ⊆ marks) :
    splitTop separators angles (textOf items) = rowsOf (stretches separators items) := by
  rw [splitTop, h.reads, segments_layout known h.level h.whole h.mark, map_map]
  rfl

end IsLayout

theorem pieces_textOf {items : List Item} (mark : ∀ c, .mark c ∈ items → isPlain c)
    (part : ∀ t rest, .part t :: rest <:+ items → Parts t (textOf rest))
    (comment : ∀ t rest, .comment t :: rest <:+ items →
      pieces (t ++ textOf rest) = .comment t :: pieces (textOf rest)) :
    pieces (textOf items) = items.flatMap Item.pieces := by
  induction items with
  | nil => rw [textOf_nil, pieces, flatMap_nil]
  | cons item items ih =>
    have later := ih (fun c member => mark c (by simp [member]))
      (fun t rest ends => part t rest (ends.trans (suffix_cons _ _)))
      fun t rest ends => comment t rest (ends.trans (suffix_cons _ _))
    rw [flatMap_cons, ← later]
    cases item with
    | part t => exact part t items suffix_rfl
    | mark c => exact pieces_cons_of_isPlain (mark c (by simp)) _
    | comment t => exact comment t items suffix_rfl

theorem partsOf_append (items others : List Item) :
    partsOf (items ++ others) = partsOf items ++ partsOf others :=
  filterMap_append

theorem partsOf_cons (item : Item) (items : List Item) :
    partsOf (item :: items) = item.part?.toList ++ partsOf items := by
  cases item <;> rfl

theorem exists_stretches_cons (separators : List Char) (item : Item) (items : List Item) :
    ∃ s ss, stretches separators items = s :: ss ∧ stretches separators (item :: items) =
      if item.separates separators then [] :: s :: ss else (item :: s) :: ss := by
  obtain ⟨s, ss, read⟩ := exists_cons_of_ne_nil (splitOnP_ne_nil (Item.separates separators) items)
  refine ⟨s, ss, read, ?_⟩
  rw [stretches, splitOnP_cons_eq_if_modifyHead, read]
  rfl

theorem flatMap_partsOf_stretches (separators : List Char) (items : List Item) :
    (stretches separators items).flatMap partsOf = partsOf items := by
  induction items with
  | nil => rfl
  | cons item items ih =>
    obtain ⟨s, ss, read, cut⟩ := exists_stretches_cons separators item items
    rw [read] at ih
    rw [cut, partsOf_cons, ← ih]
    split
    · next separates =>
      cases item with
      | mark c => rfl
      | part t | comment t => cases separates
    · rw [flatMap_cons, partsOf_cons, append_assoc]
      rfl

theorem length_partsOf_le {items : List Item} (listed : s ∈ stretches separators items) :
    (partsOf s).length ≤ (partsOf items).length := by
  rw [← flatMap_partsOf_stretches separators items]
  exact (sublist_flatten_of_mem (mem_map_of_mem listed)).length_le

theorem mem_of_mem_stretches {items : List Item} (listed : s ∈ stretches separators items)
    (member : item ∈ s) : item ∈ items ∧ item.separates separators = false := by
  induction items generalizing s with
  | nil =>
    obtain rfl : s = [] := by simpa [stretches] using listed
    cases member
  | cons first items ih =>
    obtain ⟨s', ss, read, cut⟩ := exists_stretches_cons separators first items
    rw [read] at ih
    rw [cut] at listed
    split at listed
    · rcases mem_cons.1 listed with rfl | listed
      · cases member
      · exact (ih listed member).imp_left (mem_cons_of_mem _)
    · next other =>
      rcases mem_cons.1 listed with rfl | listed
      · rcases mem_cons.1 member with rfl | member
        · exact ⟨by simp, by simpa using other⟩
        · exact (ih (by simp) member).imp_left (mem_cons_of_mem _)
      · exact (ih (by simp [listed]) member).imp_left (mem_cons_of_mem _)

theorem exists_stretch_of_parts (separators : List Char) {items rest : List Item} {t' : Text}
    (beside : .part t :: .part t' :: rest <:+ items) :
    ∃ s ∈ stretches separators items, 1 < (partsOf s).length := by
  obtain ⟨init, rfl⟩ := beside
  induction init with
  | nil =>
    obtain ⟨s, ss, read, cut⟩ := exists_stretches_cons separators (.part t') rest
    obtain ⟨s', ss', read', cut'⟩ := exists_stretches_cons separators (.part t) (.part t' :: rest)
    rw [cut] at read'
    obtain ⟨rfl, rfl⟩ := cons.inj read'
    refine ⟨.part t :: .part t' :: s, ?_, by simp [partsOf_cons, Item.part?]⟩
    rw [nil_append, cut', if_neg (by simp [Item.separates])]
    simp
  | cons item init ih =>
    obtain ⟨s, listed, two⟩ := ih
    obtain ⟨s', ss, read, cut⟩ :=
      exists_stretches_cons separators item (init ++ .part t :: .part t' :: rest)
    rw [cons_append, cut]
    rw [read] at listed
    split
    · exact ⟨s, mem_cons_of_mem _ listed, two⟩
    · rcases mem_cons.1 listed with rfl | later
      · refine ⟨item :: s, by simp, ?_⟩
        rw [partsOf_cons, length_append]
        omega
      · exact ⟨s, mem_cons_of_mem _ later, two⟩

theorem exists_of_partsOf (only : partsOf s = [t]) :
    ∃ lead trail, s = lead ++ .part t :: trail ∧ partsOf lead = [] ∧ partsOf trail = [] := by
  obtain ⟨lead, item, trail, rfl, none, here, rest⟩ := filterMap_eq_cons_iff.1 only
  refine ⟨lead, trail, ?_, filterMap_eq_nil_iff.2 none, rest⟩
  cases item with
  | part text =>
    cases here
    rfl
  | mark | comment => cases here

theorem isBlank_textOf (none : partsOf s = []) (free : ∀ item ∈ s, item.isComment = false)
    (blank : ∀ c, .mark c ∈ s → isBlank c) : ∀ c ∈ textOf s, isBlank c := by
  intro c member
  obtain ⟨item, listed, inside⟩ := mem_flatMap.1 member
  cases item with
  | part t => exact absurd (filterMap_eq_nil_iff.1 none _ listed) (by simp [Item.part?])
  | mark d =>
    obtain rfl := mem_singleton.1 inside
    exact blank c listed
  | comment t => cases free _ listed

namespace IsLayout

variable {items : List Item}

section

variable (h : IsLayout separators angles items)

include h

theorem blank (listed : s ∈ stretches separators items) (c : Char)
    (member : .mark c ∈ s) : isBlank c := by
  obtain ⟨inside, other⟩ := mem_of_mem_stretches listed member
  exact (h.mark c inside).resolve_right (by simpa [Item.separates] using other)

theorem rowText_eq (listed : s ∈ stretches separators items)
    (free : ∀ item ∈ s, item.isComment = false) :
    (partsOf s = [] ∧ rowText s = []) ∨ ∃ t, partsOf s = [t] ∧ rowText s = t ∧ t ≠ [] := by
  have blank := h.blank listed
  rcases parts : partsOf s with _ | ⟨t, _ | ⟨t', rest⟩⟩
  · refine .inl ⟨rfl, ?_⟩
    exact trim_of_forall (isBlank_textOf parts free blank)
  · obtain ⟨lead, trail, rfl, noLead, noTrail⟩ := exists_of_partsOf parts
    refine .inr ⟨t, rfl, ?_⟩
    have trimmed := h.trimmed t (mem_of_mem_stretches listed (by simp)).1
    have before := isBlank_textOf noLead (forall_mem_append.1 free).1
      fun c member => blank c (by simp [member])
    have behind := isBlank_textOf noTrail (fun item member => free item (by simp [member]))
      fun c member => blank c (by simp [member])
    have trim := trimmed.trim_eq before behind
    refine ⟨?_, trimmed.ne⟩
    rw [rowText, textOf_append, textOf_cons, ← append_assoc]
    exact trim
  · have one := h.apart s listed
    rw [parts] at one
    simp at one

theorem splitTop_eq_partsOf (known : separators ⊆ marks)
    (free : ∀ item ∈ items, item.isComment = false) :
    splitTop separators angles (textOf items) = partsOf items := by
  have each : ∀ s ∈ stretches separators items,
      (partsOf s = [] ∧ rowText s = []) ∨ ∃ t, partsOf s = [t] ∧ rowText s = t ∧ t ≠ [] :=
    fun s listed => h.rowText_eq listed fun item member =>
      free item (mem_of_mem_stretches listed member).1
  rw [h.splitTop_eq known, ← flatMap_partsOf_stretches separators items]
  generalize stretches separators items = ss at each ⊢
  induction ss with
  | nil => rfl
  | cons s ss ih =>
    have later := ih (forall_mem_cons.1 each).2
    rw [flatMap_cons, ← later]
    rcases each s (by simp) with ⟨none, empty⟩ | ⟨t, one, same, ne⟩
    · rw [none, rowsOf_cons_of_eq empty, nil_append]
    · rw [one, rowsOf_cons_of_ne (by rwa [same]), same, singleton_append]

end

theorem of_parts (known : separators ⊆ marks)
    (part : ∀ t, .part t ∈ items → IsPart separators angles t)
    (free : ∀ item ∈ items, item.isComment = false)
    (mark : ∀ c, .mark c ∈ items → isBlank c ∨ c ∈ separators)
    (apart : ∀ s ∈ stretches separators items, (partsOf s).length ≤ 1) :
    IsLayout separators angles items := by
  have plain : ∀ c, .mark c ∈ items → isPlain c := fun c member =>
    (mark c member).elim isPlain_of_isBlank fun listed => isPlain_of_mark (known listed)
  refine ⟨pieces_textOf plain (fun t rest ends => ?_) (fun t rest ends => ?_),
    fun t member => (part t member).trimmed, fun t member => (part t member).level,
    fun t member => (part t member).whole, mark, apart⟩
  · cases rest with
    | nil => simp [Parts, pieces]
    | cons next rest =>
      have inside : next ∈ items := ends.subset (by simp)
      cases next with
      | part t' =>
        obtain ⟨s, found, two⟩ := exists_stretch_of_parts separators ends
        have := apart s found
        omega
      | mark c =>
        have star : c ≠ '*' := by
          rintro rfl
          exact (mark '*' inside).elim (by decide) fun listed => absurd (known listed) (by decide)
        exact (part t (ends.subset (by simp))).ends c _ (plain c inside) star
      | comment t' => cases free _ inside
  · cases free _ (ends.subset (mem_cons_self ..))

end IsLayout

def inLine : List Text → List Item
  | [] => []
  | [t] => [.part t]
  | t :: rest => .part t :: .mark ',' :: .mark ' ' :: inLine rest

theorem textOf_inLine (parts : List Text) : textOf (inLine parts) = intercalate ", " parts := by
  fun_induction inLine parts with
  | case1 => rfl
  | case2 t => simp [Item.text]
  | case3 t rest several ih =>
    obtain ⟨second, rest, rfl⟩ := exists_cons_of_ne_nil several
    rw [intercalate_cons_cons, ← ih]
    simp [Item.text]

theorem partsOf_inLine (parts : List Text) : partsOf (inLine parts) = parts := by
  fun_induction inLine parts with
  | case1 | case2 => rfl
  | case3 t rest several ih => simp [partsOf_cons, Item.part?, ih]

theorem mem_inLine (member : item ∈ inLine parts) :
    (∃ t ∈ parts, item = .part t) ∨ item = .mark ',' ∨ item = .mark ' ' := by
  fun_induction inLine parts with
  | case1 => cases member
  | case2 t => exact .inl ⟨t, by simp, mem_singleton.1 member⟩
  | case3 t rest several ih =>
    rcases mem_cons.1 member with rfl | member
    · exact .inl ⟨t, by simp, rfl⟩
    rcases mem_cons.1 member with rfl | member
    · exact .inr (.inl rfl)
    rcases mem_cons.1 member with rfl | member
    · exact .inr (.inr rfl)
    · exact (ih member).imp_left fun ⟨t', listed, same⟩ => ⟨t', by simp [listed], same⟩

theorem length_partsOf_inLine {lead trail : List Item} (noLead : partsOf lead = [])
    (noTrail : partsOf trail = []) :
    ∀ s ∈ stretches [','] (lead ++ (inLine parts ++ trail)), (partsOf s).length ≤ 1 := by
  fun_induction inLine parts generalizing lead with
  | case1 | case2 =>
    intro s listed
    refine Nat.le_trans (length_partsOf_le listed) ?_
    simp [partsOf_append, partsOf_cons, noLead, noTrail, Item.part?]
  | case3 t rest several ih =>
    intro s listed
    have whole : lead ++ (.part t :: .mark ',' :: .mark ' ' :: inLine rest ++ trail) =
        (lead ++ [.part t]) ++ .mark ',' :: ([.mark ' '] ++ (inLine rest ++ trail)) := by simp
    rw [whole, stretches, splitOnP_append_cons _ _ rfl] at listed
    rcases mem_append.1 listed with before | behind
    · refine Nat.le_trans (length_partsOf_le before) ?_
      rw [partsOf_append, noLead]
      exact Nat.le_refl 1
    · exact ih rfl s behind

theorem splitTop_intercalate (part : ∀ t ∈ parts, IsPart [','] false t) {lead gap : Text}
    (before : ∀ c ∈ lead, isBlank c) (behind : ∀ c ∈ gap, isBlank c) :
    splitTop [','] false (lead ++ (intercalate ", " parts ++ gap)) = parts := by
  have noParts (t : Text) : partsOf (t.map .mark) = [] := by simp [partsOf, Item.part?]
  have text (t : Text) : textOf (t.map .mark) = t := by simp [textOf, flatMap_map, Item.text]
  have each : ∀ item ∈ lead.map .mark ++ (inLine parts ++ gap.map .mark),
      (∃ t ∈ parts, item = .part t) ∨ ∃ c, item = .mark c ∧ (isBlank c ∨ c ∈ [',']) := by
    intro item member
    rcases mem_append.1 member with inLead | member
    · obtain ⟨c, listed, rfl⟩ := mem_map.1 inLead
      exact .inr ⟨c, rfl, .inl (before c listed)⟩
    rcases mem_append.1 member with inList | inGap
    · rcases mem_inLine inList with part | rfl | rfl
      · exact .inl part
      · exact .inr ⟨',', rfl, by decide⟩
      · exact .inr ⟨' ', rfl, by decide⟩
    · obtain ⟨c, listed, rfl⟩ := mem_map.1 inGap
      exact .inr ⟨c, rfl, .inl (behind c listed)⟩
  have free : ∀ item ∈ lead.map .mark ++ (inLine parts ++ gap.map .mark),
      item.isComment = false := by
    intro item member
    rcases each item member with ⟨t, -, rfl⟩ | ⟨c, rfl, -⟩ <;> rfl
  have layout : IsLayout [','] false (lead.map .mark ++ (inLine parts ++ gap.map .mark)) := by
    refine .of_parts comma_subset_marks (fun t member => ?_) free (fun c member => ?_)
      (length_partsOf_inLine (noParts lead) (noParts gap))
    · rcases each _ member with ⟨t', listed, ⟨⟩⟩ | ⟨c, ⟨⟩, -⟩
      exact part t listed
    · rcases each _ member with ⟨t', -, ⟨⟩⟩ | ⟨c', ⟨⟩, kind⟩
      exact kind
  have split := layout.splitTop_eq_partsOf comma_subset_marks free
  rwa [textOf_append, textOf_append, text, text, textOf_inLine, partsOf_append, partsOf_append,
    noParts, noParts, partsOf_inLine, append_nil] at split

end Code

end SfcJsx
