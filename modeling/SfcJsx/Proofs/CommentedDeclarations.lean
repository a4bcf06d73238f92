import SfcJsx.Proofs.CommentedMembers

/-!
Comments in object literals, and in declarations of props as a whole. Only commas separate entries,
so a comment between two of them is read with the second one. Main statement: the entries are read
as without the comments exactly if comments stand only where no entry is declared.
-/

namespace SfcJsx

open List Text Code

variable {c : Char} {t key : Text} {e : Options.Entry} {ss : List (List Item)}

namespace Text

theorem trimStart_append_cons (t : Text) (other : isBlank c = false) (u : Text) :
    trimStart (t ++ c :: u) = t.trimStart ++ c :: u := by
  have stays : trimStart (c :: u) = c :: u := dropWhile_of_head? (by simpa using other)
  rw [trimStart_append]
  split
  · next empty => rw [empty, stays, nil_append]
  · rfl

theorem length_trimStart_append_le (t gap : Text) :
    t.trimStart.length ≤ (t ++ gap).trimStart.length := by
  rw [trimStart_append]
  split
  · next empty => simp [empty]
  · simp

theorem length_trimStart_lt (t gap : Text) (other : isBlank c = false) (u : Text) :
    t.trimStart.length < (t ++ (gap ++ c :: u)).trimStart.length := by
  have least := length_trimStart_append_le t gap
  rw [← append_assoc, trimStart_append_cons _ other, length_append, length_cons]
  omega

theorem length_trim_lt (t gap : Text) (other : isBlank c = false) (u : Text) :
    t.trim.length < (t ++ (gap ++ c :: u)).trim.length := by
  have least := length_trimStart_append_le t gap
  have most : t.trim.length ≤ t.trimStart.length := length_trimEnd_le _
  rw [← append_assoc, trim, trim, trimStart_append_cons _ other, trimEnd_append other,
    length_append, length_cons]
  rw [trim] at most
  omega

theorem isTrimmed_of_forall (ne : t ≠ []) (other : ∀ c ∈ t, isBlank c = false) : t.IsTrimmed := by
  refine ⟨ne, ?_, ?_⟩
  · cases first : t.head? with
    | none => rfl
    | some c => exact other c (mem_of_head? first)
  · cases last : t.getLast? with
    | none => rfl
    | some c => exact other c (mem_of_getLast? last)

end Text

namespace Options

open Code (marks Item Row isNote rowText rowsOf partsOf hasComment stretches)

namespace Entry

def endsKey (c : Char) : Bool := c == ':' || c == '(' || isBlank c

def keyName (written : Text) : Text := (unquote? written).getD written

theorem exists_cutKey? (read : ofMember? t = some e) :
    t.startsWith "..." = false ∧ ∃ written rest, cutKey? t = some (written, rest) ∧
      keyName written = e.name ∧ memberValue? e.name rest.trimStart = some e.value := by
  obtain ⟨_, spread, read⟩ := Option.bind_eq_some_iff.1 read
  obtain ⟨⟨written, rest⟩, cut, read⟩ := Option.bind_eq_some_iff.1 read
  obtain ⟨value, found, same⟩ := Option.bind_eq_some_iff.1 read
  cases same
  refine ⟨?_, written, rest, cut, rfl, found⟩
  cases starts : t.startsWith "..." with
  | false => rfl
  | true =>
    rw [starts] at spread
    cases spread

theorem cutKey?_cons (bare : ¬ (c = '\'' ∨ c = '"')) (t : Text) :
    cutKey? (c :: t) = some ((c :: t).takeWhile (!endsKey ·), (c :: t).dropWhile (!endsKey ·)) :=
  if_neg bare

theorem takeWhile_note (second : c = '/' ∨ c = '*') (u : Text) :
    ('/' :: c :: u).takeWhile (!endsKey ·) = '/' :: c :: u.takeWhile (!endsKey ·) := by
  have goes : !endsKey c := by rcases second with rfl | rfl <;> rfl
  rw [takeWhile_cons_of_pos (by rfl), takeWhile_cons_of_pos (by exact goes)]

theorem cutKey?_cases {written rest : Text} (ne : t ≠ []) (cut : cutKey? t = some (written, rest)) :
    (∀ more, cutKey? (t ++ more) = some (written, rest ++ more)) ∨
      rest = [] ∧ written = t ∧ (∀ c ∈ t, endsKey c = false) ∧
        ∀ more, cutKey? (t ++ more) = some (t ++ more.takeWhile (!endsKey ·),
          more.dropWhile (!endsKey ·)) := by
  obtain ⟨c, tail, rfl⟩ := exists_cons_of_ne_nil ne
  by_cases quoted : c = '\'' ∨ c = '"'
  · left
    intro more
    rw [cutKey?, if_pos quoted] at cut
    obtain ⟨⟨name, after⟩, found, same⟩ := Option.map_eq_some_iff.1 cut
    obtain ⟨rfl, rfl⟩ := Prod.mk.inj same
    have whole := eq_append_of_cut? found
    have again := cut?_swap (by simp) found (after ++ more)
    rw [← append_assoc, ← whole] at again
    rw [cons_append, cutKey?, if_pos quoted, again]
    rfl
  · rw [cutKey?_cons quoted] at cut
    obtain ⟨key, after⟩ := Prod.mk.inj (Option.some.inj cut)
    have whole : written ++ rest = c :: tail := by
      rw [← key, ← after, takeWhile_append_dropWhile]
    have inKey : ∀ d ∈ written, !endsKey d := by
      rw [← key]
      exact all_eq_true.1 all_takeWhile
    have goes (more : Text) : cutKey? (c :: tail ++ more) = some
        (written ++ (rest ++ more).takeWhile (!endsKey ·),
          (rest ++ more).dropWhile (!endsKey ·)) := by
      rw [cons_append, cutKey?_cons quoted, ← cons_append, ← whole, append_assoc,
        takeWhile_append_of_pos inKey, dropWhile_append_of_pos inKey]
    rcases rest with _ | ⟨d, rest⟩
    · rw [append_nil] at whole
      subst whole
      exact .inr ⟨rfl, rfl, by simpa using inKey, goes⟩
    · have stops : endsKey d := by
        have ends := head?_dropWhile (!endsKey ·) (c :: tail)
        rw [after] at ends
        simpa using ends
      refine .inl fun more => ?_
      rw [goes, cons_append, takeWhile_cons_of_neg (by simp [stops]),
        dropWhile_cons_of_neg (by simp [stops]), append_nil]

theorem length_keyName_le (written : Text) : (keyName written).length ≤ written.length := by
  rw [keyName]
  cases read : unquote? written with
  | none => exact Nat.le_refl _
  | some name =>
    unfold unquote? at read
    split at read
    · next quote rest trimmed =>
      split at read
      · have short := length_trim_le written
        have whole := eq_append_of_before? read
        rw [trimmed, whole] at short
        simp only [length_cons, length_append] at short
        show name.length ≤ _
        omega
      · cases read
    · cases read

theorem length_lt_keyName (ne : key ≠ []) (second : c = '/' ∨ c = '*')
    {u : Text} (trimmed : (key ++ '/' :: c :: u).IsTrimmed) :
    key.length < (keyName (key ++ '/' :: c :: u)).length := by
  rw [keyName]
  cases read : unquote? (key ++ '/' :: c :: u) with
  | none => simp
  | some name =>
    obtain ⟨d, tail, rfl⟩ := exists_cons_of_ne_nil ne
    rw [unquote?, trimmed.trim_self, cons_append] at read
    dsimp only at read
    split at read
    · next quote =>
      have whole := eq_append_of_before? read
      -- The last quote is not the comment's own second character.
      rcases eq_nil_or_concat u with rfl | ⟨init, last, rfl⟩
      · have ends := congrArg getLast? whole
        have same : c = d := by simpa using ends
        subst same
        rcases second with rfl | rfl <;> cases quote
      · have lengths := congrArg length whole
        simp at lengths ⊢
        omega
    · cases read

theorem memberValue?_cons (other : c ≠ ':' ∧ c ≠ '(') (key rest : Text) :
    memberValue? key (c :: rest) = none := by
  unfold memberValue?
  split
  · simp_all
  · simp_all
  · simp_all
  · rfl

theorem memberValue?_noted_ne {rest value : Text}
    (read : memberValue? key rest.trimStart = some value) {gap note : Text}
    (blank : ∀ c ∈ gap, isBlank c) (starts : isNote note) :
    memberValue? key (rest ++ (gap ++ note)).trimStart ≠ some value := by
  obtain ⟨c, u, rfl, -⟩ := isNote_iff.1 starts
  rw [trimStart_append]
  split
  · rw [Script.trimStart_blanks_append blank rfl, memberValue?_cons (by decide)]
    simp
  · next ne =>
    obtain ⟨d, tail, same⟩ := exists_cons_of_ne_nil ne
    rw [same] at read ⊢
    by_cases colon : d = ':'
    · subst colon
      cases read
      intro again
      have value : trim (tail ++ (gap ++ '/' :: c :: u)) = trim tail := Option.some.inj again
      have longer := length_trim_lt tail gap (c := '/') rfl (c :: u)
      rw [value] at longer
      omega
    by_cases method : d = '('
    · subst method
      obtain ⟨⟨parameters, body⟩, found, rfl⟩ := Option.map_eq_some_iff.1 read
      have pair : IsBracketPair '(' ')' := by decide
      obtain ⟨region, whole, isRegion⟩ := exists_isRegion pair found
      have goes := isRegion.found (body ++ (gap ++ '/' :: c :: u))
      rw [← append_assoc, ← whole] at goes
      have next : memberValue? key ('(' :: tail ++ (gap ++ '/' :: c :: u)) =
          some ("(" ++ parameters ++ ") => " ++ (body ++ (gap ++ '/' :: c :: u)).trimStart) :=
        Option.map_eq_some_iff.2 ⟨_, goes, rfl⟩
      rw [next]
      intro again
      have value := append_cancel_left (Option.some.inj again)
      have longer := length_trimStart_lt body gap (c := '/') rfl (c :: u)
      rw [value] at longer
      omega
    · rw [memberValue?_cons ⟨colon, method⟩] at read
      cases read

theorem isNote_name (note : isNote t) (read : ofMember? t = some e) : isNote e.name := by
  obtain ⟨-, written, rest, cut, name, -⟩ := exists_cutKey? read
  obtain ⟨c, u, rfl, second⟩ := isNote_iff.1 note
  rw [cutKey?_cons (by decide), takeWhile_note second] at cut
  cases cut
  have bare : unquote? ('/' :: c :: u.takeWhile (!endsKey ·)) = none := by
    have start := @trimEnd_append ['/'] c (by rcases second with rfl | rfl <;> rfl)
      (u.takeWhile (!endsKey ·))
    have whole : trim ('/' :: c :: u.takeWhile (!endsKey ·)) =
      '/' :: c :: trimEnd (u.takeWhile (!endsKey ·)) := start
    rw [unquote?, whole]
    rfl
  rw [← name, keyName, bare]
  exact isNote_iff.2 ⟨c, _, rfl, second⟩

theorem ofMember?_noted_ne (ne : t ≠ []) (read : ofMember? t = some e)
    {gap note : Text} (blank : ∀ c ∈ gap, isBlank c) (starts : isNote note) :
    ofMember? (t ++ (gap ++ note)) ≠ some e := by
  intro again
  obtain ⟨-, written, rest, cut, name, value⟩ := exists_cutKey? read
  obtain ⟨-, written', rest', cut', name', value'⟩ := exists_cutKey? again
  rcases cutKey?_cases ne cut with goes | ⟨rfl, rfl, bare, goes⟩
  · rw [goes] at cut'
    obtain ⟨rfl, rfl⟩ := Prod.mk.inj (Option.some.inj cut')
    exact memberValue?_noted_ne value blank starts value'
  · rw [goes] at cut'
    obtain ⟨rfl, rfl⟩ := Prod.mk.inj (Option.some.inj cut')
    obtain ⟨c, u, rfl, second⟩ := isNote_iff.1 starts
    rcases gap with _ | ⟨d, gap⟩
    · -- The comment becomes part of a bare key that stands alone.
      have key := takeWhile_note second u
      have inside : ∀ d ∈ written ++ '/' :: c :: u.takeWhile (!endsKey ·), endsKey d = false := by
        rw [← key]
        intro d member
        rcases mem_append.1 member with before | behind
        · exact bare d before
        · simpa using all_eq_true.1 all_takeWhile d behind
      have longer := length_lt_keyName ne second (isTrimmed_of_forall (by simp)
        fun d member => (Bool.or_eq_false_iff.1 (inside d member)).2)
      have most := length_keyName_le written
      rw [nil_append, key, ← name] at name'
      rw [name'] at longer
      omega
    · -- The key ends before a blank, and behind it stands neither a colon nor a parameter.
      have stops : endsKey d := by simp [endsKey, blank d (by simp)]
      rw [cons_append, dropWhile_cons_of_neg (by simp [stops]), ← cons_append,
        Script.trimStart_blanks_append blank rfl] at value'
      cases value'

/-- Whether a member is a spread, or has neither a colon nor parameters behind its key. -/
def isLeftOut (t : Text) : Bool :=
  t.startsWith "..." ||
    (cutKey? t).any fun cut => cut.2.trimStart.head?.any fun c => c != ':' && c != '('

theorem ofMember?_append_of_isLeftOut (leftOut : isLeftOut t) (ne : t ≠ [])
    (more : Text) : ofMember? (t ++ more) = none := by
  cases read : ofMember? (t ++ more) with
  | none => rfl
  | some e =>
    obtain ⟨listed, written', rest', cut', -, value⟩ := exists_cutKey? read
    rcases Bool.or_eq_true_iff.1 leftOut with starts | other
    · obtain ⟨u, rfl⟩ := startsWith_eq_true_iff.1 starts
      cases listed
    · obtain ⟨⟨written, rest⟩, cut, shape⟩ := (Option.any_eq_true _ _).1 other
      obtain ⟨c, first, shape⟩ := (Option.any_eq_true _ _).1 shape
      obtain ⟨u, next⟩ := head?_eq_some_iff.1 first
      rcases cutKey?_cases ne cut with goes | ⟨rfl, -⟩
      · rw [goes] at cut'
        obtain ⟨rfl, rfl⟩ := Prod.mk.inj (Option.some.inj cut')
        rw [trimStart_append, if_neg (by simp [next]), next, cons_append,
          memberValue?_cons (by simpa using shape)] at value
        cases value
      · cases next

end Entry

theorem length_filterMap_le {α β : Type} {f g : α → Option β} {l : List α}
    (fewer : ∀ a ∈ l, (f a).isSome → (g a).isSome) :
    (l.filterMap f).length ≤ (l.filterMap g).length := by
  rw [length_filterMap_eq_countP, length_filterMap_eq_countP]
  exact countP_mono_left fewer

theorem filterMap_eq_filterMap_iff {α β : Type} {f g : α → Option β} {l : List α}
    (fewer : ∀ a ∈ l, (f a).isSome → (g a).isSome) :
    l.filterMap f = l.filterMap g ↔ ∀ a ∈ l, f a = g a := by
  induction l with
  | nil => simp
  | cons a l ih =>
    have later := (forall_mem_cons.1 fewer).2
    have here := fewer a (by simp)
    rw [forall_mem_cons, ← ih later, filterMap_cons, filterMap_cons]
    cases left : f a with
    | none =>
      cases right : g a with
      | none => simp
      | some b =>
        have most := length_filterMap_le later
        constructor
        · intro same
          have lengths := congrArg length same
          simp only [length_cons] at lengths
          omega
        · rintro ⟨same, -⟩
          cases same
    | some b =>
      obtain ⟨c, right⟩ := Option.isSome_iff_exists.1 (here (by rw [left]; rfl))
      simp [right]

namespace Entry

def ofStretch? (s : List Item) : Option Entry :=
  if rowText s = [] then none else ofMember? (rowText s)

def ofPart? (s : List Item) : Option Entry := (partsOf s).head?.bind ofMember?

theorem filterMap_rowsOf (ss : List (List Item)) :
    (rowsOf ss).filterMap ofMember? = ss.filterMap ofStretch? := by
  induction ss with
  | nil => rfl
  | cons s ss ih =>
    by_cases empty : rowText s = []
    · rw [rowsOf_cons_of_eq empty, ih, filterMap_cons_none (by rw [ofStretch?, if_pos empty])]
    · rw [rowsOf_cons_of_ne empty, filterMap_cons, filterMap_cons, ih, ofStretch?, if_neg empty]

theorem filterMap_flatMap_partsOf (one : ∀ s ∈ ss, (partsOf s).length ≤ 1) :
    (ss.flatMap partsOf).filterMap ofMember? = ss.filterMap ofPart? := by
  induction ss with
  | nil => rfl
  | cons s ss ih =>
    have later := ih (forall_mem_cons.1 one).2
    have most := one s (by simp)
    rw [flatMap_cons, filterMap_append, later, filterMap_cons, ofPart?]
    rcases parts : partsOf s with _ | ⟨t, _ | ⟨t', rest⟩⟩
    · rfl
    · cases read : ofMember? t <;> simp [read]
    · rw [parts, length_cons, length_cons] at most
      omega

end Entry

open Entry

/-- Comments stand only where no entry is declared, with them or without. -/
def LeavesEntries (ss : List (List Item)) : Prop :=
  ∀ s ∈ ss, hasComment s → ofMember? (rowText s) = none ∧ ∀ t ∈ partsOf s, ofMember? t = none

variable {s : List Item}

theorem ofStretch?_eq_iff (shape : Row s) (most : (partsOf s).length ≤ 1)
    (ne : ∀ t ∈ partsOf s, t ≠ []) (clean : ∀ e, ofPart? s = some e → isNote e.name = false) :
    ofStretch? s = ofPart? s ↔ (hasComment s →
      ofMember? (rowText s) = none ∧ ∀ t ∈ partsOf s, ofMember? t = none) := by
  have alone {t : Text} (one : partsOf s = [t]) : ofPart? s = ofMember? t := by
    rw [ofPart?, one]
    rfl
  have nothing : (∀ t ∈ partsOf s, ofMember? t = none) ↔ ofPart? s = none := by
    rcases parts : partsOf s with _ | ⟨t, _ | ⟨t', rest⟩⟩
    · simp [ofPart?, parts]
    · simp [alone parts]
    · rw [parts, length_cons, length_cons] at most
      omega
  rw [nothing]
  cases shape with
  | blank none plain empty => simp [ofStretch?, empty, plain, ofPart?, none]
  | @part t one plain same => simp [ofStretch?, same, plain, alone one, ne t (by simp [one])]
  | note commented starts =>
    rw [ofStretch?, if_neg (ne_nil_of_isNote starts)]
    refine ⟨fun same _ => ?_, fun both => ?_⟩
    · cases read : ofMember? (rowText s) with
      | none => exact ⟨rfl, by rw [← same, read]⟩
      | some e =>
        have named := clean e (by rw [← same, read])
        rw [Entry.isNote_name starts read] at named
        cases named
    · rw [(both commented).1, (both commented).2]
  | @noted t gap note one commented same blank starts =>
    have row : rowText s ≠ [] := by simp [same, ne t (by simp [one])]
    rw [ofStretch?, if_neg row, alone one]
    refine ⟨fun agree _ => ?_, fun both => ?_⟩
    · cases read : ofMember? t with
      | none => exact ⟨by rw [agree, read], rfl⟩
      | some e =>
        rw [same, read] at agree
        exact absurd agree (ofMember?_noted_ne (ne t (by simp [one])) read blank starts)
    · rw [(both commented).1, (both commented).2]

theorem isSome_ofPart? (shape : Row s) (ne : ∀ t ∈ partsOf s, t ≠ [])
    (member : ∀ t ∈ partsOf s, (ofMember? t).isSome ∨ isLeftOut t)
    (clean : ∀ e, ofStretch? s = some e → isNote e.name = false)
    (some : (ofStretch? s).isSome) : (ofPart? s).isSome := by
  obtain ⟨e, read⟩ := Option.isSome_iff_exists.1 some
  have row : ofMember? (rowText s) = .some e := by
    rw [ofStretch?] at read
    split at read
    · cases read
    · exact read
  cases shape with
  | blank _ _ empty => simp [ofStretch?, empty] at read
  | part one _ same =>
    rw [ofPart?, one, ← same]
    exact Option.isSome_iff_exists.2 ⟨e, row⟩
  | note _ starts =>
    have named := clean e read
    rw [Entry.isNote_name starts row] at named
    cases named
  | @noted t gap note one _ same =>
    rw [ofPart?, one]
    refine (member t (by simp [one])).resolve_right fun leftOut => ?_
    rw [same, ofMember?_append_of_isLeftOut leftOut (ne t (by simp [one]))] at row
    cases row

theorem filterMap_ofStretch?_iff (shape : ∀ s ∈ ss, Row s)
    (one : ∀ s ∈ ss, (partsOf s).length ≤ 1) (ne : ∀ s ∈ ss, ∀ t ∈ partsOf s, t ≠ [])
    (member : ∀ s ∈ ss, ∀ t ∈ partsOf s, (ofMember? t).isSome ∨ isLeftOut t)
    (clean : ∀ s ∈ ss, ∀ e, ofPart? s = some e → isNote e.name = false) :
    ss.filterMap ofStretch? = ss.filterMap ofPart? ↔ LeavesEntries ss := by
  have each {s : List Item} (listed : s ∈ ss) :=
    ofStretch?_eq_iff (shape s listed) (one s listed) (ne s listed) (clean s listed)
  constructor
  · intro same s listed
    have fewer : ∀ s ∈ ss, (ofStretch? s).isSome → (ofPart? s).isSome := by
      refine fun s listed => isSome_ofPart? (shape s listed) (ne s listed) (member s listed)
        fun e read => ?_
      have found : e ∈ ss.filterMap ofPart? := by
        rw [← same]
        exact mem_filterMap.2 ⟨s, listed, read⟩
      obtain ⟨s', listed', read'⟩ := mem_filterMap.1 found
      exact clean s' listed' e read'
    exact (each listed).1 ((filterMap_eq_filterMap_iff fewer).1 same s listed)
  · intro leaves
    have same : ∀ s ∈ ss, ofStretch? s = ofPart? s := fun s listed =>
      (each listed).2 (leaves s listed)
    exact (filterMap_eq_filterMap_iff fun s listed some => by rwa [← same s listed]).2 same

/-- The text of a member of an object literal: it declares an entry or is of a shape that is left
out, and no comment can be taken for it. -/
@[mk_iff] structure IsEntryText (t : Text) : Prop extends IsMemberText false [','] t where
  slash : t.getLast? ≠ some '/'
  member : (ofMember? t).isSome ∨ isLeftOut t
  clean : (ofMember? t).all (!isNote ·.name)

instance (t : Text) : Decidable (IsEntryText t) := decidable_of_iff' _ (isEntryText_iff t)

/-- Members of an object laid out with comments around them. -/
structure IsCommentedObject (items : List Item) : Prop where
  entry : ∀ t ∈ partsOf items, IsEntryText t
  mark : ∀ c, .mark c ∈ items → isBlank c ∨ c ∈ [',']
  comment : ∀ t rest, .comment t :: rest <:+ items → IsComment t rest
  apart : ∀ s ∈ stretches [','] items, (partsOf s).length ≤ 1

namespace IsCommentedObject

variable {items : List Item}

section

variable (h : IsCommentedObject items)

include h

theorem isCommented : IsCommented [','] false items := by
  have entry {t : Text} (member : .part t ∈ items) : IsEntryText t :=
    h.entry t (mem_filterMap.2 ⟨_, member, rfl⟩)
  exact ⟨fun t member => (entry member).trimmed, fun t member => (entry member).level,
    fun t member => (entry member).whole,
    fun t member rest => parts_of_isClosed (entry member).free (entry member).closed
      fun last => absurd last (entry member).slash,
    h.mark, h.comment, h.apart⟩

theorem ofObject_literal :
    ofObject (literal items) = (stretches [','] items).filterMap ofStretch? := by
  rw [ofObject, dropBraces_literal, h.isCommented.splitTop_eq comma_subset_marks, filterMap_rowsOf]

theorem ofObject_bare :
    ofObject (literal (bare items)) = (stretches [','] items).filterMap ofPart? := by
  rw [ofObject, dropBraces_literal, h.isCommented.splitTop_bare comma_subset_marks,
    ← flatMap_partsOf_stretches [','], filterMap_flatMap_partsOf h.apart]

theorem ofObject_eq_iff :
    ofObject (literal items) = ofObject (literal (bare items)) ↔
      LeavesEntries (stretches [','] items) := by
  have entry {s : List Item} (listed : s ∈ stretches [','] items) {t : Text}
      (part : t ∈ partsOf s) : IsEntryText t := by
    refine h.entry t ?_
    rw [← flatMap_partsOf_stretches [',']]
    exact mem_flatMap.2 ⟨s, listed, part⟩
  rw [h.ofObject_literal, h.ofObject_bare]
  refine filterMap_ofStretch?_iff
    (fun s listed => h.isCommented.row comma_subset_marks listed) h.apart
    (fun s listed t part => (entry listed part).trimmed.ne)
    (fun s listed t part => (entry listed part).member) fun s listed e read => ?_
  obtain ⟨t, first, read⟩ := Option.bind_eq_some_iff.1 read
  have clean := (entry listed (mem_of_head? first)).clean
  rw [read] at clean
  simpa using clean

end

end IsCommentedObject

/-- Comments change no member of a type literal exactly if they stand in rows of their own that
declare nothing, and no entry of an object literal exactly if they stand only where none is
declared. Where both is so, they leave the props that a component declares as they are. -/
theorem Props.ofType_commented {members : List WrittenMember} {items entries : List Item}
    (type : IsCommentedType members items) (object : IsCommentedObject entries) :
    (TypeMember.ofLiteral (literal items) = TypeMember.ofLiteral (literal (Code.bare items)) ↔
      LeavesMembers (stretches marks items)) ∧
    (ofObject (literal entries) = ofObject (literal (Code.bare entries)) ↔
      LeavesEntries (stretches [','] entries)) ∧
    (LeavesMembers (stretches marks items) → LeavesEntries (stretches [','] entries) →
      Props.ofType (literal items) (some (literal entries)) =
        Props.ofType (literal (Code.bare items)) (some (literal (Code.bare entries)))) := by
  refine ⟨type.ofLiteral_eq_iff, object.ofObject_eq_iff, fun members entries => ?_⟩
  simp only [Props.ofType, Option.map_some, Option.getD_some, type.ofLiteral_eq_iff.2 members,
    object.ofObject_eq_iff.2 entries]

def titledMembers : List WrittenMember :=
  [⟨⟨"a", "string", false⟩, none⟩, ⟨⟨"b", "number", true⟩, none⟩]

theorem isDeclarable_titled {m : WrittenMember} (listed : m ∈ titledMembers) : m.IsDeclarable := by
  rcases mem_cons.1 listed with rfl | listed
  · exact ⟨show isIdentifier "a" = true by decide, by decide +kernel⟩
  · obtain rfl := mem_singleton.1 listed
    exact ⟨show isIdentifier "b" = true by decide, by decide +kernel⟩

def titledAbove : List Item :=
  [.mark '\n', .comment "// the title", .mark '\n', .part "a: string", .mark ';', .mark '\n',
   .comment "/* a count */", .mark '\n', .part "b?: number", .mark '\n']

def titledBeside : List Item :=
  [.mark '\n', .part "a: string", .mark ' ', .comment "// the title", .mark '\n',
   .comment "/* a count */", .mark ' ', .part "b?: number", .mark '\n']

theorem isComment_title (rest : List Item) : IsComment "// the title" (.mark '\n' :: rest) :=
  @IsComment.line " the title" (fun listed => absurd (elem_iff.2 listed) (by decide)) rest

theorem isComment_count (rest : List Item) : IsComment "/* a count */" rest :=
  @IsComment.block " a count " (by decide +kernel) rest

theorem isCommentedType_titledAbove : IsCommentedType titledMembers titledAbove :=
  ⟨⟨fun _ => isDeclarable_titled, rfl, mark_of_all rfl, by decide +kernel⟩,
    @comment_append [.mark '\n'] rfl _ _ (isComment_title _)
      (@comment_append [.mark '\n', .part "a: string", .mark ';', .mark '\n'] rfl _ _
        (isComment_count _) (comment_of_free rfl)),
    by decide +kernel, by decide +kernel, by decide +kernel⟩

theorem isCommentedType_titledBeside : IsCommentedType titledMembers titledBeside :=
  ⟨⟨fun _ => isDeclarable_titled, rfl, mark_of_all rfl, by decide +kernel⟩,
    @comment_append [.mark '\n', .part "a: string", .mark ' '] rfl _ _ (isComment_title _)
      (@comment_append [.mark '\n'] rfl _ _ (isComment_count _) (comment_of_free rfl)),
    by decide +kernel, by decide +kernel, by decide +kernel⟩

def countedBehind : List Item :=
  [.part "a: 'x'", .mark ',', .part "...rest", .mark ',', .part "b: 2", .mark ',', .mark ' ',
   .comment "/* a count */"]

def countedBefore : List Item :=
  [.part "a: 'x'", .mark ',', .part "...rest", .mark ',', .comment "/* a count */", .mark ' ',
   .part "b: 2"]

theorem isCommentedObject_countedBehind : IsCommentedObject countedBehind :=
  ⟨by decide +kernel, mark_of_all rfl,
    @comment_append [.part "a: 'x'", .mark ',', .part "...rest", .mark ',', .part "b: 2",
      .mark ',', .mark ' '] rfl _ _ (isComment_count _) (comment_of_free rfl),
    by decide +kernel⟩

theorem isCommentedObject_countedBefore : IsCommentedObject countedBefore :=
  ⟨by decide +kernel, mark_of_all rfl,
    @comment_append [.part "a: 'x'", .mark ',', .part "...rest", .mark ','] rfl _ _
      (isComment_count _) (comment_of_free rfl), by decide +kernel⟩

theorem leavesMembers_titledAbove : LeavesMembers (stretches marks titledAbove) :=
  ⟨by decide +kernel, by decide +kernel, by decide +kernel⟩

theorem leavesEntries_countedBehind : LeavesEntries (stretches [','] countedBehind) := by
  unfold LeavesEntries
  decide +kernel

theorem Props.ofType_titledAbove :
    IsCommentedType titledMembers titledAbove ∧ IsCommentedObject countedBehind ∧
    TypeMember.ofLiteral (literal titledAbove) =
      TypeMember.ofLiteral (literal (Code.bare titledAbove)) ∧
    ofObject (literal countedBehind) = ofObject (literal (Code.bare countedBehind)) ∧
    Props.ofType (literal titledAbove) (some (literal countedBehind)) =
      Props.ofType (literal (Code.bare titledAbove))
        (some (literal (Code.bare countedBehind))) := by
  obtain ⟨type, object, props⟩ :=
    Props.ofType_commented isCommentedType_titledAbove isCommentedObject_countedBehind
  exact ⟨isCommentedType_titledAbove, isCommentedObject_countedBehind,
    type.2 leavesMembers_titledAbove, object.2 leavesEntries_countedBehind,
    props leavesMembers_titledAbove leavesEntries_countedBehind⟩

/-- A comment beside a member becomes part of its type, or hides it, and one without a blank is a
member itself; a comment before an entry hides the entry. -/
theorem Props.ofType_titledBeside :
    IsCommentedType titledMembers titledBeside ∧ IsCommentedObject countedBefore ∧
    TypeMember.ofLiteral (literal titledBeside) = [⟨"a", "string // the title", false⟩] ∧
    TypeMember.ofLiteral (literal (Code.bare titledBeside)) =
      [⟨"a", "string", false⟩, ⟨"b", "number", true⟩] ∧
    TypeMember.ofLiteral "\x7b\n//a: old\n\x7d" = [⟨"//a", "old", false⟩] ∧
    ofObject (literal countedBefore) = [⟨"a", "'x'"⟩] ∧
    ofObject (literal (Code.bare countedBefore)) = [⟨"a", "'x'"⟩, ⟨"b", "2"⟩] :=
  ⟨isCommentedType_titledBeside, isCommentedObject_countedBefore, by decide +kernel,
    by decide +kernel, by decide +kernel, by decide +kernel, by decide +kernel⟩

end Options

end SfcJsx
