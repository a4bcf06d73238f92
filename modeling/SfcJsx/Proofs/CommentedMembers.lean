import SfcJsx.Proofs.CommentedLayout
import SfcJsx.Proofs.WrittenMembers

/-!
Comments in type literals. They are left in the rows that splitting gives, so they count as rows of
members. Main statement: the members are read as without the comments exactly if every comment
stands in rows of its own, these rows declare nothing, and none of them runs on into a member.
-/

namespace SfcJsx.Options

open List Code Text WrittenMember
open Code (marks Item Row isNote rowText rowsOf partsOf hasComment stretches)

variable {t row current next : Text} {m : WrittenMember} {rows : List Text}
  {ss run : List (List Item)} {s : List Item}

namespace TypeMember

theorem isUnfinished_append (s : Text) (ne : t ≠ []) :
    isUnfinished (s ++ " " ++ t) = isUnfinished t := by
  obtain ⟨init, c, rfl⟩ := (eq_nil_or_concat t).resolve_left ne
  have whole : s ++ " " ++ init.concat c = s ++ ' ' :: init.concat c := append_assoc _ _ _
  have last : (s ++ ' ' :: init.concat c).getLast? = (init.concat c).getLast? := by
    rw [concat_eq_append, ← cons_append, ← append_assoc, getLast?_concat, getLast?_concat]
  rw [whole, isUnfinished, last, endsWith_arrow, isUnfinished]

theorem isNote_append (s t : Text) : isNote (s ++ " " ++ t) = isNote s := by
  rw [Bool.eq_iff_iff, isNote_iff, isNote_iff, append_assoc]
  constructor
  · rintro ⟨c, u, same, second⟩
    rcases s with _ | ⟨a, _ | ⟨b, s⟩⟩
    · cases same
    · rcases second with rfl | rfl <;> cases same
    · simp only [cons_append, cons.injEq] at same
      obtain ⟨rfl, rfl, -⟩ := same
      exact ⟨b, s, rfl, second⟩
  · rintro ⟨c, u, rfl, second⟩
    exact ⟨c, u ++ (" " ++ t), rfl, second⟩

theorem exists_cutName? {m : TypeMember} (read : parse? t = some m) :
    ∃ rest, cutName? (((after? "readonly " t.trim).getD t.trim).trimStart) =
      some (m.name, rest) := by
  obtain ⟨-, -, read⟩ := Option.bind_eq_some_iff.1 read
  obtain ⟨⟨name, rest⟩, cut, read⟩ := Option.bind_eq_some_iff.1 read
  obtain ⟨-, -, read⟩ := Option.bind_eq_some_iff.1 read
  refine ⟨rest, cut.trans ?_⟩
  dsimp only at read
  split at read
  all_goals
    obtain ⟨type, -, same⟩ := Option.bind_eq_some_iff.1 read
    cases same
    rfl

theorem isNote_name (note : isNote t) {m : TypeMember}
    (read : parse? t = some m) : isNote m.name := by
  obtain ⟨rest, cut⟩ := exists_cutName? read
  have trimmed : isNote t.trim := by
    simpa using @trim_note [] t (by simp) note []
  obtain ⟨c, u, same, second⟩ := isNote_iff.1 trimmed
  have start : ((after? "readonly " t.trim).getD t.trim).trimStart = '/' :: c :: u := by
    rw [same]
    rfl
  have goes : (!(c == '?' || c == ':' || c == '(' || c == '<' || isBlank c)) := by
    rcases second with rfl | rfl <;> rfl
  rw [start, cutName?, breakAt, takeWhile_cons_of_pos (by rfl),
    takeWhile_cons_of_pos (by exact goes)] at cut
  obtain ⟨name, -⟩ := Prod.mk.inj (Option.some.inj cut)
  exact isNote_iff.2 ⟨c, _, name.symm, second⟩

def ofRows (rows : List Text) : List TypeMember := (join rows).filterMap parse?

def cleanCount (members : List TypeMember) : Nat := members.countP fun m => !isNote m.name

def lastOf (current : Text) (rows : List Text) : Text := rows.getLast?.getD current

theorem lastOf_cons (current row : Text) (rows : List Text) :
    lastOf current (row :: rows) = lastOf row rows := by
  rw [lastOf, getLast?_cons]
  rfl

theorem isUnfinished_lastOf (ne : row ≠ []) (current : Text) (rows : List Text) :
    isUnfinished (lastOf (current ++ " " ++ row) rows) = isUnfinished (lastOf row rows) := by
  cases rows with
  | nil => exact isUnfinished_append current ne
  | cons next rows => rw [lastOf_cons, lastOf_cons]

theorem joinFrom_append (ne : ∀ row ∈ rows, row ≠ [])
    (finished : isUnfinished (lastOf current rows) = false) (fresh : resumes next = false)
    (others : List Text) :
    joinFrom current (rows ++ next :: others) = joinFrom current rows ++ joinFrom next others := by
  induction rows generalizing current with
  | nil =>
    have apart : continues current next = false := by
      rw [continues_eq, fresh, Bool.or_false]
      exact finished
    show (if continues current next then _ else current :: joinFrom next others) = _
    rw [apart]
    rfl
  | cons row rows ih =>
    have later := (forall_mem_cons.1 ne).2
    rw [lastOf_cons] at finished
    rw [cons_append, joinFrom, joinFrom]
    split
    · exact ih later (by rw [isUnfinished_lastOf (ne row (by simp)), finished])
    · rw [ih later finished]
      rfl

theorem cleanCount_cons_le (t : Text) (rows : List Text) :
    cleanCount ((t :: rows).filterMap parse?) ≤
      (if isNote t then 0 else 1) + cleanCount (rows.filterMap parse?) := by
  cases read : parse? t with
  | none =>
    rw [filterMap_cons_none read]
    omega
  | some m =>
    rw [filterMap_cons_some read, cleanCount, countP_cons, ← cleanCount]
    split
    · cases note : isNote t with
      | false =>
        rw [if_neg Bool.false_ne_true]
        omega
      | true => simp_all [isNote_name note read]
    · omega

theorem cleanCount_joinFrom_le (current : Text) (rows : List Text) :
    cleanCount ((joinFrom current rows).filterMap parse?) ≤
      (if isNote current then 0 else 1) + rows.countP fun row => !isNote row := by
  induction rows generalizing current with
  | nil => exact cleanCount_cons_le current []
  | cons row rows ih =>
    have more : (rows.countP fun row => !isNote row) + (if isNote row then 0 else 1) =
        (row :: rows).countP fun row => !isNote row := by
      rw [countP_cons]
      cases isNote row <;> rfl
    rw [joinFrom]
    split
    · have joined := ih (current ++ " " ++ row)
      rw [isNote_append] at joined
      omega
    · have first := cleanCount_cons_le current (joinFrom row rows)
      have later := ih row
      omega

theorem cleanCount_unfinished (note : isNote current)
    (ne : ∀ row ∈ rows, row ≠ []) (notes : ∀ row ∈ rows, isNote row)
    (unfinished : isUnfinished (lastOf current rows)) (others : List Text) :
    cleanCount ((joinFrom current (rows ++ next :: others)).filterMap parse?) ≤
      others.countP fun row => !isNote row := by
  induction rows generalizing current with
  | nil =>
    have goes : continues current next := by
      rw [continues_eq]
      exact Bool.or_eq_true_iff.2 (.inl unfinished)
    have joined := cleanCount_joinFrom_le (current ++ " " ++ next) others
    rw [isNote_append, note, if_pos rfl] at joined
    rw [nil_append, joinFrom, if_pos goes]
    omega
  | cons row rows ih =>
    have later := (forall_mem_cons.1 ne).2
    have laterNotes := (forall_mem_cons.1 notes).2
    rw [lastOf_cons] at unfinished
    rw [cons_append, joinFrom]
    split
    · exact ih (by rw [isNote_append, note]) later laterNotes
        (by rw [isUnfinished_lastOf (ne row (by simp)), unfinished])
    · have first := cleanCount_cons_le current (joinFrom row (rows ++ next :: others))
      have rest := ih (notes row (by simp)) later laterNotes unfinished
      rw [note, if_pos rfl] at first
      omega

theorem exists_joinFrom (trimmed : current.IsTrimmed) (each : ∀ row ∈ rows, row.IsTrimmed) :
    ∃ more others, joinFrom current rows = (current ++ more) :: others ∧
      (current ++ more).IsTrimmed := by
  induction rows generalizing current with
  | nil => exact ⟨[], [], by rw [append_nil]; rfl, by rwa [append_nil]⟩
  | cons row rows ih =>
    have later := (forall_mem_cons.1 each).2
    rw [joinFrom]
    split
    · have joined : (current ++ " " ++ row).IsTrimmed := by
        rw [append_assoc]
        exact trimmed.append " " (each row (by simp))
      obtain ⟨more, others, same, whole⟩ := ih joined later
      exact ⟨" " ++ row ++ more, others, by simpa using same, by simpa using whole⟩
    · exact ⟨[], joinFrom row rows, by rw [append_nil], by rwa [append_nil]⟩

theorem ofRows_append (ne : ∀ row ∈ rows, row ≠ [])
    (finished : ∀ row, rows.getLast? = some row → isUnfinished row = false)
    (fresh : resumes next = false) (others : List Text) :
    ofRows (rows ++ next :: others) = ofRows rows ++ ofRows (next :: others) := by
  cases rows with
  | nil => rfl
  | cons row rows =>
    have ends : (row :: rows).getLast? = some (lastOf row rows) := by
      rw [getLast?_cons]
      rfl
    have split := joinFrom_append (forall_mem_cons.1 ne).2 (finished _ ends) fresh others
    rw [ofRows, cons_append, join, split, filterMap_append]
    rfl

theorem cleanCount_ofRows_append_le (ne : ∀ row ∈ rows, row ≠ [])
    (notes : ∀ row ∈ rows, isNote row) (last : rows.getLast? = some row)
    (unfinished : isUnfinished row) (next : Text) (others : List Text) :
    cleanCount (ofRows (rows ++ next :: others)) ≤ others.countP fun row => !isNote row := by
  cases rows with
  | nil => cases last
  | cons first rows =>
    rw [getLast?_cons] at last
    cases last
    exact cleanCount_unfinished (notes first (by simp))
      (forall_mem_cons.1 ne).2
      (forall_mem_cons.1 notes).2 unfinished others

theorem cleanCount_ofRows (notes : ∀ row ∈ rows, isNote row) : cleanCount (ofRows rows) = 0 := by
  cases rows with
  | nil => rfl
  | cons row rows =>
    have most := cleanCount_joinFrom_le row rows
    have none : (rows.countP fun row => !isNote row) = 0 :=
      countP_eq_zero.2 fun other member => by simp [notes other (by simp [member])]
    rw [none, notes row (by simp)] at most
    exact Nat.le_zero.1 most

end TypeMember

theorem isTrimmed_of_mem_rowsOf (listed : row ∈ rowsOf ss) : row.IsTrimmed := by
  obtain ⟨member, some⟩ := mem_filter.1 listed
  obtain ⟨s, -, rfl⟩ := mem_map.1 member
  exact isTrimmed_trim (by simpa [rowText] using some)

def hasPart (s : List Item) : Bool := !(partsOf s).isEmpty

theorem isNote_of_mem_rowsOf (shape : ∀ s ∈ run, Row s) (none : ∀ s ∈ run, partsOf s = [])
    (listed : row ∈ rowsOf run) : isNote row := by
  obtain ⟨member, some⟩ := mem_filter.1 listed
  obtain ⟨s, inside, rfl⟩ := mem_map.1 member
  cases shape s inside with
  | blank _ _ empty => simp [empty] at some
  | note _ starts => exact starts
  | part one => simp [none s inside] at one
  | noted one => simp [none s inside] at one

theorem countP_rowsOf_le (shape : ∀ s ∈ ss, Row s) :
    (rowsOf ss).countP (fun row => !isNote row) ≤ (ss.flatMap partsOf).length := by
  induction ss with
  | nil => simp [rowsOf]
  | cons s ss ih =>
    have later := ih (forall_mem_cons.1 shape).2
    rw [flatMap_cons, length_append]
    by_cases empty : rowText s = []
    · rw [rowsOf_cons_of_eq empty]
      omega
    · have some : isNote (rowText s) ∨ (partsOf s).length = 1 := by
        cases shape s (by simp) with
        | blank _ _ empty' => exact absurd empty' empty
        | note _ starts => exact .inl starts
        | part one | noted one => exact .inr (by rw [one]; rfl)
      rw [rowsOf_cons_of_ne empty, countP_cons]
      rcases some with note | one
      · rw [note, if_neg (by decide)]
        omega
      · split <;> omega

theorem exists_first_part {ts : List Text}
    (parts : ss.flatMap partsOf = t :: ts) (one : ∀ s ∈ ss, (partsOf s).length ≤ 1) :
    ∃ run s rest, ss = run ++ s :: rest ∧ (∀ r ∈ run, partsOf r = []) ∧ partsOf s = [t] ∧
      rest.flatMap partsOf = ts := by
  induction ss with
  | nil => cases parts
  | cons s ss ih =>
    rw [flatMap_cons] at parts
    rcases inside : partsOf s with _ | ⟨t', rest⟩
    · rw [inside] at parts
      obtain ⟨run, s', rest, rfl, none, here, later⟩ := ih parts (forall_mem_cons.1 one).2
      refine ⟨s :: run, s', rest, rfl, ?_, here, later⟩
      rintro r (_ | ⟨_, member⟩)
      · exact inside
      · exact none r member
    · have most := one s (by simp)
      rw [inside, length_cons] at most
      obtain rfl : rest = [] := length_eq_zero_iff.1 (by omega)
      rw [inside] at parts
      cases parts
      exact ⟨[], s, ss, rfl, by simp, inside, rfl⟩

/-- Comments in stretches of their own that declare nothing. -/
structure LeavesMembers (ss : List (List Item)) : Prop where
  apart : ∀ s ∈ ss, hasPart s → hasComment s = false
  silent : ∀ run ∈ ss.splitOnP hasPart, TypeMember.ofRows (rowsOf run) = []
  /-- What stands before a member does not take it in. -/
  finished : ∀ run ∈ (ss.splitOnP hasPart).dropLast, ∀ row, (rowsOf run).getLast? = some row →
    TypeMember.isUnfinished row = false

theorem leavesMembers_append_iff {rest : List (List Item)} (none : ∀ r ∈ run, partsOf r = [])
    (holds : hasPart s) :
    LeavesMembers (run ++ s :: rest) ↔ hasComment s = false ∧ TypeMember.ofRows (rowsOf run) = [] ∧
      (∀ row, (rowsOf run).getLast? = some row → TypeMember.isUnfinished row = false) ∧
      LeavesMembers rest := by
  have free : ∀ r ∈ run, hasPart r = false := fun r member => by simp [hasPart, none r member]
  have runs : (run ++ s :: rest).splitOnP hasPart = run :: rest.splitOnP hasPart := by
    rw [splitOnP_append_cons run rest holds, splitOnP_eq_singleton free]
    rfl
  have last : (run :: rest.splitOnP hasPart).dropLast = run :: (rest.splitOnP hasPart).dropLast :=
    dropLast_cons_of_ne_nil (splitOnP_ne_nil _ _)
  constructor
  · rintro ⟨apart, silent, finished⟩
    rw [runs] at silent finished
    rw [last] at finished
    exact ⟨apart s (by simp) holds, silent run (by simp), finished run (by simp),
      fun s' member => apart s' (by simp [member]),
      (forall_mem_cons.1 silent).2,
      (forall_mem_cons.1 finished).2⟩
  · rintro ⟨plain, silentRun, finishedRun, apart, silent, finished⟩
    refine ⟨fun s' member holds' => ?_, ?_, ?_⟩
    · rcases mem_append.1 member with inRun | here
      · rw [free s' inRun] at holds'
        cases holds'
      · rcases mem_cons.1 here with rfl | inRest
        · exact plain
        · exact apart s' inRest holds'
    · rw [runs]
      rintro other (_ | ⟨_, member⟩)
      · exact silentRun
      · exact silent other member
    · rw [runs, last]
      rintro other (_ | ⟨_, member⟩)
      · exact finishedRun
      · exact finished other member

open TypeMember in
theorem ofRows_text_cons (h : m.IsDeclarable) (arrow : m.type.endsWith "=>" = false)
    (fresh : ∀ row ∈ rows, resumes row = false) :
    ofRows (m.text :: rows) = m.toTypeMember :: ofRows rows := by
  have alone : ofRows [m.text] = [m.toTypeMember] := filterMap_cons_some h.parse?_text
  cases rows with
  | nil => exact alone
  | cons row rows =>
    have split := @ofRows_append row [m.text] (by simp [h.isTrimmed.ne]) (fun other ends => by
      obtain rfl : m.text = other := by simpa using ends
      rw [h.isUnfinished_text, arrow]) (fresh row (by simp)) rows
    rw [alone] at split
    exact split

open TypeMember in
theorem ofRows_noted_ne (h : m.IsDeclarable) {extra : Text} (ne : extra ≠ [])
    (trimmed : (m.text ++ extra).IsTrimmed)
    (each : ∀ row ∈ rows, row.IsTrimmed) (members : List TypeMember) :
    ofRows ((m.text ++ extra) :: rows) ≠ m.toTypeMember :: members := by
  obtain ⟨more, others, same, whole⟩ := exists_joinFrom trimmed each
  have split : m.text ++ extra ++ more =
      m.nameText ++ (m.colon ++ (m.type ++ (extra ++ more))) := by
    simp [text]
  obtain ⟨c, tail, first⟩ := exists_cons_of_ne_nil h.type.trimmed.ne
  have type : (m.type ++ (extra ++ more)).IsTrimmed := by
    have head := h.type.trimmed.head
    rw [split, ← append_assoc] at whole
    rw [first] at head whole ⊢
    exact whole.of_append (by simp) head
  have read : parse? (m.text ++ extra ++ more) =
      some ⟨m.name, m.type ++ (extra ++ more), m.isOptional⟩ := by
    rw [split]
    refine parse?_append h.named type fun bar => ?_
    have starts := h.type.starts.1
    rw [first] at starts bar
    cases bar
    cases starts
  intro declared
  rw [ofRows, join, same, filterMap_cons_some read] at declared
  have types := congrArg TypeMember.type (cons.inj declared).1
  have empty : extra ++ more = [] := append_right_eq_self.1 types
  exact ne (append_eq_nil_iff.1 empty).1

open TypeMember in
theorem resumes_rowText (shape : Row s) {members : List WrittenMember}
    (declarable : ∀ m ∈ members, m.IsDeclarable) (parts : ∀ t ∈ partsOf s, t ∈ members.map text) :
    resumes (rowText s) = false := by
  have member {t : Text} (listed : t ∈ partsOf s) (more : Text) : resumes (t ++ more) = false := by
    obtain ⟨m, inside, rfl⟩ := mem_map.1 (parts t listed)
    exact (declarable m inside).resumes_append more
  cases shape with
  | blank _ _ empty =>
    rw [empty]
    rfl
  | note _ starts =>
    obtain ⟨c, u, same, -⟩ := isNote_iff.1 starts
    rw [same]
    exact resumes_cons (by decide) _
  | part one _ same =>
    rw [same]
    simpa using member (by rw [one]; simp) []
  | noted one _ same =>
    rw [same]
    exact member (by rw [one]; simp) _

open TypeMember in
theorem ofRows_member_iff (h : m.IsDeclarable) (arrow : m.type.endsWith "=>" = false)
    {notes : List Text} (allNotes : ∀ row ∈ notes, isNote row)
    (each : ∀ row ∈ notes ++ rows, row.IsTrimmed) (fresh : ∀ row ∈ rows, resumes row = false)
    (shape : Row s) (one : partsOf s = [m.text]) {members : List TypeMember}
    (few : rows.countP (fun row => !isNote row) ≤ members.length)
    (clean : ∀ m' ∈ m.toTypeMember :: members, isNote m'.name = false) :
    ofRows (notes ++ rowText s :: rows) = m.toTypeMember :: members ↔
      hasComment s = false ∧ ofRows notes = [] ∧
        (∀ row, notes.getLast? = some row → isUnfinished row = false) ∧ ofRows rows = members := by
  have ne : ∀ row ∈ notes, row ≠ [] := fun row member => (each row (by simp [member])).ne
  have begins : resumes (rowText s) = false :=
    @resumes_rowText s shape [m] (by simpa using h) (by simp [one])
  constructor
  · intro declared
    have all : cleanCount (m.toTypeMember :: members) = members.length + 1 :=
      countP_eq_length.2 fun m' listed => by simp [clean m' listed]
    have finished : ∀ row, notes.getLast? = some row → isUnfinished row = false := by
      intro row last
      cases unfinished : isUnfinished row with
      | false => rfl
      | true =>
        have most := cleanCount_ofRows_append_le ne allNotes last unfinished (rowText s) rows
        rw [declared, all] at most
        omega
    rw [ofRows_append ne finished begins] at declared
    have silent : ofRows notes = [] := by
      refine eq_nil_iff_forall_not_mem.2 fun m' member => ?_
      have noted := countP_eq_zero.1 (cleanCount_ofRows allNotes) m' member
      have listed : m' ∈ m.toTypeMember :: members := by
        rw [← declared]
        exact mem_append_left _ member
      simp [clean m' listed] at noted
    rw [silent, nil_append] at declared
    cases shape with
    | blank none => simp [one] at none
    | note commented starts =>
      have most : cleanCount (ofRows (rowText s :: rows)) ≤ _ :=
        cleanCount_joinFrom_le (rowText s) rows
      rw [starts, if_pos rfl, declared, all] at most
      omega
    | part one' plain same =>
      rw [one] at one'
      rw [same, ← singleton_inj.1 one', ofRows_text_cons h arrow fresh] at declared
      exact ⟨plain, silent, finished, (cons.inj declared).2⟩
    | @noted t gap note one' commented same blank starts ends =>
      rw [one] at one'
      obtain rfl := singleton_inj.1 one'
      have trimmed : (rowText s).IsTrimmed := by
        refine isTrimmed_trim fun empty => ?_
        rw [← rowText, same] at empty
        exact h.isTrimmed.ne (append_eq_nil_iff.1 empty).1
      have ne' : gap ++ note ≠ [] := by simp [ne_nil_of_isNote starts]
      rw [same] at declared trimmed
      exact absurd declared (ofRows_noted_ne h ne' trimmed (forall_mem_append.1 each).2 members)
  · rintro ⟨plain, silent, finished, rfl⟩
    have same : rowText s = m.text := by
      cases shape with
      | blank none => simp [one] at none
      | note commented => simp [plain] at commented
      | part one' _ same =>
        rw [one] at one'
        rw [same, singleton_inj.1 one']
      | noted _ commented => simp [plain] at commented
    rw [ofRows_append ne finished begins, silent, same, ofRows_text_cons h arrow fresh]
    rfl

theorem ofRows_rowsOf_iff {members : List WrittenMember} (shape : ∀ s ∈ ss, Row s)
    (one : ∀ s ∈ ss, (partsOf s).length ≤ 1) (parts : ss.flatMap partsOf = members.map text)
    (declarable : ∀ m ∈ members, m.IsDeclarable)
    (arrow : ∀ m ∈ members, m.type.endsWith "=>" = false)
    (clean : ∀ m ∈ members, isNote m.name = false) :
    TypeMember.ofRows (rowsOf ss) = members.map (·.toTypeMember) ↔ LeavesMembers ss := by
  induction members generalizing ss with
  | nil =>
    have none : ∀ s ∈ ss, partsOf s = [] := flatMap_eq_nil_iff.1 parts
    have free : ∀ s ∈ ss, hasPart s = false := fun s listed => by simp [hasPart, none s listed]
    have run : ss.splitOnP hasPart = [ss] := splitOnP_eq_singleton free
    constructor
    · intro silent
      refine ⟨fun s listed holds => ?_, ?_, ?_⟩
      · rw [free s listed] at holds
        cases holds
      · rw [run]
        simpa using silent
      · rw [run]
        simp
    · intro leaves
      exact leaves.silent ss (by rw [run]; simp)
  | cons m members ih =>
    -- The first member ends the first run of comments; what is behind it is a shorter list.
    obtain ⟨run, s, rest, rfl, none, here, later⟩ := exists_first_part parts one
    have inRest {s' : List Item} (listed : s' ∈ rest) : s' ∈ run ++ s :: rest := by simp [listed]
    have tail := ih (fun s' listed => shape s' (inRest listed))
      (fun s' listed => one s' (inRest listed)) later
      (forall_mem_cons.1 declarable).2
      (forall_mem_cons.1 arrow).2 (forall_mem_cons.1 clean).2
    have ne : rowText s ≠ [] :=
      (shape s (by simp)).ne_nil here (declarable m (by simp)).isTrimmed.ne
    have fresh : ∀ row ∈ rowsOf rest, TypeMember.resumes row = false := by
      intro row listed
      obtain ⟨s', inside, rfl⟩ := mem_map.1 (mem_filter.1 listed).1
      refine resumes_rowText (shape s' (inRest inside))
        (forall_mem_cons.1 declarable).2 fun t part => ?_
      rw [← later]
      exact mem_flatMap.2 ⟨s', inside, part⟩
    have few : (rowsOf rest).countP (fun row => !isNote row) ≤
        (members.map (·.toTypeMember)).length := by
      have most := countP_rowsOf_le fun s' listed => shape s' (inRest listed)
      rwa [later, length_map, ← @length_map _ _ _ (·.toTypeMember)] at most
    rw [leavesMembers_append_iff none (by simp [hasPart, here]), ← tail, rowsOf_append,
      rowsOf_cons_of_ne ne]
    exact ofRows_member_iff (declarable m (by simp)) (arrow m (by simp))
      (fun row listed =>
        isNote_of_mem_rowsOf (forall_mem_append.1 shape).1 none listed)
      (fun row listed => (mem_append.1 listed).elim isTrimmed_of_mem_rowsOf
        isTrimmed_of_mem_rowsOf) fresh (shape s (by simp)) here few (by simpa using clean)

/-- Members laid out with comments around them, under names and with types that no comment can be
taken for. -/
structure IsCommentedType (members : List WrittenMember) (items : List Item) : Prop
    extends IsLaidOut members items where
  comment : ∀ t rest, .comment t :: rest <:+ items → Code.IsComment t rest
  slash : ∀ m ∈ members, m.type.getLast? ≠ some '/'
  arrow : ∀ m ∈ members, m.type.endsWith "=>" = false
  clean : ∀ m ∈ members, isNote m.name = false

namespace IsCommentedType

variable {members : List WrittenMember} {items : List Item}

section

variable (h : IsCommentedType members items)

include h

theorem isCommented : Code.IsCommented marks true items := by
  refine ⟨?_, ?_, ?_, ?_, h.mark, h.comment, h.apart⟩ <;> intro t member <;>
    obtain ⟨m, listed, rfl⟩ := h.exists_of_part member
  · exact (h.declarable m listed).isTrimmed
  · exact (h.declarable m listed).isLevel
  · exact (h.declarable m listed).whole
  · exact fun rest => (h.declarable m listed).parts fun last => absurd last (h.slash m listed)

theorem ofLiteral_literal :
    TypeMember.ofLiteral (literal items) = TypeMember.ofRows (rowsOf (stretches marks items)) := by
  rw [TypeMember.ofLiteral, TypeMember.pieces_eq_join, dropBraces_literal,
    h.isCommented.splitTop_eq fun _ listed => listed]
  rfl

theorem ofLiteral_bare :
    TypeMember.ofLiteral (literal (bare items)) = members.map (·.toTypeMember) := by
  rw [TypeMember.ofLiteral, TypeMember.pieces_eq_join, dropBraces_literal,
    h.isCommented.splitTop_bare fun _ listed => listed, h.parts]
  exact TypeMember.filterMap_join_text h.declarable fun m listed =>
    h.arrow m (dropLast_subset _ listed)

theorem ofLiteral_eq_iff :
    TypeMember.ofLiteral (literal items) = TypeMember.ofLiteral (literal (bare items)) ↔
      LeavesMembers (stretches marks items) := by
  rw [h.ofLiteral_literal, h.ofLiteral_bare]
  refine ofRows_rowsOf_iff (fun s listed => h.isCommented.row (fun _ known => known) listed)
    h.apart ?_ h.declarable h.arrow h.clean
  rw [flatMap_partsOf_stretches, h.parts]

end

end IsCommentedType

end SfcJsx.Options
