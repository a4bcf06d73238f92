import SfcJsx.Proofs.CalleeContext
import SfcJsx.Proofs.PatternNames

/-!
The names of a body that declares several variables, in one list or each on a line of its own. Of a
list only the first declarator is read: what the others bind is neither a reference nor hides an
input.
-/

namespace SfcJsx.Script

open List Text Code Bool

inductive Bound where
  | name (x : Text)
  | pattern (kind : Kind) (content : Text)

namespace Bound

def text : Bound → Text
  | name x => x
  | pattern kind content => kind.enclose content

def destructures : Bound → Bool
  | name _ => false
  | pattern _ _ => true

/-- The names that a target binds. -/
def names (target : Bound) : List Text := patternNames target.text

/-- A name is no word that declares something. -/
def isWritten : Bound → Bool
  | name x => x.isIdentifier && !(["const".toList, "let".toList, "var".toList, "function".toList,
      "class".toList].contains x)
  | pattern _ content => decide (IsCode content)

end Bound

def functionRest (after : Text) : Text :=
  (after? "*" after.trimStart).elim after.trimStart trimStart

/-- Whether a word of an initial value declares nothing behind that value. -/
def staysInside (word : Text × Text) : Bool :=
  !Local.isVariableWord word.1 &&
    (!Local.isFunctionWord word.1 || !(functionRest word.2).isEmpty)

/-- An initial value: code without blanks around it, none of whose words outside of brackets is
taken for the start of a declaration that goes on behind it. Such words are names of members. -/
@[mk_iff] structure IsValue (t : Text) : Prop where
  code : IsCode t
  trimmed : t.IsTrimmed
  words : (Local.wordsOf t).all staysInside

instance (t : Text) : Decidable (IsValue t) := decidable_of_iff' _ (isValue_iff t)

/-- A target with its initial value, awaited or not. -/
structure Declarator where
  target : Bound
  /-- The blanks behind `await`. -/
  awaits : Option Text
  value : Text

namespace Declarator

def lead (d : Declarator) : Text := d.awaits.elim [] fun gap => "await" ++ gap

def front (d : Declarator) : Text := " " ++ d.target.text ++ " = " ++ d.lead

def text (d : Declarator) : Text := d.target.text ++ " = " ++ d.lead ++ d.value

/-- Whether a declarator reads as what it is, its `await` included. -/
def isWritten (d : Declarator) : Bool :=
  d.target.isWritten && decide (IsValue d.value) &&
    d.awaits.elim
      ((after? "await" d.value).all fun rest => rest.head?.any fun c => !isBlank c)
      fun gap => gap.isBlankText && !gap.isEmpty

theorem of_isWritten {d : Declarator} (written : d.isWritten) :
    d.target.isWritten ∧ IsValue d.value := by
  simp only [isWritten, and_eq_true, decide_eq_true_eq] at written
  exact written.1

theorem gap_of_isWritten {target : Bound} {gap value : Text}
    (written : isWritten ⟨target, some gap, value⟩) : (∀ c ∈ gap, isBlank c) ∧ gap ≠ [] := by
  simp only [isWritten, Option.elim_some, and_eq_true, not_eq_true',
    isEmpty_eq_false_iff] at written
  exact ⟨all_eq_true.1 written.2.1, written.2.2⟩

end Declarator

def listTail : List Declarator → Text
  | [] => "\n"
  | d :: rest => ", " ++ d.text ++ listTail rest

/-- Declarators in one statement, with commas between them. -/
def listText (first : Declarator) (later : List Declarator) : Text :=
  "const " ++ first.text ++ listTail later

/-- Each declarator as a statement on a line of its own. -/
def linesText : List Declarator → Text
  | [] => []
  | d :: rest => "const " ++ d.text ++ '\n' :: linesText rest

/-- What the lines declare; a called function may be read beyond its line. -/
def lineLocals : List Declarator → List Local
  | [] => []
  | d :: rest =>
    ⟨d.target.names, Local.callee? (d.value ++ '\n' :: linesText rest), d.target.destructures⟩ ::
      lineLocals rest

variable {u v : Text} {before : Option Char}

namespace Local

theorem functionName_eq (after : Text) :
    functionName after = (functionRest after).leadingIdentifier := by
  rw [functionName, functionRest]
  cases after? "*" after.trimStart <;> rfl

theorem functionName_append {after : Text} (stops : u.head?.any isIdentChar = false)
    (inside : functionRest after ≠ []) : functionName (after ++ u) = functionName after := by
  have joined : functionRest (after ++ u) = functionRest after ++ u := by
    cases shown : after.trimStart with
    | nil =>
      rw [functionRest, shown] at inside
      exact absurd rfl inside
    | cons c rest =>
      have whole : (after ++ u).trimStart = c :: (rest ++ u) := by
        rw [trimStart_append, shown]
        rfl
      by_cases star : c = '*'
      · subst star
        have alone : functionRest after = trimStart rest := by
          rw [functionRest, shown]
          rfl
        have both : functionRest (after ++ u) = trimStart (rest ++ u) := by
          rw [functionRest, whole]
          rfl
        rw [alone] at inside
        rw [alone, both, trimStart_append, if_neg inside]
      · have none (t : Text) : after? "*" (c :: t) = none :=
          after?_eq_none_iff.2 fun ⟨more, same⟩ => star (cons.inj same).1.symm
        rw [functionRest, functionRest, whole, shown, none, none]
        rfl
  rw [functionName_eq, functionName_eq, joined, leadingIdentifier_append stops]

theorem declared_eq (stops : u.head?.any isIdentChar = false) {words : List (Text × Text)}
    (inside : words.all staysInside) : declared u words = declared [] words := by
  have same (word : Text × Text) (stays : staysInside word) :
      declare? word.1 (word.2 ++ u) = declare? word.1 (word.2 ++ []) := by
    rw [staysInside, Bool.and_eq_true, Bool.not_eq_true'] at stays
    have other := of_decide_eq_false stays.1
    rw [declare?, declare?, if_neg other, if_neg other]
    by_cases function : word.1 = "function" ∨ word.1 = "class"
    · have inside : functionRest word.2 ≠ [] := by
        have named : isFunctionWord word.1 := decide_eq_true function
        rw [named, Bool.not_true, Bool.false_or, Bool.not_eq_true', isEmpty_eq_false_iff] at stays
        exact stays.2
      rw [if_pos function, if_pos function, functionName_append stops inside, append_nil]
    · rw [if_neg function, if_neg function]
  induction words with
  | nil => rfl
  | cons word words ih =>
    rw [all_cons, Bool.and_eq_true] at inside
    rw [declared, declared, filterMap_cons, filterMap_cons, same word inside.1,
      ← declared, ← declared, ih inside.2]

end Local

theorem Bound.isTarget {target : Bound} (written : target.isWritten) : IsTarget target.text := by
  cases target with
  | name x =>
    rw [isWritten, and_eq_true] at written
    exact isTarget_name written.1
  | pattern kind content => exact kind.isTarget (of_decide_eq_true written)

theorem Bound.names_name {x : Text} (named : x.isIdentifier) : (name x).names = [x] := by
  have tail : IsTail [] := ⟨isEdge_nil.settled, isEdge_nil.whole, rfl⟩
  have read := patternNames_name named tail
  rwa [append_nil] at read

namespace Local

variable {d : Declarator} {ds : List Declarator} {target : Bound}

theorem target?_append (written : target.isWritten) {rest : Text}
    (stops : rest.head?.any isIdentChar = false) :
    target? (target.text ++ rest) = some (target.names, target.destructures, rest) := by
  cases target with
  | name x =>
    rw [Bound.isWritten, Bool.and_eq_true] at written
    obtain ⟨named, -⟩ := written
    have word : (x ++ rest).leadingIdentifier = x := by
      rw [leadingIdentifier_append stops, leadingIdentifier_self named]
    have other {c : Char} (apart : isIdentChar c = false) (tail : Text) :
        x ++ rest = c :: tail → False := by
      intro same
      cases x with
      | nil => cases named
      | cons d w =>
        obtain rfl := (cons.inj same).1
        rw [isIdentChar_of_mem named d (by simp)] at apart
        cases apart
    have shown : x.isEmpty = false := by
      cases x with
      | nil => cases named
      | cons => rfl
    rw [Bound.names_name named, Bound.text, target?]
    · rw [word, shown, drop_left]
      rfl
    · exact other (by decide)
    · exact other (by decide)
  | pattern kind content =>
    have code : IsCode content := of_decide_eq_true written
    have ends := parts_closing code.settled kind []
    have whole :
        kind.enclose content ++ rest = kind.opening :: (content ++ kind.closing :: rest) := by
      simp [Kind.enclose]
    have found : balanced? kind.opening kind.closing (kind.enclose content ++ rest) =
        some (content, rest) := by
      rw [whole]
      cases kind with
      | object =>
        have region : IsEnclosed '{' '}' content := ⟨code.level, ends, rfl⟩
        exact region.balanced? (by decide) rest
      | array =>
        have region : IsEnclosed '[' ']' content := ⟨code.level, ends, rfl⟩
        exact region.balanced? (by decide) rest
    cases kind <;> exact congrArg (Option.map _) found

def endsDeclarator (u : Text) : Bool := u.head?.any fun c => c == ',' || c == '\n'

theorem exists_of_endsDeclarator (ends : endsDeclarator u) :
    ∃ c rest, u = c :: rest ∧ (c = ',' ∨ c = '\n') := by
  cases u with
  | nil => cases ends
  | cons c rest => exact ⟨c, rest, rfl, by simpa [endsDeclarator] using ends⟩

theorem stops_of_endsDeclarator (ends : endsDeclarator u) : u.head?.any isIdentChar = false := by
  obtain ⟨c, rest, rfl, rfl | rfl⟩ := exists_of_endsDeclarator ends <;> rfl

theorem trimStart_value (trimmed : v.IsTrimmed) {gap : Text} (blank : ∀ c ∈ gap, isBlank c)
    (u : Text) : (gap ++ (v ++ u)).trimStart = v ++ u := by
  refine Script.trimStart_blanks_append blank ?_
  rw [head?_append_of_isTrimmed trimmed]
  exact trimmed.head

theorem initialValue_append (written : d.isWritten) (ends : endsDeclarator u) :
    initialValue (' ' :: (d.lead ++ (d.value ++ u))) = d.value ++ u := by
  obtain ⟨target, awaits, value⟩ := d
  have isValue : IsValue value := (Declarator.of_isWritten written).2
  cases awaits with
  | none =>
    have blank : ∀ c ∈ " ".toList, isBlank c := all_eq_true.1 rfl
    have start : trimStart (' ' :: (value ++ u)) = value ++ u :=
      trimStart_value isValue.trimmed blank u
    have lead : Declarator.lead ⟨target, none, value⟩ = [] := rfl
    rw [lead, nil_append, initialValue, start]
    obtain ⟨c, rest, rfl, mark⟩ := exists_of_endsDeclarator ends
    have apart : c ∉ "await".toList := by
      rcases mark with rfl | rfl <;> simp
    rcases after?_of_break apart value with ⟨more, rfl⟩ | none
    · simp only [Declarator.isWritten, Option.elim_none, after?_append, Option.all_some,
        and_eq_true] at written
      rw [append_assoc, after?_append]
      cases more with
      | nil => cases written.2
      | cons e more =>
        have shown : isBlank e = false := by simpa using written.2
        simp [shown]
    · simp only [none]
  | some gap =>
    obtain ⟨blank, ne⟩ := Declarator.gap_of_isWritten written
    have lead : Declarator.lead ⟨target, some gap, value⟩ = "await" ++ gap := rfl
    have start : trimStart (' ' :: ("await" ++ (gap ++ (value ++ u)))) =
        "await" ++ (gap ++ (value ++ u)) := rfl
    rw [lead, append_assoc, initialValue, start]
    simp only [after?_append]
    rw [if_pos, trimStart_value isValue.trimmed blank]
    obtain ⟨c, gap, rfl⟩ := exists_cons_of_ne_nil ne
    exact blank c mem_cons_self

theorem readVariable?_append (written : d.isWritten) (ends : endsDeclarator u) :
    readVariable? (d.front ++ (d.value ++ u)) =
      some (⟨d.target.names, callee? (d.value ++ u), d.target.destructures⟩, d.value ++ u) := by
  have value := initialValue_append written ends
  have targeted := (Declarator.of_isWritten written).1
  have isTarget := Bound.isTarget targeted
  have start : (d.front ++ (d.value ++ u)).trimStart =
      d.target.text ++ (' ' :: '=' :: ' ' :: (d.lead ++ (d.value ++ u))) := by
    have split : d.front ++ (d.value ++ u) =
        " " ++ (d.target.text ++ (' ' :: '=' :: ' ' :: (d.lead ++ (d.value ++ u)))) := by
      simp [Declarator.front]
    rw [split]
    exact trimStart_value isTarget.trimmed (all_eq_true.1 rfl) _
  have target : target? (d.target.text ++ (' ' :: '=' :: ' ' :: (d.lead ++ (d.value ++ u)))) =
      some (d.target.names, d.target.destructures,
        ' ' :: '=' :: ' ' :: (d.lead ++ (d.value ++ u))) := target?_append targeted rfl
  have rest : trimStart (' ' :: '=' :: ' ' :: (d.lead ++ (d.value ++ u))) =
      '=' :: ' ' :: (d.lead ++ (d.value ++ u)) := rfl
  rw [readVariable?, start, target]
  simp [rest, value]

theorem wordsOf_enclose (kind : Kind) {t : Text} (code : IsCode t) :
    wordsOf (kind.enclose t) = [] := by
  have read : pieces (kind.enclose t) =
      .code kind.opening :: (pieces t ++ [.code kind.closing]) := by
    rw [Kind.enclose, pieces_enclosed kind.isPlain_opening kind.isPlain_closing
      (parts_closing code.settled kind []), pieces]
  have flags : mask (kind.enclose t) = true :: (mask t ++ [true]) := by
    rw [mask, marked_eq_flatMap, read, flatMap_cons, flatMap_append, map_append, map_append]
    rfl
  have opened : wordsOf (kind.enclose t) =
      topWords (some kind.opening) 1 (t ++ [kind.closing]) (mask t ++ [true]) := by
    rw [wordsOf, flags]
    cases kind <;> rfl
  obtain ⟨before, inside⟩ := topWords_inside code.level (some kind.opening) [kind.closing] [true]
  rw [flatten_pieces] at inside
  have none : leadingIdentifier [kind.closing] = [] := by cases kind <;> rfl
  rw [opened]
  refine inside.trans ?_
  simp [topWords, none]

theorem scan_target (written : target.isWritten)
    (stops : u.head?.any isIdentChar = false) (apart : before.any isIdentChar = false) :
    scan before 0 0 (target.text ++ u) (mask (target.text ++ u)) =
      scan (target.text.getLast?.or before) 0 0 u (mask u) := by
  have isTarget := Bound.isTarget written
  cases target with
  | name x =>
    have none : declare? x u = none := by
      rw [declare?, if_neg, if_neg]
      · rintro (rfl | rfl) <;> exact absurd written (by decide)
      · rintro (rfl | rfl | rfl) <;> exact absurd written (by decide)
    rw [Bound.isWritten, and_eq_true] at written
    exact scan_name written.1 none stops apart
  | pattern kind content =>
    have none := wordsOf_enclose kind (of_decide_eq_true written)
    rw [scan_code isTarget.code (isTarget.ends.parts u) stops apart, Bound.text, none]
    · rfl
    · rw [Bound.text, none]
      simp

theorem scan_lead (written : d.isWritten) (u : Text)
    (apart : before.any isIdentChar = false) :
    ∃ before', before'.any isIdentChar = false ∧
      scan before 0 0 (d.lead ++ u) (mask (d.lead ++ u)) =
        scan before' 0 0 u (mask u) := by
  obtain ⟨target, awaits, value⟩ := d
  cases awaits with
  | none => exact ⟨before, apart, rfl⟩
  | some gap =>
    obtain ⟨blank, ne⟩ := Declarator.gap_of_isWritten written
    have marks : gap.all isMark := all_eq_true.2 fun c member => isMark_of_isBlank (blank c member)
    have stops : (gap ++ u).head?.any isIdentChar = false := by
      obtain ⟨c, rest, rfl⟩ := exists_cons_of_ne_nil ne
      exact isIdentChar_of_isBlank (blank c (by simp))
    have none : declare? "await" (gap ++ u) = none := by
      rw [declare?, if_neg (by decide), if_neg (by decide)]
    obtain ⟨init, c, rfl⟩ := (eq_nil_or_concat gap).resolve_left ne
    refine ⟨some c, isIdentChar_of_isBlank (blank c (by simp)), ?_⟩
    have split : Declarator.lead ⟨target, some (init.concat c), value⟩ ++ u =
        "await" ++ (init.concat c ++ u) := append_assoc ..
    rw [split, scan_name rfl none stops apart, scan_marks marks]
    simp

theorem scan_value (isValue : IsValue v) (ends : endsDeclarator u)
    (apart : before.any isIdentChar = false) :
    scan before 0 0 (v ++ u) (mask (v ++ u)) =
      ofBody v ++ scan (v.getLast?.or before) 0 0 u (mask u) := by
  have stops := stops_of_endsDeclarator ends
  have parts : Code.Parts v u := by
    obtain ⟨c, rest, rfl, mark⟩ := exists_of_endsDeclarator ends
    rcases mark with rfl | rfl <;> exact isValue.code.settled.parts_cons rfl (by decide) rest
  have calm : ∀ word ∈ wordsOf v, isVariableWord word.1 = false := by
    intro word member
    have stays := all_eq_true.1 isValue.words word member
    rw [staysInside, and_eq_true, not_eq_true'] at stays
    exact stays.1
  rw [scan_code isValue.code parts stops apart calm, declared_eq stops isValue.words,
    ofBody_code isValue.code calm]

theorem front_ends (written : d.isWritten) :
    (IsSettled d.front ∧ EndsPlain d.front) ∧
      ∃ init c, d.front = init ++ [c] ∧ isIdentChar c = false := by
  obtain ⟨target, awaits, value⟩ := d
  have isTarget : IsTarget target.text := Bound.isTarget (Declarator.of_isWritten written).1
  have plain {t : Text} (each : ∀ c ∈ t, isPlain c) :
      IsSettled t ∧ EndsPlain t :=
    ⟨isSettled_of_isPlain each, endsPlain_of_isPlain each⟩
  have join {s t : Text} (left : IsSettled s ∧ EndsPlain s)
      (right : IsSettled t ∧ EndsPlain t) :
      IsSettled (s ++ t) ∧ EndsPlain (s ++ t) :=
    ⟨left.1.append (left.2.parts t) right.1, left.2.append right.2⟩
  have sign : IsSettled (" " ++ target.text ++ " = ") ∧
      EndsPlain (" " ++ target.text ++ " = ") :=
    join (join (plain (all_eq_true.1 rfl)) ⟨isTarget.code.settled, isTarget.ends⟩)
      (plain (all_eq_true.1 rfl))
  cases awaits with
  | none =>
    have whole : Declarator.front ⟨target, none, value⟩ = " " ++ target.text ++ " = " :=
      append_nil _
    rw [whole]
    exact ⟨sign, " " ++ target.text ++ " =", ' ', by simp, rfl⟩
  | some gap =>
    obtain ⟨blank, ne⟩ := Declarator.gap_of_isWritten written
    have whole : Declarator.front ⟨target, some gap, value⟩ =
        " " ++ target.text ++ " = " ++ ("await" ++ gap) := rfl
    rw [whole]
    refine ⟨join sign (join (plain (all_eq_true.1 rfl))
      (plain fun c member => isPlain_of_isBlank (blank c member))), ?_⟩
    obtain ⟨init, c, rfl⟩ := (eq_nil_or_concat gap).resolve_left ne
    exact ⟨" " ++ target.text ++ " = " ++ ("await" ++ init), c, by simp,
      isIdentChar_of_isBlank (blank c (by simp))⟩

theorem scan_statement (written : d.isWritten) (ends : endsDeclarator u)
    {rest : List Local} (later : ∀ before, scan before 0 0 u (mask u) = rest)
    (apart : before.any isIdentChar = false) :
    scan before 0 0 ("const " ++ d.text ++ u) (mask ("const " ++ d.text ++ u)) =
      ⟨d.target.names, callee? (d.value ++ u), d.target.destructures⟩ ::
        (ofBody d.value ++ rest) := by
  obtain ⟨⟨-, plain⟩, init, c, last, other⟩ := front_ends written
  have declares : declare? "const" (d.front ++ (d.value ++ u)) =
      some (⟨d.target.names, callee? (d.value ++ u), d.target.destructures⟩, d.front.length) := by
    rw [declare?, if_pos (.inl rfl), readVariable?_append written ends, Option.map_some,
      length_append]
    dsimp only
    rw [Nat.add_sub_cancel]
  have split : "const " ++ d.text ++ u = "const" ++ (d.front ++ (d.value ++ u)) := by
    simp [Declarator.text, Declarator.front]
  have word : EndsPlain "const" := endsPlain_of_isPlain (all_eq_true.1 rfl)
  rw [split, scan_declaration rfl declares rfl (word.append plain) apart,
    scan_value (Declarator.of_isWritten written).2 ends, later]
  rw [last, getLast?_append]
  simpa using other

theorem endsDeclarator_listTail (ds : List Declarator) : endsDeclarator (listTail ds) := by
  cases ds <;> rfl

theorem scan_listTail (written : ∀ d ∈ ds, d.isWritten) (before : Option Char) :
    scan before 0 0 (listTail ds) (mask (listTail ds)) =
      ds.flatMap fun d => ofBody d.value := by
  induction ds generalizing before with
  | nil => exact scan_marks (s := "\n") rfl before []
  | cons d ds ih =>
    have here := written d (by simp)
    have split : listTail (d :: ds) = ", " ++ (d.target.text ++ (" = " ++ (d.lead ++
        (d.value ++ listTail ds)))) := by
      simp [listTail, Declarator.text]
    obtain ⟨next, apart, lead⟩ : ∃ next, Option.any isIdentChar next = false ∧
        scan (some ' ') 0 0 _ _ = _ := scan_lead here (d.value ++ listTail ds) rfl
    obtain ⟨target, value⟩ := Declarator.of_isWritten here
    rw [split, scan_marks rfl, scan_target target rfl rfl, scan_marks rfl, flatMap_cons,
      ← ih (forall_mem_cons.1 written).2,
      ← scan_value value (endsDeclarator_listTail ds) apart]
    exact lead

def linesFound : List Declarator → List Local
  | [] => []
  | d :: rest =>
    ⟨d.target.names, callee? (d.value ++ '\n' :: linesText rest), d.target.destructures⟩ ::
      (ofBody d.value ++ linesFound rest)

theorem scan_linesText (written : ∀ d ∈ ds, d.isWritten) (apart : before.any isIdentChar = false) :
    scan before 0 0 (linesText ds) (mask (linesText ds)) = linesFound ds := by
  induction ds generalizing before with
  | nil => rfl
  | cons d ds ih =>
    refine scan_statement (written d (by simp)) rfl (fun before => ?_) apart
    have next : scan before 0 0 ("\n" ++ linesText ds) _ = _ := scan_marks rfl before (linesText ds)
    exact next.trans (ih (forall_mem_cons.1 written).2 rfl)

theorem mem_linesFound {l : Local} : l ∈ linesFound ds ↔
    l ∈ lineLocals ds ∨ l ∈ ds.flatMap fun d => ofBody d.value := by
  induction ds with
  | nil => simp [linesFound, lineLocals]
  | cons d ds ih =>
    rw [linesFound, lineLocals, flatMap_cons, mem_cons, mem_append]
    grind

theorem ofBody_listText {first : Declarator} {later : List Declarator}
    (written : ∀ d ∈ first :: later, d.isWritten) : ofBody (listText first later) =
      ⟨first.target.names, callee? (first.value ++ listTail later), first.target.destructures⟩ ::
        (first :: later).flatMap fun d => ofBody d.value :=
  scan_statement (written first (by simp)) (endsDeclarator_listTail later)
    (scan_listTail (forall_mem_cons.1 written).2) rfl

theorem isSeparator_comma : IsSeparator ", " :=
  ⟨all_eq_true.1 rfl, all_eq_true.1 rfl, rfl, by decide, by decide⟩

theorem isSeparator_line : IsSeparator "\nconst " :=
  ⟨all_eq_true.1 rfl, all_eq_true.1 rfl, rfl, by decide, by decide⟩

theorem callee?_listTail (written : ∀ d ∈ ds, d.isWritten) (settled : IsSettled v) :
    callee? (v ++ listTail ds) = callee? (v ++ '\n' :: linesText ds) := by
  induction ds generalizing v with
  | nil => rfl
  | cons d ds ih =>
    have here := written d (by simp)
    have next : IsSettled (v ++ "\nconst " ++ d.text) := by
      obtain ⟨⟨front, ends⟩, -⟩ := front_ends here
      have plain : ∀ c ∈ "\nconst".toList, isPlain c := all_eq_true.1 rfl
      have split : v ++ "\nconst " ++ d.text = v ++ ("\nconst" ++ (d.front ++ d.value)) := by
        simp [Declarator.text, Declarator.front]
      rw [split]
      refine settled.append (settled.parts_cons rfl (by decide) _) ?_
      refine (isSettled_of_isPlain plain).append ((endsPlain_of_isPlain plain).parts _) ?_
      exact front.append (ends.parts _) (Declarator.of_isWritten here).2.code.settled
    have list : v ++ listTail (d :: ds) = v ++ (", " ++ (d.text ++ listTail ds)) := by
      simp [listTail]
    have lines : v ++ '\n' :: linesText (d :: ds) =
        v ++ "\nconst " ++ d.text ++ '\n' :: linesText ds := by
      rw [append_assoc, append_assoc]
      exact congrArg (v ++ '\n' :: ·) (append_assoc _ _ _)
    rw [list, callee?_swap isSeparator_comma isSeparator_line settled, lines,
      ← ih (forall_mem_cons.1 written).2 next]
    simp

end Local

theorem names_lineLocals (ds : List Declarator) :
    (lineLocals ds).map Local.names = ds.map fun d => d.target.names := by
  induction ds with
  | nil => rfl
  | cons d ds ih => rw [lineLocals, map_cons, ih, map_cons]

theorem classify_of_mem {body body' : Text} {more : List Local}
    (found : ∀ l, l ∈ Local.ofBody body' ↔ l ∈ Local.ofBody body ∨ l ∈ more) (props : List Text)
    (models : List Model) (imports : List Import) :
    (∀ n, n ∈ (classify body' props models imports).refs ↔
      n ∈ (classify body props models imports).refs ∨
        ∃ l ∈ more, l.holdsRef ∧ n ∈ l.names) ∧
    ∀ n, n ∈ (classify body' props models imports).props ↔
      n ∈ (classify body props models imports).props ∧ ∀ l ∈ more, n ∉ l.names := by
  constructor
  · intro n
    simp only [classify, mem_append, mem_flatMap, mem_filter, found]
    grind
  · intro n
    simp only [classify, mem_filter, contains_eq_mem, mem_append, mem_flatMap,
      found, and_eq_true, not_eq_true', decide_eq_false_iff_not]
    grind

/-- Of a list of declarators only the first is read, and of the others what their values declare. So
on lines of their own they give exactly these references more: what the later ones bind to one; and
the inputs that are left are those that no later one binds. Both give the same names exactly if what
the later ones bind to a reference is one anyway, and no input has the name of what they bind. -/
theorem classify_listText {first : Declarator} {later : List Declarator}
    (written : ∀ d ∈ first :: later, d.isWritten = true) (props : List Text) (models : List Model)
    (imports : List Import) :
    let list := classify (listText first later) props models imports
    let lines := classify (linesText (first :: later)) props models imports
    (∀ n, n ∈ lines.refs ↔
      n ∈ list.refs ∨ ∃ l ∈ lineLocals later, l.holdsRef = true ∧ n ∈ l.names) ∧
    (∀ n, n ∈ lines.props ↔ n ∈ list.props ∧ ∀ d ∈ later, n ∉ d.target.names) ∧
    (((∀ n, n ∈ lines.refs ↔ n ∈ list.refs) ∧ ∀ n, n ∈ lines.props ↔ n ∈ list.props) ↔
      (∀ l ∈ lineLocals later, l.holdsRef = true → ∀ n ∈ l.names, n ∈ list.refs) ∧
        ∀ d ∈ later, ∀ n ∈ d.target.names, n ∉ list.props) := by
  intro list lines
  have settled : IsSettled first.value :=
    (Declarator.of_isWritten (written first (by simp))).2.code.settled
  have found (l : Local) : l ∈ Local.ofBody (linesText (first :: later)) ↔
      l ∈ Local.ofBody (listText first later) ∨ l ∈ lineLocals later := by
    have others : ∀ d ∈ later, d.isWritten = true := (forall_mem_cons.1 written).2
    rw [Local.ofBody, Local.scan_linesText written rfl, Local.mem_linesFound, Local.ofBody_listText
      written, Local.callee?_listTail others settled, lineLocals, mem_cons, mem_cons]
    grind
  have names (n : Text) : (∀ l ∈ lineLocals later, n ∉ l.names) ↔
      ∀ d ∈ later, n ∉ d.target.names := by
    rw [← forall_mem_map (P := (n ∉ ·)), names_lineLocals, forall_mem_map]
  obtain ⟨refs, inputs⟩ := classify_of_mem found props models imports
  have hidden (n : Text) : n ∈ lines.props ↔ n ∈ list.props ∧ ∀ d ∈ later, n ∉ d.target.names := by
    rw [← names]
    exact inputs n
  refine ⟨refs, hidden, fun ⟨sameRefs, sameProps⟩ => ⟨?_, ?_⟩, fun ⟨known, apart⟩ => ⟨?_, ?_⟩⟩
  · exact fun l member holds n bound =>
      (sameRefs n).1 ((refs n).2 (.inr ⟨l, member, holds, bound⟩))
  · exact fun d member n bound input => ((hidden n).1 ((sameProps n).2 input)).2 d member bound
  · refine fun n => (refs n).trans ⟨?_, .inl⟩
    rintro (one | ⟨l, member, holds, bound⟩)
    · exact one
    · exact known l member holds n bound
  · exact fun n => (hidden n).trans
      ⟨And.left, fun input => ⟨input, fun d member bound => apart d member n bound input⟩⟩

def counters : Declarator × List Declarator :=
  (⟨.name "total", some " ", "load(function () \x7b\x7d)"⟩,
    [⟨.pattern .object " rows ", none, "total"⟩, ⟨.name "count", none, "ref(0)"⟩])

theorem classify_counters :
    (∀ d ∈ counters.1 :: counters.2, d.isWritten = true) ∧
    listText counters.1 counters.2 = ("const total = await load(function () \x7b\x7d), " ++
      "\x7b rows \x7d = total, count = ref(0)\n").toList ∧
    "count".toList ∈ (classify (linesText (counters.1 :: counters.2)) [] [] []).refs := by
  have written : ∀ d ∈ counters.1 :: counters.2, d.isWritten = true := by decide +kernel
  refine ⟨written, by decide +kernel, ?_⟩
  have names : (Bound.name "count").names = ["count".toList] := Bound.names_name rfl
  refine ((classify_listText written [] [] []).1 "count").2 (.inr ⟨_, .tail _ (.head _), ?_, ?_⟩)
  · decide +kernel
  · exact names ▸ mem_singleton_self _

/-- A reference that a list declares second is taken for an input. -/
theorem classify_later_ref :
    classify "const a = 1, b = ref(0)\n" ["b"] [] [] = ⟨[], ["b".toList]⟩ ∧
    classify "const a = 1\nconst b = ref(0)\n" ["b"] [] [] = ⟨["b".toList], []⟩ := by
  decide +kernel

end SfcJsx.Script
