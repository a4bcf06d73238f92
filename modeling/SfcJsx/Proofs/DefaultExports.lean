import SfcJsx.Script.Plain
import SfcJsx.Proofs.BalancedRegion
import SfcJsx.Proofs.NameOccurrences
import SfcJsx.Proofs.StatementTail

/-!
The default exports that a plain script keeps. Only the first one is looked at: an object literal is
taken out with its statement, any other value stays and is warned about. What is taken out leaves
the default exports behind it, and brings no other one up unless the code around it grows together.
-/

namespace SfcJsx

open List Text

variable {s t body : Text} {index : Nat} {rest : List Nat}

theorem findSome?_eq_bind_head? {α β : Type} {f : α → Option β} {p : α → Bool}
    (same : ∀ a, (f a).isSome = p a) (items : List α) :
    items.findSome? f = (items.filter p).head?.bind f := by
  induction items with
  | nil => rfl
  | cons a items ih =>
    rw [findSome?_cons]
    cases value : f a with
    | none => rw [filter_cons_of_neg (by simp [← same, value]), ih]
    | some b => rw [filter_cons_of_pos (by simp [← same, value]), head?_cons,
        Option.bind_some, value]

namespace Script

open Code

def isDefaultAt (t : Text) (index : Nat) : Bool :=
  (trimStart (t.drop (index + 6))).startsWith "default"

/-- Where `export default` stands in code. -/
def defaultExports (t : Text) : List Nat :=
  (occurrences t (mask t) "export" 0).filter (isDefaultAt t)

/-- The text behind `export default` at an index. -/
def exportedValue (t : Text) (index : Nat) : Text :=
  trimStart ((trimStart (t.drop (index + 6))).drop 7)

def startsWithObject (value : Text) : Bool := (balanced? '{' '}' value).isSome

/-- The default export of an object literal and the end of its statement. -/
def IsObjectExport (t : Text) : Prop :=
  ∃ blanks gap literal content tail : Text,
    t = "export".toList ++ blanks ++ "default".toList ++ gap ++ literal ++ tail ∧
      blanks.isBlankText ∧ gap.isBlankText ∧
      balanced? '{' '}' literal = some (content, []) ∧ IsStatementTail tail

/-- What follows code that is taken out neither makes a comment with a slash before it nor becomes
the value of another `export`. -/
def StandsAlone (before : Text) : Prop :=
  (marked before).getLast? ≠ some ('/', true) ∧
    ∀ i ∈ occurrences before (mask before) "export" 0,
      isBlankText (before.drop (i + 6)) = false

instance (before : Text) : Decidable (StandsAlone before) :=
  inferInstanceAs (Decidable (_ ∧ _))

theorem isSome_at? (body : Text) (index : Nat) :
    (DefaultExport.at? body index).isSome = isDefaultAt body index := by
  unfold DefaultExport.at? isDefaultAt startsWith
  cases after? "default" (trimStart (body.drop (index + 6))) with
  | none => rfl
  | some value =>
    simp only [Option.bind_eq_bind, Option.bind_some, Option.isSome_some]
    split <;> rfl

theorem find_eq (body : Text) :
    DefaultExport.find body =
      ((defaultExports body).head?.bind (DefaultExport.at? body)).getD .missing := by
  rw [DefaultExport.find, findSome?_eq_bind_head? (isSome_at? body)]
  rfl

theorem exists_of_isDefaultAt (isDefault : isDefaultAt body index) :
    ∃ value, trimStart (body.drop (index + 6)) = "default".toList ++ value ∧
      exportedValue body index = value.trimStart := by
  obtain ⟨value, whole⟩ := startsWith_eq_true_iff.1 isDefault
  refine ⟨value, whole, ?_⟩
  rw [exportedValue, whole]
  rfl

theorem at?_eq {value : Text}
    (whole : trimStart (body.drop (index + 6)) = "default".toList ++ value) :
    (∀ content after, balanced? '{' '}' value.trimStart = some (content, after) →
      DefaultExport.at? body index = some (.object (Options.Entry.ofObject
        ("\x7b".toList ++ content ++ "\x7d")) (body.take index ++ afterStatement after))) ∧
    (balanced? '{' '}' value.trimStart = none → DefaultExport.at? body index = some .other) := by
  have found : after? "default" (trimStart (body.drop (index + 6))) = some value := by
    rw [whole, after?_append]
  constructor
  · intro content after object
    simp only [DefaultExport.at?, found, Option.bind_eq_bind, Option.bind_some, object]
  · intro other
    simp only [DefaultExport.at?, found, Option.bind_eq_bind, Option.bind_some, other]

theorem isWord_export : "export".toList ≠ [] ∧ "export".toList.all isIdentChar := by
  decide

theorem isBlank_of_isBlankText (blank : t.isBlankText) : ∀ c ∈ t, isBlank c := all_eq_true.1 blank

theorem IsObjectExport.exists_cons (isExport : IsObjectExport t) : ∃ tail, t = 'e' :: tail := by
  obtain ⟨blanks, gap, literal, content, tail, rfl, -⟩ := isExport
  exact ⟨_, rfl⟩

theorem IsObjectExport.endsPlain (isExport : IsObjectExport t) : EndsPlain t := by
  obtain ⟨blanks, gap, literal, content, tail, rfl, blank, gapBlank, object, ends⟩ := isExport
  have pair : IsBracketPair '{' '}' := by decide
  obtain ⟨region, whole, isRegion⟩ := exists_isRegion pair object
  rw [append_nil] at whole
  have word {s : Text} (plain : s.all isPlain) : EndsPlain s :=
    endsPlain_of_isPlain (all_eq_true.1 plain)
  have blanksPlain {s : Text} (blank : s.isBlankText) : EndsPlain s :=
    endsPlain_of_isBlank (isBlank_of_isBlankText blank)
  have literalPlain : EndsPlain literal := whole ▸ isRegion.endsPlain pair
  exact (((((word (by decide)).append (blanksPlain blank)).append (word (by decide))).append
    (blanksPlain gapBlank)).append literalPlain).append (endsPlain_of_isPlain ends.isPlain)

theorem IsObjectExport.endsWord (isExport : IsObjectExport t) : EndsWord t := by
  obtain ⟨blanks, gap, literal, content, tail, rfl, blank, gapBlank, object, ends⟩ := isExport
  have pair : IsBracketPair '{' '}' := by decide
  obtain ⟨region, whole, isRegion⟩ := exists_isRegion pair object
  obtain ⟨init, last⟩ := isRegion.exists_init
  rcases eq_nil_or_concat tail with rfl | ⟨marks, c, rfl⟩
  · refine .inr ⟨"export".toList ++ blanks ++ "default".toList ++ gap ++ init, '}', ?_, by decide,
      by decide⟩
    simp [whole, last]
  · have mark : c ∈ tailMarks := ends.subset (by simp)
    have apart : tailMarks.all (fun c => !isIdentChar c && c != '.') := by decide
    have other := all_eq_true.1 apart c mark
    rw [Bool.and_eq_true] at other
    exact .inr ⟨"export".toList ++ blanks ++ "default".toList ++ gap ++ literal ++ marks, c,
      by simp, by simpa using other.1, by simpa using other.2⟩

theorem exists_isObjectExport {content after : Text}
    (mem : index ∈ occurrences body (mask body) "export" 0)
    (isDefault : isDefaultAt body index)
    (object : balanced? '{' '}' (exportedValue body index) = some (content, after)) :
    ∃ before gone, body = before ++ (gone ++ afterStatement after) ∧ before.length = index ∧
      IsObjectExport gone ∧ EndsWord before ∧ Parts before (gone ++ afterStatement after) := by
  obtain ⟨before, rest, rfl, rfl, parted, parts⟩ := exists_of_mem_occurrences isWord_export.1 mem
  obtain ⟨value, starts, same⟩ := exists_of_isDefaultAt isDefault
  have behind : (before ++ ("export".toList ++ rest)).drop (before.length + 6) = rest := by
    rw [← drop_drop, drop_left]
    rfl
  rw [behind] at starts
  rw [same] at object
  obtain ⟨blanks, blank, first⟩ := exists_blanks rest
  obtain ⟨gap, gapBlank, second⟩ := exists_blanks value
  obtain ⟨region, third, isRegion⟩ := exists_isRegion (by decide) object
  obtain ⟨tail, ends, fourth⟩ := exists_isStatementTail after
  have found := isRegion.found []
  rw [append_nil] at found
  have whole : "export".toList ++ rest = "export".toList ++ blanks ++ "default".toList ++ gap ++
      region ++ tail ++ afterStatement after := by
    rw [first, starts, second, third]
    simp only [append_assoc, ← fourth]
  rw [whole] at parts ⊢
  exact ⟨before, _, rfl, rfl, ⟨blanks, gap, region, content, tail, rfl, all_eq_true.2 blank,
    all_eq_true.2 gapBlank, found, ends⟩, endsWord_of_partsNames parted, parts⟩

theorem isDefaultAt_append_right (s t : Text) (index : Nat) :
    isDefaultAt (s ++ t) (index + s.length) = isDefaultAt t index := by
  unfold isDefaultAt
  rw [Nat.add_right_comm, Nat.add_comm, ← drop_drop, drop_left]

theorem isDefaultAt_append_left (ends : EndsWord s)
    (shown : isBlankText (s.drop (index + 6)) = false) (t t' : Text) :
    isDefaultAt (s ++ t) index = isDefaultAt (s ++ t') index := by
  have kept : trimStart (s.drop (index + 6)) ≠ [] := by
    intro empty
    have all := leadingBlanks_append_trimStart (s.drop (index + 6))
    rw [empty, append_nil] at all
    rw [← all, isBlankText, leadingBlanks, all_takeWhile] at shown
    cases shown
  have inside : index + 6 ≤ s.length := by
    by_cases long : index + 6 ≤ s.length
    · exact long
    · rw [drop_of_length_le (by omega)] at kept
      exact absurd rfl kept
  have trimmed (u : Text) : trimStart ((s ++ u).drop (index + 6)) =
      trimStart (s.drop (index + 6)) ++ u := by
    rw [drop_append_of_le_length inside, trimStart_append, if_neg kept]
  rcases ends with rfl | ⟨init, c, rfl, other, -⟩
  · simp [trimStart] at kept
  · have part : trimStart ((init ++ [c]).drop (index + 6)) <:+ init ++ [c] :=
      (dropWhile_suffix _).trans (drop_suffix _ _)
    rcases suffix_concat_iff.1 part with empty | ⟨v, whole, -⟩
    · exact absurd empty kept
    · have apart : c ∉ "default".toList := by
        intro mem
        have word : "default".toList.all isIdentChar := by decide
        rw [all_eq_true.1 word c mem] at other
        cases other
      unfold isDefaultAt startsWith
      rw [trimmed, trimmed, whole, append_assoc, append_assoc, singleton_append, singleton_append]
      rcases after?_of_break apart v with ⟨rest, rfl⟩ | absent
      · rfl
      · rw [absent, absent]

theorem defaultExports_append (ends : EndsWord s) (parts : Parts s t) :
    defaultExports (s ++ t) =
      (occurrences s (mask s) "export" 0).filter (isDefaultAt (s ++ t)) ++
        (defaultExports t).map (· + s.length) := by
  rw [defaultExports, occurrences_append isWord_export.1 isWord_export.2 ends parts,
    filter_append, filter_map]
  congr 3
  funext index
  exact isDefaultAt_append_right s t index

theorem isDefaultAt_before_first (ends : EndsWord s) (parts : Parts s t)
    (found : defaultExports (s ++ t) = s.length :: rest) :
    ∀ i ∈ occurrences s (mask s) "export" 0, ¬ isDefaultAt (s ++ t) i := by
  rw [← filter_eq_nil_iff]
  cases early : (occurrences s (mask s) "export" 0).filter (isDefaultAt (s ++ t)) with
  | nil => rfl
  | cons i others =>
    have whole := defaultExports_append ends parts
    rw [early, found] at whole
    have member := mem_filter.1 (early.symm ▸ mem_cons_self (l := others) (a := i))
    have short := (mem_occurrencesFrom member.1).2
    rw [← (cons.inj whole).1] at short
    simp at short

theorem filter_places {early late : List Nat} {front gone : Nat} (short : ∀ i ∈ early, i < gone) :
    (((early ++ late.map (· + gone)).map (· + front)).filter (front + gone ≤ ·)).map (· - gone) =
      late.map (· + front) := by
  have none : early.filter ((front + gone ≤ ·) ∘ (· + front)) = [] := by
    rw [filter_eq_nil_iff]
    intro i member
    have := short i member
    simp only [Function.comp_apply, decide_eq_true_eq]
    omega
  have all : (late.map (· + gone)).filter ((front + gone ≤ ·) ∘ (· + front)) =
      late.map (· + gone) := by
    rw [filter_eq_self]
    intro i member
    obtain ⟨j, -, rfl⟩ := mem_map.1 member
    simp only [Function.comp_apply, decide_eq_true_eq]
    omega
  rw [filter_map, filter_append, none, all, nil_append, map_map, map_map]
  apply map_congr_left
  simp only [Function.comp_apply]
  omega

theorem defaultExports_removed {before gone after : Text} (ends : EndsWord before)
    (parts : Parts before (gone ++ after)) (isExport : IsObjectExport gone)
    (alone : StandsAlone before)
    (found : defaultExports (before ++ (gone ++ after)) = before.length :: rest) :
    defaultExports (before ++ after) =
      (rest.filter (before.length + gone.length ≤ ·)).map (· - gone.length) := by
  obtain ⟨tail, starts⟩ := isExport.exists_cons
  have joined : Parts before after := by
    rw [starts] at parts
    exact parts.swap (by decide) alone.1 after
  have noneBefore := isDefaultAt_before_first ends parts found
  -- Without the statement, no export before it is a default export either.
  have stillNone : ∀ i ∈ occurrences before (mask before) "export" 0,
      ¬ isDefaultAt (before ++ after) i := by
    intro i member
    rw [isDefaultAt_append_left ends (alone.2 i member) after (gone ++ after)]
    exact noneBefore i member
  have whole : before.length :: rest = (((occurrences gone (mask gone) "export" 0).filter
      (isDefaultAt (gone ++ after)) ++ (defaultExports after).map (· + gone.length)).map
        (· + before.length)) := by
    rw [← found, defaultExports_append ends parts, filter_eq_nil_iff.2 noneBefore,
      nil_append, defaultExports_append isExport.endsWord (isExport.endsPlain.parts after)]
  have same : rest.filter (before.length + gone.length ≤ ·) =
      (before.length :: rest).filter (before.length + gone.length ≤ ·) := by
    have positive : 0 < gone.length := by simp [starts]
    rw [filter_cons_of_neg (by simp only [decide_eq_true_eq]; omega)]
  have short : ∀ i ∈ (occurrences gone (mask gone) "export" 0).filter (isDefaultAt (gone ++ after)),
      i < gone.length := by
    intro i member
    simpa using (mem_occurrencesFrom (mem_filter.1 member).1).2
  rw [same, whole, filter_places short, defaultExports_append ends joined,
    filter_eq_nil_iff.2 stillNone, nil_append]

namespace Plain

def moduleBody (content : Text) : Text := (ModuleStatements.split false content).body

theorem read_eq (content : Text) :
    (∀ members rest, DefaultExport.find (moduleBody content) = .object members rest →
      (read content).statements.body = rest ∧ (read content).warnings = []) ∧
    (DefaultExport.find (moduleBody content) = .other →
      (read content).statements.body = moduleBody content ∧
        (read content).warnings = [leftInPlace]) ∧
    (DefaultExport.find (moduleBody content) = .missing →
      (read content).statements.body = moduleBody content ∧ (read content).warnings = []) := by
  simp only [moduleBody, read]
  refine ⟨fun members rest found => ?_, fun found => ?_, fun found => ?_⟩
  all_goals rw [found]; exact ⟨rfl, rfl⟩

/-- A script without default export stays as it is. If the first default export is no object
literal, the script stays as it is and there is a warning. If it is one, its statement is taken out;
when the code around it does not grow together, the default exports that are left are those that
stood behind the statement, so there is none if it was the only one. -/
theorem read_leaves_default_exports (content : Text) :
    (defaultExports (moduleBody content) = [] →
      (read content).statements.body = moduleBody content ∧ (read content).warnings = []) ∧
    ∀ first rest, defaultExports (moduleBody content) = first :: rest →
      (startsWithObject (exportedValue (moduleBody content) first) = false →
        (read content).statements.body = moduleBody content ∧
          (read content).warnings = [leftInPlace]) ∧
      (startsWithObject (exportedValue (moduleBody content) first) = true →
        ∃ before gone after, moduleBody content = before ++ (gone ++ after) ∧
          before.length = first ∧ IsObjectExport gone ∧
          (read content).statements.body = before ++ after ∧ (read content).warnings = [] ∧
          (StandsAlone before → defaultExports (before ++ after) =
            (rest.filter (first + gone.length ≤ ·)).map (· - gone.length))) := by
  obtain ⟨object, other, missing⟩ := read_eq content
  have find := find_eq (moduleBody content)
  constructor
  · intro none
    rw [none] at find
    exact missing find
  · intro first rest found
    have member : first ∈ defaultExports (moduleBody content) := by
      rw [found]
      exact mem_cons_self
    obtain ⟨occurs, isDefault⟩ := mem_filter.1 member
    obtain ⟨value, whole, same⟩ := exists_of_isDefaultAt isDefault
    obtain ⟨isObject, isOther⟩ := at?_eq whole
    rw [found, head?_cons, Option.bind_some] at find
    constructor
    · intro noObject
      rw [startsWithObject, Option.isSome_eq_false_iff, Option.isNone_iff_eq_none, same] at noObject
      rw [isOther noObject] at find
      exact other find
    · intro starts
      obtain ⟨⟨literal, after⟩, balanced⟩ := Option.isSome_iff_exists.1 starts
      rw [isObject literal after (same ▸ balanced)] at find
      obtain ⟨body, warnings⟩ := object _ _ find
      obtain ⟨before, gone, split, long, isExport, ends, parts⟩ :=
        exists_isObjectExport occurs isDefault balanced
      have front : (moduleBody content).take first = before := by
        rw [split, ← long, take_left]
      rw [front] at body
      refine ⟨before, gone, _, split, long, isExport, body, warnings, fun alone => ?_⟩
      rw [split, ← long] at found
      rw [← long]
      exact defaultExports_removed ends parts isExport alone found

def optionsScript : Text :=
  "import a from 'a'\nexport const b = a\nexport default \x7b name: 'X' \x7d;\nexport \x7b a \x7d\n"

theorem read_leaves_default_exports_options :
    defaultExports (moduleBody optionsScript) = [19] ∧
      defaultExports (read optionsScript).statements.body = [] ∧
      (read optionsScript).warnings = [] := by
  have found : defaultExports (moduleBody optionsScript) = [19] := by decide +kernel
  obtain ⟨before, gone, after, whole, long, -, body, warnings, left⟩ :=
    ((read_leaves_default_exports optionsScript).2 19 [] found).2 (by decide +kernel)
  have front : before = (moduleBody optionsScript).take 19 := by
    rw [whole, ← long, take_left]
  have alone : StandsAlone before := by
    rw [front]
    decide +kernel
  refine ⟨found, ?_, warnings⟩
  rw [body, left alone]
  rfl

/-- A class is left in place. -/
theorem read_keeps_default_class :
    defaultExports (read "export default class \x7b\x7d\n").statements.body = [0] := by
  decide +kernel

end Plain

end Script

end SfcJsx
