import SfcJsx.Proofs.ScopeShadowing
import SfcJsx.Proofs.SegmentReading

/-!
The text that an expression becomes, segment by segment, and what can be seen of it from its start:
it begins as the expression does, up to the names in front of which `props.` is put.
-/

namespace SfcJsx.Expression

open List Text

variable {s : Scan} {t name : Text} {use : NameUse} {d : Char}

/-- What a segment becomes. -/
def Segment.qualified (env : Environment) (segment : Segment) : Text :=
  (renderSegment segment env {}).1

def qualifiedName (env : Environment) (name : Text) (use : NameUse) : Text :=
  if use.isBound || env.inScope name then name
  else match specialNames.lookup name with
    | some replacement => replacement
    | none => if advisoryNames.contains name then name else classified env.names name use

theorem renderName_text (env : Environment) (name : Text) (use : NameUse) (f : Findings) :
    (renderName name use env f).1 = qualifiedName env name use := by
  unfold qualifiedName
  change ((if use.isBound || env.inScope name then _ else _ : Render Text) env f).1 = _
  split
  · rfl
  · cases specialNames.lookup name with
    | some replacement => rfl
    | none =>
      dsimp only
      split <;> rfl

theorem renderSegment_text (env : Environment) (segment : Segment) (f : Findings) :
    (renderSegment segment env f).1 = segment.qualified env := by
  obtain ⟨text, use⟩ := segment
  cases use with
  | none => rfl
  | some use => exact (renderName_text env text use f).trans (renderName_text env text use {}).symm

theorem mapM_renderSegment_text (env : Environment) (items : List Segment) (f : Findings) :
    (items.mapM renderSegment env f).1 = items.map (·.qualified env) := by
  induction items generalizing f with
  | nil => rfl
  | cons segment items ih =>
    have first := renderSegment_text env segment f
    have rest := ih (renderSegment segment env f).2
    rw [mapM_cons]
    calc _ = (renderSegment segment env f).1 ::
          (items.mapM renderSegment env (renderSegment segment env f).2).1 := rfl
      _ = _ := by rw [first, rest, map_cons]

/-- What the rest of an expression becomes, from a state of the scan on. -/
def qualifiedFrom (env : Environment) (s : Scan) (t : Text) : Text :=
  (segmentsFrom s t).flatMap (·.qualified env)

theorem qualify_text (env : Environment) (expression : Text) (f : Findings) :
    (qualify expression env f).1 = qualifiedFrom env {} expression := by
  rw [qualify_eq_qualifySegments]
  calc _ = ((segments expression).mapM renderSegment env f).1.flatten := rfl
    _ = _ := by rw [mapM_renderSegment_text]; rfl

def propsName : Text := ['p', 'r', 'o', 'p', 's']

/-- What a name can become. -/
inductive Outcome (env : Environment) (name : Text) (use : NameUse) : Text → Prop
  | same : Outcome env name use name
  | special {replacement : Text} (listed : (name, replacement) ∈ specialNames) :
      Outcome env name use replacement
  | input (listed : name ∈ env.names.props) : Outcome env name use (propsName ++ '.' :: name)
  | inputShorthand (place : use.place = .shorthand) (free : specialNames.lookup name = none) :
      Outcome env name use (name ++ ':' :: ' ' :: (propsName ++ '.' :: name))
  | reference (wrapped : use.isUnwrapped = false) (free : specialNames.lookup name = none)
      (other : name ∉ env.names.props) : Outcome env name use (name ++ '.' :: valueName)
  | referenceShorthand (place : use.place = .shorthand) (free : specialNames.lookup name = none)
      (other : name ∉ env.names.props) :
      Outcome env name use (name ++ ':' :: ' ' :: (name ++ '.' :: valueName))

theorem outcome_classified {env : Environment} (use : NameUse)
    (free : specialNames.lookup name = none) :
    Outcome env name use (classified env.names name use) := by
  unfold classified
  split
  · exact .same
  · split
    · next listed =>
      rw [contains_iff_mem] at listed
      split
      · next place =>
        rw [append_assoc]
        exact .inputShorthand place free
      · exact .input listed
    · next other =>
      rw [contains_iff_mem] at other
      split
      · split
        · exact .same
        · next wrapped =>
          rw [Bool.not_eq_true] at wrapped
          split
          · next place =>
            rw [append_assoc, append_assoc]
            exact .referenceShorthand place free other
          · exact .reference wrapped free other
      · exact .same

theorem outcome_qualifiedName (env : Environment) (name : Text) (use : NameUse) :
    Outcome env name use (qualifiedName env name use) := by
  unfold qualifiedName
  split
  · exact .same
  · split
    · next replacement found =>
      obtain ⟨before, after, whole, -⟩ := lookup_eq_some_iff.1 found
      exact .special (by rw [whole]; simp)
    · next free =>
      split
      · exact .same
      · exact outcome_classified use free

theorem qualifiedName_of_isBound {env : Environment} (bound : use.isBound) :
    qualifiedName env name use = name := by
  rw [qualifiedName, bound]
  rfl

section

variable (free : specialNames.lookup name = none) {env : Environment}

include free

theorem qualifiedName_of_classified (kept : classified env.names name use = name) :
    qualifiedName env name use = name := by
  unfold qualifiedName
  rw [free, kept]
  dsimp only
  split
  · rfl
  · split <;> rfl

theorem qualifiedName_of_key (key : use.place = .key) : qualifiedName env name use = name :=
  qualifiedName_of_classified free (by rw [classified, if_pos key])

theorem qualifiedName_of_isUnwrapped (other : name ∉ env.names.props)
    (unwrapped : use.isUnwrapped) : qualifiedName env name use = name := by
  apply qualifiedName_of_classified free
  have : env.names.props.contains name = false := by simpa using other
  simp only [classified, this, unwrapped]
  simp

end

theorem qualifiedName_congr {env : Environment} {use₂ : NameUse} (unbound : use.isBound = false)
    (kept : qualifiedName env name use = name) (place : use₂.place = use.place)
    (unwrapped : use₂.isUnwrapped = use.isUnwrapped) : qualifiedName env name use₂ = name := by
  have same : classified env.names name use₂ = classified env.names name use := by
    simp only [classified, place, unwrapped]
  unfold qualifiedName at kept ⊢
  rw [unbound] at kept
  rw [same]
  cases hidden : env.inScope name with
  | true => simp
  | false =>
    rw [hidden] at kept
    cases use₂.isBound with
    | true => rfl
    | false => exact kept

/-- No reference and no input has a name that one of the template's own names becomes. -/
def Unreserved (names : Names) : Prop :=
  ∀ entry ∈ specialNames, entry.2 ∉ names.refs ++ names.props

instance (names : Names) : Decidable (Unreserved names) :=
  inferInstanceAs (Decidable (∀ entry ∈ specialNames, entry.2 ∉ names.refs ++ names.props))

theorem qualifiedName_reserved {env : Environment} (fresh : Unreserved env.names)
    {entry : Text × Text} (listed : entry ∈ specialNames) (use : NameUse) :
    qualifiedName env entry.2 use = entry.2 := by
  have free : ∀ entry ∈ specialNames, specialNames.lookup entry.2 = none := by decide
  apply qualifiedName_of_classified (free entry listed)
  have unclassified := fresh entry listed
  rw [mem_append, not_or] at unclassified
  simp [classified, unclassified]

theorem isIdentifier_of_special {replacement : Text} (listed : (name, replacement) ∈ specialNames) :
    isIdentifier replacement := by
  have identifiers : ∀ entry ∈ specialNames, isIdentifier entry.2 := by decide
  exact identifiers _ listed

theorem qualifiedName_props {env : Environment} (fresh : Unreserved env.names) (use : NameUse) :
    qualifiedName env propsName use = propsName := by
  have listed : (['$', 'p', 'r', 'o', 'p', 's'], propsName) ∈ specialNames := by decide
  exact qualifiedName_reserved fresh listed use

section Start

variable {env : Environment}

@[simp] theorem qualified_copied (text : Text) : Segment.qualified env ⟨text, none⟩ = text := rfl

theorem qualified_name (name : Text) (use : NameUse) :
    Segment.qualified env ⟨name, some use⟩ = qualifiedName env name use :=
  renderName_text env name use {}

theorem Reads.qualifiedFrom {next : Scan} {rest : Text} {segment : Segment}
    (h : Reads s t segment next rest) :
    qualifiedFrom env s t = segment.qualified env ++ qualifiedFrom env next rest := by
  rw [Expression.qualifiedFrom, h.segments]
  rfl

@[simp] theorem qualifiedFrom_nil (s : Scan) : qualifiedFrom env s [] = [] := by
  rw [qualifiedFrom, segmentsFrom]
  rfl

theorem start_of_outcome {result : Text} (named : isIdentifier name)
    (outcome : Outcome env name use result) : ∃ c tail, result = c :: tail ∧ isIdentStart c := by
  obtain ⟨c, tail, rfl, start⟩ := exists_start named
  cases outcome with
  | same => exact ⟨c, tail, rfl, start⟩
  | special listed =>
    exact exists_start (isIdentifier_of_special listed)
  | input => exact ⟨'p', _, rfl, by decide⟩
  | inputShorthand => exact ⟨c, _, rfl, start⟩
  | reference => exact ⟨c, _, rfl, start⟩
  | referenceShorthand => exact ⟨c, _, rfl, start⟩

theorem start_qualifiedFrom {c : Char} (start : isIdentStart c) (s : Scan)
    (rest : Text) : ∃ d, (qualifiedFrom env s (c :: rest)).head? = some d ∧ isIdentStart d := by
  generalize whole : c :: rest = t
  cases lead t with
  | nil => cases whole
  | name named ended =>
    obtain ⟨use, next, reads, -⟩ := reads_name s named ended
    obtain ⟨d, tail, result, starts⟩ := start_of_outcome named (outcome_qualifiedName env _ use)
    refine ⟨d, ?_, starts⟩
    rw [reads.qualifiedFrom, qualified_name, result]
    rfl
  | number digit =>
    cases whole
    rw [isIdentStart_of_isDigit digit] at start
    cases start
  | copied other =>
    cases whole
    rw [other] at start
    cases start

theorem head?_qualifiedFrom {c : Char} (start : isIdentStart c = false) (s : Scan)
    (rest : Text) : (qualifiedFrom env s (c :: rest)).head? = some c := by
  generalize whole : c :: rest = t
  cases lead t with
  | nil => cases whole
  | @name name _ named =>
    cases name with
    | nil => cases named
    | cons d tail =>
      cases whole
      rw [isIdentifier, start] at named
      cases named
  | number digit inNumber ended =>
    cases whole
    rw [(reads_number s digit inNumber ended).qualifiedFrom]
    rfl
  | copied other digit =>
    cases whole
    obtain ⟨body, after, next, rfl, copies⟩ := exists_copies s start digit rest
    rw [(reads_of_step copies.step).qualifiedFrom]
    rfl

theorem follows_qualifiedFrom (s : Scan) (t : Text) : Follows t (qualifiedFrom env s t) := by
  refine ⟨?_, ?_⟩
  · rintro rfl
    exact qualifiedFrom_nil s
  · intro c first other
    obtain ⟨tail, rfl⟩ := head?_eq_some_iff.1 first
    exact head?_qualifiedFrom other s tail

theorem ended_qualifiedFrom (ended : t.head?.any isIdentChar = false) (s : Scan) :
    (qualifiedFrom env s t).head?.any isIdentChar = false := by
  cases t with
  | nil => rw [qualifiedFrom_nil]; rfl
  | cons c rest =>
    have start := isIdentStart_eq_false (c := c) ended
    rw [head?_qualifiedFrom start]
    exact ended

theorem trimStart_qualifiedFrom (s : Scan) (t : Text) :
    ∃ next, (qualifiedFrom env s t).trimStart = qualifiedFrom env next t.trimStart := by
  induction t generalizing s with
  | nil => exact ⟨s, by simp [trimStart]⟩
  | cons c rest ih =>
    cases blank : isBlank c with
    | true =>
      obtain ⟨next, trimmed⟩ := ih { s with seen := c :: s.seen }
      refine ⟨next, ?_⟩
      calc (qualifiedFrom env s (c :: rest)).trimStart
          = trimStart (c :: qualifiedFrom env { s with seen := c :: s.seen } rest) := by
            rw [(reads_blank blank s rest).qualifiedFrom]
            rfl
        _ = qualifiedFrom env next (trimStart (c :: rest)) := by
            rw [trimStart_cons blank, trimStart_cons blank, trimmed]
    | false =>
      have solid : (qualifiedFrom env s (c :: rest)).head?.any isBlank = false := by
        cases start : isIdentStart c with
        | false => rw [head?_qualifiedFrom start]; exact blank
        | true =>
          obtain ⟨d, first, starts⟩ := @start_qualifiedFrom env c start s rest
          rw [first]
          cases solid : isBlank d with
          | false => exact solid
          | true =>
            have := isIdentStart_eq_false (isIdentChar_of_isBlank solid)
            rw [this] at starts
            cases starts
      have kept : trimStart (c :: rest) = c :: rest := dropWhile_of_head? blank
      exact ⟨s, by rw [kept, trimStart, dropWhile_of_head? solid]⟩

theorem head?_qualifiedFrom_iff (s : Scan) (t : Text) (start : isIdentStart d = false) :
    (qualifiedFrom env s t).head? = some d ↔ t.head? = some d := by
  cases t with
  | nil => rw [qualifiedFrom_nil]
  | cons c rest =>
    cases other : isIdentStart c with
    | false => rw [head?_qualifiedFrom other]; rfl
    | true =>
      obtain ⟨e, first, starts⟩ := @start_qualifiedFrom env c other s rest
      rw [first]
      constructor
      · rintro ⟨⟩
        rw [starts] at start
        cases start
      · rintro ⟨⟩
        rw [other] at start
        cases start

theorem next_qualifiedFrom (s : Scan) (t : Text) (start : isIdentStart d = false) :
    (qualifiedFrom env s t).trimStart.head? = some d ↔ t.trimStart.head? = some d := by
  obtain ⟨next, trimmed⟩ := @trimStart_qualifiedFrom env s t
  rw [trimmed]
  exact head?_qualifiedFrom_iff next t.trimStart start

theorem placeBefore_qualifiedFrom {s₁ s₂ : Scan} (agree : Agree s₁ s₂) (s : Scan) (t : Text) :
    placeBefore s₂ (qualifiedFrom env s t) = placeBefore s₁ t := by
  apply agree.placeBefore
  intro d mark
  have other : [':', ',', '}'].all (fun d => !isIdentStart d) := by decide
  have start := all_eq_true.1 other d mark
  exact next_qualifiedFrom s t (by simpa using start)

theorem word_qualifiedFrom (member : isMemberAfter s.seen) {after : Text}
    (named : isIdentifier name) (ended : after.head?.any isIdentChar = false) :
    (qualifiedFrom env s (name ++ after)).takeWhile isIdentChar = name := by
  obtain ⟨use, next, reads, uses, -⟩ := reads_name s named ended
  rw [reads.qualifiedFrom, qualified_name, qualifiedName_of_isBound (uses.member member)]
  exact takeWhile_name named (ended_qualifiedFrom ended next)

theorem word_ne_valueName (start : t.head?.any isIdentStart = false) :
    t.takeWhile isIdentChar ≠ valueName := by
  intro word
  cases t with
  | nil => cases word
  | cons c rest =>
    have first : (c :: rest).head? = some 'v' := by
      rw [← takeWhile_append_dropWhile (p := isIdentChar) (l := c :: rest), word]
      rfl
    rw [first] at start
    exact absurd start (by decide)

theorem word_eq_valueName_iff (member : isMemberAfter s.seen) (t : Text) :
    (qualifiedFrom env s t).takeWhile isIdentChar = valueName ↔
      t.takeWhile isIdentChar = valueName := by
  have unlike {c : Char} (rest : Text) (start : isIdentStart c = false) :
      (qualifiedFrom env s (c :: rest)).takeWhile isIdentChar = valueName ↔
        (c :: rest).takeWhile isIdentChar = valueName := by
    refine iff_of_false (word_ne_valueName ?_) (word_ne_valueName start)
    rw [head?_qualifiedFrom start]
    exact start
  cases lead t with
  | nil => rw [qualifiedFrom_nil]
  | name named ended => rw [word_qualifiedFrom member named ended, takeWhile_name named ended]
  | number digit => exact unlike _ (isIdentStart_of_isDigit digit)
  | copied start => exact unlike _ start

theorem startsUnwrapping_qualifiedFrom (word : s.seen.head?.any isIdentChar) (t : Text) :
    startsUnwrapping (qualifiedFrom env s t) = startsUnwrapping t := by
  rw [Bool.eq_iff_iff, startsUnwrapping_iff, startsUnwrapping_iff]
  by_cases dot : t.head? = some '.'
  · obtain ⟨rest, rfl⟩ := head?_eq_some_iff.1 dot
    have reads := reads_mark (c := '.') (by decide) (by decide) (by decide) (by decide) s rest
    have words := @word_eq_valueName_iff { s.mark '.' with seen := '.' :: s.seen } env
      (isMemberAfter_dot word) rest
    rw [reads.qualifiedFrom]
    constructor
    · rintro ⟨more, same, word⟩
      obtain rfl := (cons.inj same).2
      exact ⟨rest, rfl, words.1 word⟩
    · rintro ⟨more, same, word⟩
      obtain rfl := (cons.inj same).2
      exact ⟨_, rfl, words.2 word⟩
  · have undotted : (qualifiedFrom env s t).head? ≠ some '.' :=
      fun first => dot ((head?_qualifiedFrom_iff s t (by decide)).1 first)
    apply iff_of_false
    · rintro ⟨more, whole, -⟩
      exact undotted (by rw [whole]; rfl)
    · rintro ⟨more, whole, -⟩
      exact dot (by rw [whole]; rfl)

end Start

end SfcJsx.Expression
