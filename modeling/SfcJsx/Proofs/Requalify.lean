import SfcJsx.Proofs.QualifiedText

/-!
Expressions that are qualified twice. The text that an expression becomes is scanned again, and the
second scan stays in step with the first: it meets the same brackets, member names and object keys.
Two things can part them. A name that an arrow function bound may be free in the new text, because
an object shorthand in the parameter list was written out; and a number may run into the name behind
it once that has lost its `$`. Everywhere else a name stays as it is.
-/

namespace SfcJsx.Expression

open List Text

variable {s : Scan} {rest result t name seen word after run before : Text} {c : Char}
  {items : List Segment} {segment : Segment}

/-- Each segment with the text before it. -/
def occurrences (before : Text) : List Segment → List (Text × Segment)
  | [] => []
  | segment :: rest => (before, segment) :: occurrences (before ++ segment.text) rest

/-- Where the names that arrow functions bind in an expression stand in what it becomes: the texts
before them. `source` and `target` are the texts before the segments, in the expression and in what
it becomes. -/
def arrowPlaces (env : Environment) (source target : Text) : List Segment → List Text
  | [] => []
  | segment :: rest =>
    (if segment.use.any (·.isBound) && !isMemberAfter source.reverse then [target] else []) ++
      arrowPlaces env (source ++ segment.text) (target ++ segment.qualified env) rest

section Scan

variable (env : Environment) (places : List Text)

/-- Whether a segment stays, unless it stands at one of the places or runs on from a word. -/
def Keeps (before : Text) (segment : Segment) : Prop :=
  before ∈ places ∨ before.getLast?.any isIdentChar ∨
    segment.qualified env = segment.text

def Holds (s : Scan) (t : Text) : Prop :=
  ∀ place ∈ occurrences s.seen.reverse (segmentsFrom s t), Keeps env places place.1 place.2

/-- Whether all segments are kept when a number has been read and takes what it can of the text. -/
def HoldsInNumber (s : Scan) (t : Text) : Prop :=
  Holds env places { s with seen := (t.takeWhile isNumberChar).reverse ++ s.seen }
    (t.dropWhile isNumberChar)

def Onward (frames : List Frame) (seen t : Text) : Prop :=
  ∀ s : Scan, s.frames = frames → Settled s → s.seen = seen → Holds env places s t

def OnwardInNumber (frames : List Frame) (seen t : Text) : Prop :=
  ∀ s : Scan, s.frames = frames → Settled s → s.seen = seen → HoldsInNumber env places s t

end Scan

section Rules

variable {env : Environment} {places : List Text} {frames : List Frame} {use : NameUse}

theorem holds_nil (s : Scan) : Holds env places s [] := by
  rw [Holds, segmentsFrom]
  intro place inside
  cases inside

theorem Reads.holds {next : Scan} (h : Reads s t segment next rest)
    (kept : Keeps env places s.seen.reverse segment)
    (later : Holds env places next rest) : Holds env places s t := by
  rw [Holds, h.segments]
  intro place inside
  rcases mem_cons.1 inside with rfl | inside
  · exact kept
  · rw [Holds, h.seen, reverse_append, reverse_reverse] at later
    exact later place inside

theorem keeps_copied (before text : Text) : Keeps env places before ⟨text, none⟩ := .inr (.inr rfl)

theorem keeps_name (same : qualifiedName env name use = name) :
    Keeps env places before ⟨name, some use⟩ :=
  .inr (.inr ((qualified_name name use).trans same))

theorem holds_name (named : isIdentifier name) (ended : rest.head?.any isIdentChar = false)
    (kept : ∀ use, Uses s rest use → Keeps env places s.seen.reverse ⟨name, some use⟩)
    (later : Onward env places s.frames (name.reverse ++ s.seen) rest) :
    Holds env places s (name ++ rest) := by
  obtain ⟨use, next, reads, uses, frames, settled⟩ := reads_name s named ended
  exact reads.holds (kept use uses) (later next frames settled reads.seen)

theorem onward_mark (mark : c = '.' ∨ c = ':') (later : Onward env places frames (c :: seen) rest) :
    Onward env places frames seen (c :: rest) := by
  intro s same settled past
  have plain : c ∉ ',' :: delimiters ∧ isIdentStart c = false ∧ c.isDigit = false ∧
      isBlank c = false ∧ c ∉ '>' :: turningChars := by
    rcases mark with rfl | rfl <;> decide
  obtain ⟨plain, start, digit, solid, calm⟩ := plain
  refine (reads_mark plain start digit solid s rest).holds (keeps_copied _ _) ?_
  exact later _ same ((settled_mark s calm).withSeen _) (congrArg (c :: ·) past)

theorem onward_blank (blank : isBlank c) (later : Onward env places frames (c :: seen) rest) :
    Onward env places frames seen (c :: rest) := by
  intro s same settled past
  refine (reads_blank blank s rest).holds (keeps_copied _ _) ?_
  exact later _ same (settled.withSeen _) (congrArg (c :: ·) past)

theorem onward_name (named : isIdentifier name) (ended : rest.head?.any isIdentChar = false)
    (kept : ∀ use : NameUse, (isMemberAfter seen → use.isBound) →
      use.isUnwrapped = startsUnwrapping rest → qualifiedName env name use = name)
    (later : Onward env places frames (name.reverse ++ seen) rest) :
    Onward env places frames seen (name ++ rest) := by
  rintro s rfl settled rfl
  apply holds_name named ended ?_ later
  intro use uses
  exact keeps_name (kept use uses.member uses.unwrapped)

theorem onward_member (word : seen.head?.any isIdentChar)
    (named : isIdentifier name) (ended : rest.head?.any isIdentChar = false)
    (later : Onward env places frames (name.reverse ++ '.' :: seen) rest) :
    Onward env places frames seen ('.' :: (name ++ rest)) := by
  apply onward_mark (.inl rfl)
  apply onward_name named ended ?_ later
  intro use member _
  exact qualifiedName_of_isBound (member (isMemberAfter_dot word))

theorem startsUnwrapping_value (ended : rest.head?.any isIdentChar = false) :
    startsUnwrapping ('.' :: (valueName ++ rest)) :=
  startsUnwrapping_iff.2 ⟨_, rfl, takeWhile_name (by decide) ended⟩

theorem placeBefore_colon (place : placeBefore s rest = .shorthand)
    (more : Text) : placeBefore s (':' :: more) = .key := by
  have colon : (trimStart (':' :: more)).head? = some ':' := rfl
  cases inObject : s.frames.head? == some .object &&
      (s.previous == some '{' || s.previous == some ',') with
  | false => simp [placeBefore, inObject] at place
  | true => simp [placeBefore, inObject, colon]

theorem head?_reverse_name (named : isIdentifier name) (seen : Text) :
    (name.reverse ++ seen).head?.any isIdentChar := by
  obtain ⟨c, tail, rfl, -⟩ := exists_start named
  have last : (c :: tail).getLast (by simp) ∈ c :: tail := getLast_mem (by simp)
  have first : ((c :: tail).reverse ++ seen).head? = some ((c :: tail).getLast (by simp)) := by
    rw [head?_append, head?_reverse]
    rfl
  rw [first]
  exact isIdentChar_of_mem named _ last

theorem holds_outcome (fresh : Unreserved env.names) (named : isIdentifier name)
    (ended : rest.head?.any isIdentChar = false) (outcome : Outcome env name use result)
    (place : placeBefore s rest = use.place) (kept : result = name →
      ∀ use₂, Uses s rest use₂ → Keeps env places s.seen.reverse ⟨name, some use₂⟩)
    (later : Onward env places s.frames (result.reverse ++ s.seen) rest) :
    Holds env places s (result ++ rest) := by
  have valued : isIdentifier valueName := by decide
  have propped : isIdentifier propsName := by decide
  cases outcome with
  | same => exact holds_name named ended (kept rfl) later
  | special listed =>
    apply holds_name (isIdentifier_of_special listed) ended ?_ later
    intro use₂ _
    exact keeps_name (qualifiedName_reserved fresh listed use₂)
  | input listed =>
    apply holds_name propped rfl
    · intro use₂ _
      exact keeps_name (qualifiedName_props fresh use₂)
    · apply onward_member (head?_reverse_name propped _) named ended
      simpa using later
  | inputShorthand shorthand free =>
    simp only [append_assoc, cons_append]
    apply holds_name named rfl
    · intro use₂ uses
      have key := placeBefore_colon (place.trans shorthand)
      exact keeps_name (qualifiedName_of_key free (uses.place.trans (key _)))
    · apply onward_mark (.inr rfl)
      apply onward_blank (by decide)
      apply onward_name propped rfl
      · intro use₂ _ _
        exact qualifiedName_props fresh use₂
      · apply onward_member (head?_reverse_name propped _) named ended
        simpa using later
  | reference wrapped free other =>
    rw [append_assoc]
    apply holds_name named rfl
    · intro use₂ uses
      have unwrapped := uses.unwrapped.trans (startsUnwrapping_value ended)
      exact keeps_name (qualifiedName_of_isUnwrapped free other unwrapped)
    · apply onward_member (head?_reverse_name named _) valued ended
      simpa using later
  | referenceShorthand shorthand free other =>
    simp only [append_assoc, cons_append]
    apply holds_name named rfl
    · intro use₂ uses
      have key := placeBefore_colon (place.trans shorthand)
      exact keeps_name (qualifiedName_of_key free (uses.place.trans (key _)))
    · apply onward_mark (.inr rfl)
      apply onward_blank (by decide)
      apply onward_name named rfl
      · intro use₂ _ unwrapped
        rw [startsUnwrapping_value ended] at unwrapped
        exact qualifiedName_of_isUnwrapped free other unwrapped
      · apply onward_member (head?_reverse_name named _) valued ended
        simpa using later

end Rules

section Number

variable {env : Environment} {places : List Text}

theorem holdsInNumber_append (inNumber : ∀ c ∈ run, isNumberChar c)
    (rest : Text) : HoldsInNumber env places s (run ++ rest) ↔
      HoldsInNumber env places { s with seen := run.reverse ++ s.seen } rest := by
  rw [HoldsInNumber, HoldsInNumber, takeWhile_append_of_pos inNumber,
    dropWhile_append_of_pos inNumber]
  simp

theorem holdsInNumber_of_head? (stops : t.head?.any isNumberChar = false)
    (holds : Holds env places s t) : HoldsInNumber env places s t := by
  rw [HoldsInNumber, takeWhile_of_head? stops, dropWhile_of_head? stops]
  exact holds

theorem holds_digit (digit : c.isDigit)
    (later : HoldsInNumber env places { s.mark '0' with seen := c :: s.seen } rest) :
    Holds env places s (c :: rest) := by
  have inNumber : ∀ d ∈ rest.takeWhile isNumberChar, isNumberChar d :=
    fun d => all_eq_true.1 all_takeWhile d
  have reads := reads_number s digit inNumber (head?_dropWhile isNumberChar rest)
  rw [takeWhile_append_dropWhile] at reads
  refine reads.holds (keeps_copied _ _) ?_
  simpa [HoldsInNumber] using later

theorem isNumberChar_or (inNumber : isNumberChar c) : isIdentStart c ∨ c.isDigit ∨ c = '.' := by
  simp only [isNumberChar, Char.isAlphanum, Bool.or_eq_true, beq_iff_eq] at inNumber
  rcases inNumber with ((alpha | digit) | dot) | underscore
  · exact .inl (isIdentStart_of_isAlpha alpha)
  · exact .inr (.inl digit)
  · exact .inr (.inr dot)
  · subst underscore
    exact .inl (by decide)

theorem holds_cut (inName : ∀ c ∈ word, isIdentChar c) (ended : rest.head?.any isIdentChar = false)
    (settled : Settled s) (before : s.seen.head?.any isIdentChar)
    (later : Onward env places s.frames (word.reverse ++ s.seen) rest)
    (laterIn : OnwardInNumber env places s.frames (word.reverse ++ s.seen) rest) :
    Holds env places s (word ++ rest) ∧ HoldsInNumber env places s (word ++ rest) := by
  induction word generalizing s with
  | nil => exact ⟨later s rfl settled rfl, laterIn s rfl settled rfl⟩
  | cons c word ih =>
    have inside : isIdentChar c := inName c (by simp)
    have inRest := (forall_mem_cons.1 inName).2
    have further {next : Scan} (settled : Settled next) (frames : next.frames = s.frames)
        (past : next.seen = c :: s.seen) :
        Holds env places next (word ++ rest) ∧ HoldsInNumber env places next (word ++ rest) := by
      apply ih inRest settled
      · rw [past]
        exact inside
      · rw [frames, past]
        simpa using later
      · rw [frames, past]
        simpa using laterIn
    -- The word goes on as a name, as another number, or as a character of neither.
    have holds : Holds env places s (c :: word ++ rest) := by
      cases start : isIdentStart c with
      | true =>
        have named : isIdentifier (c :: word) := by
          rw [isIdentifier, start, all_eq_true.2 inRest]
          rfl
        apply holds_name named ended ?_ later
        intro use _
        refine .inr (.inl ?_)
        rw [getLast?_reverse]
        exact before
      | false =>
        cases digit : c.isDigit with
        | true =>
          apply holds_digit digit
          exact (further ((settled_mark s (by decide)).withSeen _) rfl rfl).2
        | false =>
          have plain : c ∉ ',' :: delimiters := not_mem_of_any inside (by decide)
          have calm : c ∉ '>' :: turningChars := not_mem_of_any inside (by decide)
          have solid := isBlank_eq_false inside
          refine (reads_mark plain start digit solid s _).holds (keeps_copied _ _) ?_
          exact (further ((settled_mark s calm).withSeen _) rfl rfl).1
    refine ⟨holds, ?_⟩
    cases inNumber : isNumberChar c with
    | true =>
      rw [← singleton_append, append_assoc, holdsInNumber_append (by simpa using inNumber)]
      exact (further (settled.withSeen (c :: s.seen)) rfl rfl).2
    | false => exact holdsInNumber_of_head? inNumber holds

theorem inNumber_word (inName : ∀ c ∈ word, isIdentChar c)
    (ended : rest.head?.any isIdentChar = false) (settled : Settled s)
    (holds : Holds env places s (word ++ rest))
    (later : Onward env places s.frames (word.reverse ++ s.seen) rest)
    (laterIn : OnwardInNumber env places s.frames (word.reverse ++ s.seen) rest) :
    HoldsInNumber env places s (word ++ rest) := by
  cases word with
  | nil => exact laterIn s rfl settled rfl
  | cons c word =>
    cases inNumber : isNumberChar c with
    | false => exact holdsInNumber_of_head? inNumber holds
    | true =>
      rw [← singleton_append, append_assoc, holdsInNumber_append (by simpa using inNumber)]
      have inRest := (forall_mem_cons.1 inName).2
      have first : isIdentChar c := inName c (by simp)
      apply (holds_cut inRest ended (settled.withSeen (c :: s.seen)) first ?_ ?_).2
      · simpa using later
      · simpa using laterIn

theorem inNumber_outcome (settled : Settled s) {use : NameUse} (named : isIdentifier name)
    (ended : rest.head?.any isIdentChar = false) (outcome : Outcome env name use result)
    (place : use.place ≠ .shorthand) (holds : Holds env places s (result ++ rest))
    (later : Onward env places s.frames (result.reverse ++ s.seen) rest)
    (laterIn : OnwardInNumber env places s.frames (result.reverse ++ s.seen) rest) :
    HoldsInNumber env places s (result ++ rest) := by
  have inName := isIdentChar_of_mem named
  cases outcome with
  | same => exact inNumber_word inName ended settled holds later laterIn
  | special listed =>
    have inSpecial := isIdentChar_of_mem (isIdentifier_of_special listed)
    exact inNumber_word inSpecial ended settled holds later laterIn
  | input listed =>
    have taken : ∀ c ∈ propsName ++ ['.'], isNumberChar c := all_eq_true.1 rfl
    have past : (propsName ++ '.' :: name).reverse ++ s.seen =
        name.reverse ++ ((propsName ++ ['.']).reverse ++ s.seen) := by simp
    rw [past] at later laterIn
    rw [append_assoc, cons_append, append_cons, holdsInNumber_append taken]
    apply inNumber_word inName ended (settled.withSeen _) ?_ later laterIn
    apply holds_name named ended ?_ later
    intro use₂ uses
    have propped : isIdentifier propsName := by decide
    have member := isMemberAfter_dot (head?_reverse_name propped s.seen)
    exact keeps_name (qualifiedName_of_isBound (uses.member member))
  | inputShorthand shorthand => exact absurd shorthand place
  | reference wrapped free other =>
    rw [append_assoc] at holds ⊢
    apply inNumber_word inName rfl settled holds
    · apply onward_member (head?_reverse_name named _) (by decide) ended
      simpa using later
    · intro next frames settled₂ past
      have taken : ∀ c ∈ '.' :: valueName, isNumberChar c := all_eq_true.1 rfl
      rw [holdsInNumber_append taken]
      have after := settled₂.withSeen (('.' :: valueName).reverse ++ next.seen)
      exact laterIn _ frames after (by simp [past])
  | referenceShorthand shorthand => exact absurd shorthand place

end Number

section Again

variable (env : Environment) (places : List Text)

/-- Whether what the rest of an expression becomes is kept, in every scan that is like the first one
and at every place but those of the names bound by arrows. -/
def Survives (s₁ : Scan) (t : Text) : Prop :=
  ∀ s₂, Alike s₁ s₂ →
    arrowPlaces env s₁.seen.reverse s₂.seen.reverse (segmentsFrom s₁ t) ⊆ places →
    Holds env places s₂ (qualifiedFrom env s₁ t)

def SurvivesInNumber (s₁ : Scan) (t : Text) : Prop :=
  ∀ s₂, Alike s₁ s₂ → Settled s₁ → Settled s₂ →
    arrowPlaces env s₁.seen.reverse s₂.seen.reverse (segmentsFrom s₁ t) ⊆ places →
    HoldsInNumber env places s₂ (qualifiedFrom env s₁ t)

variable {env places} {next : Scan}

theorem Reads.arrowPlaces (h : Reads s t segment next rest)
    (inside : arrowPlaces env s.seen.reverse seen.reverse (segmentsFrom s t) ⊆ places) :
    (segment.use.any (·.isBound) → isMemberAfter s.seen = false →
        seen.reverse ∈ places) ∧
      arrowPlaces env next.seen.reverse ((segment.qualified env).reverse ++ seen).reverse
        (segmentsFrom next rest) ⊆ places := by
  rw [h.segments, Expression.arrowPlaces, append_subset, reverse_reverse] at inside
  constructor
  · intro bound member
    rw [if_pos (by rw [bound, member]; rfl)] at inside
    exact inside.1 (by simp)
  · rw [h.seen, reverse_append, reverse_append, reverse_reverse, reverse_reverse]
    exact inside.2

theorem word_of_outcome {use : NameUse} (named : isIdentifier name)
    (outcome : Outcome env name use result) (seen : Text) :
    (result.reverse ++ seen).head?.any isIdentChar := by
  have valued : isIdentifier valueName := by decide
  cases outcome with
  | same => exact head?_reverse_name named seen
  | special listed => exact head?_reverse_name (isIdentifier_of_special listed) seen
  | input => simpa using head?_reverse_name named ('.' :: (propsName.reverse ++ seen))
  | inputShorthand =>
    simpa using head?_reverse_name named
      ('.' :: (propsName.reverse ++ ' ' :: ':' :: (name.reverse ++ seen)))
  | reference => simpa using head?_reverse_name valued ('.' :: (name.reverse ++ seen))
  | referenceShorthand =>
    simpa using head?_reverse_name valued
      ('.' :: (name.reverse ++ ' ' :: ':' :: (name.reverse ++ seen)))

theorem Survives.onward (h : Survives env places next rest) (settled : Settled next)
    (word₁ : next.seen.head?.any isIdentChar) (word₂ : seen.head?.any isIdentChar)
    (inside : arrowPlaces env next.seen.reverse seen.reverse (segmentsFrom next rest) ⊆ places) :
    Onward env places next.frames seen (qualifiedFrom env next rest) := by
  rintro s frames settled₂ rfl
  exact h s (Settled.alike frames.symm settled settled₂ word₁ word₂) inside

theorem SurvivesInNumber.onward (h : SurvivesInNumber env places next rest) (settled : Settled next)
    (word₁ : next.seen.head?.any isIdentChar) (word₂ : seen.head?.any isIdentChar)
    (inside : arrowPlaces env next.seen.reverse seen.reverse (segmentsFrom next rest) ⊆ places) :
    OnwardInNumber env places next.frames seen (qualifiedFrom env next rest) := by
  rintro s frames settled₂ rfl
  exact h s (Settled.alike frames.symm settled settled₂ word₁ word₂) settled settled₂ inside

theorem placeBefore_of_settled (settled : Settled s) (rest : Text) :
    placeBefore s rest = .operand := by
  have opened := settled.previous '{' (by decide)
  have parted := settled.previous ',' (by decide)
  simp [placeBefore, opened, parted]

theorem survives_name (fresh : Unreserved env.names) (named : isIdentifier name)
    (ended : after.head?.any isIdentChar = false) (later : ∀ next, Survives env places next after)
    (laterIn : ∀ next, SurvivesInNumber env places next after) (s₁ : Scan) :
    Survives env places s₁ (name ++ after) ∧ SurvivesInNumber env places s₁ (name ++ after) := by
  obtain ⟨use, next, reads, uses, frames, settled⟩ := reads_name s₁ named ended
  have outcome := outcome_qualifiedName env name use
  have endedAgain := @ended_qualifiedFrom after env ended next
  have becomes : qualifiedFrom env s₁ (name ++ after) =
      qualifiedName env name use ++ qualifiedFrom env next after := by
    rw [reads.qualifiedFrom, qualified_name]
  have word : next.seen.head?.any isIdentChar := by
    rw [reads.seen]
    exact head?_reverse_name named s₁.seen
  have wordAgain (seen : Text) := word_of_outcome named outcome seen
  have survives : Survives env places s₁ (name ++ after) := by
    intro s₂ alike inside
    obtain ⟨bound, within⟩ := reads.arrowPlaces inside
    rw [qualified_name] at within
    have onward := (later next).onward settled word (wordAgain s₂.seen) within
    rw [frames, alike.frames] at onward
    have place := @placeBefore_qualifiedFrom env s₁ s₂ alike.toAgree next after
    rw [becomes]
    apply holds_outcome fresh named endedAgain outcome (place.trans uses.place.symm) ?_ onward
    -- The name stayed. A member name is one again and an arrow's name is excused; a free name is
    -- used the same way again, because place and `.value` can be seen in the new text too.
    intro same use₂ uses₂
    cases member : isMemberAfter s₁.seen with
    | true =>
      have memberAgain : isMemberAfter s₂.seen := (alike.seen []).symm.trans member
      exact keeps_name (qualifiedName_of_isBound (uses₂.member memberAgain))
    | false =>
      cases free : use.isBound with
      | true => exact .inl (bound free member)
      | false =>
        have unwrapped : use₂.isUnwrapped = use.isUnwrapped := by
          rw [uses₂.unwrapped, uses.unwrapped, startsUnwrapping_qualifiedFrom word]
        have placed : use₂.place = use.place := by
          rw [uses₂.place, uses.place, place]
        exact keeps_name (qualifiedName_congr free same placed unwrapped)
  refine ⟨survives, ?_⟩
  intro s₂ alike settled₁ settled₂ inside
  have holds := survives s₂ alike inside
  obtain ⟨-, within⟩ := reads.arrowPlaces inside
  rw [qualified_name] at within
  have onward := (later next).onward settled word (wordAgain s₂.seen) within
  have onwardIn := (laterIn next).onward settled word (wordAgain s₂.seen) within
  rw [frames, alike.frames] at onward onwardIn
  have place : use.place ≠ .shorthand := by
    rw [uses.place, placeBefore_of_settled settled₁]
    decide
  rw [becomes] at holds ⊢
  exact inNumber_outcome settled₂ named endedAgain outcome place holds onward onwardIn

theorem survives_number (digit : c.isDigit)
    (inNumber : ∀ d ∈ run, isNumberChar d) (ended : after.head?.any isNumberChar = false)
    (laterIn : ∀ next, SurvivesInNumber env places next after) (s₁ : Scan) :
    Survives env places s₁ (c :: (run ++ after)) := by
  intro s₂ alike inside
  have reads := reads_number s₁ digit inNumber ended
  rw [reads.qualifiedFrom]
  apply holds_digit digit
  refine (holdsInNumber_append inNumber _).2 ?_
  have settled (s : Scan) (seen : Text) := (settled_mark s (c := '0') (by decide)).withSeen seen
  refine laterIn _ _ ?_ ?_ ?_ ?_
  · simpa using alike.read (alike.mark '0') (c :: run).reverse
  · exact settled s₁ _
  · exact settled s₂ _
  · simpa using (reads.arrowPlaces inside).2

theorem survivesInNumber_number (digit : c.isDigit)
    (inNumber : ∀ d ∈ run, isNumberChar d) (ended : after.head?.any isNumberChar = false)
    (laterIn : ∀ next, SurvivesInNumber env places next after) (s₁ : Scan) :
    SurvivesInNumber env places s₁ (c :: (run ++ after)) := by
  intro s₂ alike settled₁ settled₂ inside
  have reads := reads_number s₁ digit inNumber ended
  have taken : ∀ d ∈ c :: run, isNumberChar d := by
    rintro d (_ | ⟨_, member⟩)
    · simp [isNumberChar, Char.isAlphanum, digit]
    · exact inNumber d member
  rw [reads.qualifiedFrom]
  refine (holdsInNumber_append taken _).2 ?_
  have settled := settled_mark s₁ (c := '0') (by decide)
  have agree : Agree (s₁.mark '0') s₂ := Settled.agree alike.frames settled settled₂
  exact laterIn _ _ (alike.read agree (c :: run).reverse) (settled.withSeen _) (settled₂.withSeen _)
    (reads.arrowPlaces inside).2

theorem survives_copied (start : isIdentStart c = false) (digit : c.isDigit = false)
    (later : ∀ body after, rest = body ++ after → ∀ next, Survives env places next after)
    (s₁ : Scan) : Survives env places s₁ (c :: rest) := by
  intro s₂ alike inside
  obtain ⟨body, after, next, rfl, copies⟩ := exists_copies s₁ start digit rest
  have reads := reads_of_step copies.step
  obtain ⟨next₂, stepped, agree⟩ := copies.again alike.toAgree (follows_qualifiedFrom _ after)
  rw [reads.qualifiedFrom]
  refine (reads_of_step stepped).holds (keeps_copied _ _) ?_
  exact later body after rfl _ _ (alike.read agree _) (reads.arrowPlaces inside).2

theorem survivesInNumber_copied (start : isIdentStart c = false)
    (digit : c.isDigit = false) {s₁ : Scan} (survives : Survives env places s₁ (c :: rest))
    (laterIn : ∀ next, SurvivesInNumber env places next rest) :
    SurvivesInNumber env places s₁ (c :: rest) := by
  intro s₂ alike settled₁ settled₂ inside
  by_cases dot : c = '.'
  · subst dot
    have reads := reads_mark (c := '.') (by decide) (by decide) (by decide) (by decide) s₁ rest
    have taken : ∀ d ∈ ['.'], isNumberChar d := all_eq_true.1 rfl
    rw [reads.qualifiedFrom]
    refine (holdsInNumber_append taken _).2 ?_
    have settled := settled_mark s₁ (c := '.') (by decide)
    have agree : Agree (s₁.mark '.') s₂ := Settled.agree alike.frames settled settled₂
    exact laterIn _ _ (alike.read agree ['.']) (settled.withSeen _) (settled₂.withSeen _)
      (reads.arrowPlaces inside).2
  · have stops : (qualifiedFrom env s₁ (c :: rest)).head?.any isNumberChar = false := by
      rw [head?_qualifiedFrom start]
      cases inNumber : isNumberChar c with
      | false => exact inNumber
      | true =>
        rcases isNumberChar_or inNumber with starts | digits | dotted
        · rw [start] at starts
          cases starts
        · rw [digit] at digits
          cases digits
        · exact absurd dotted dot
    exact holdsInNumber_of_head? stops (survives s₂ alike inside)

theorem survives (fresh : Unreserved env.names)
    (t : Text) (s : Scan) : Survives env places s t ∧ SurvivesInNumber env places s t := by
  induction t using scan_induction generalizing s with
  | nil =>
    refine ⟨fun s₂ _ _ => ?_, fun s₂ _ _ _ _ => ?_⟩
    · rw [qualifiedFrom_nil]
      exact holds_nil s₂
    · rw [qualifiedFrom_nil]
      exact holds_nil _
  | name name after named ended ih =>
    exact survives_name fresh named ended (fun next => (ih next).1) (fun next => (ih next).2) s
  | number c run after digit inNumber ended ih =>
    exact ⟨survives_number digit inNumber ended (fun next => (ih next).2) s,
      survivesInNumber_number digit inNumber ended (fun next => (ih next).2) s⟩
  | copied c rest start digit ih =>
    have first := survives_copied start digit
      (fun body after whole next => (ih body after whole next).1) s
    exact ⟨first, survivesInNumber_copied start digit first fun next => (ih [] rest rfl next).2⟩

end Again

section Fixed

variable {env : Environment}

theorem placeBefore_colon_ne (s : Scan) (more : Text) :
    placeBefore s (':' :: more) ≠ .shorthand := by
  intro place
  rw [placeBefore_colon place more] at place
  cases place

theorem outcome_eq_name (fresh : Unreserved env.names) {next : Scan} {use : NameUse}
    (named : isIdentifier name) (ended : after.head?.any isIdentChar = false)
    (uses : Uses s after use) (outcome : Outcome env name use result)
    (fixed : result ++ qualifiedFrom env next after = name ++ after) : result = name := by
  have endedAgain := @ended_qualifiedFrom after env ended next
  cases outcome with
  | same => rfl
  | special listed =>
    have word := takeWhile_name (isIdentifier_of_special listed) endedAgain
    rw [fixed, takeWhile_name named ended] at word
    exact word.symm
  | input listed =>
    have word : (propsName ++ '.' :: name ++ qualifiedFrom env next after).takeWhile
        isIdentChar = propsName := by
      rw [append_assoc]
      exact takeWhile_name (by decide) rfl
    rw [fixed, takeWhile_name named ended] at word
    subst word
    have reserved := fresh (['$', 'p', 'r', 'o', 'p', 's'], propsName) (by decide)
    exact absurd (mem_append_right _ listed) reserved
  | inputShorthand shorthand free =>
    rw [append_assoc, append_cancel_left_eq] at fixed
    rw [uses.place, ← fixed] at shorthand
    exact absurd shorthand (placeBefore_colon_ne s _)
  | reference wrapped free other =>
    rw [append_assoc, append_cancel_left_eq] at fixed
    have unwrapped := startsUnwrapping_value endedAgain
    rw [uses.unwrapped, ← fixed] at wrapped
    exact absurd (unwrapped.symm.trans wrapped) (by decide)
  | referenceShorthand shorthand free other =>
    rw [append_assoc, append_cancel_left_eq] at fixed
    rw [uses.place, ← fixed] at shorthand
    exact absurd shorthand (placeBefore_colon_ne s _)

theorem qualified_eq_text_of_fixed (fresh : Unreserved env.names) (t : Text) (s : Scan)
    (fixed : qualifiedFrom env s t = t) :
    ∀ segment ∈ segmentsFrom s t, segment.qualified env = segment.text := by
  have onward {segment : Segment} {s next : Scan} {t after : Text}
      (fixed : qualifiedFrom env s t = t) (reads : Reads s t segment next after)
      (same : segment.qualified env = segment.text)
      (ih : qualifiedFrom env next after = after →
        ∀ segment ∈ segmentsFrom next after, segment.qualified env = segment.text) :
      ∀ segment ∈ segmentsFrom s t, segment.qualified env = segment.text := by
    rw [reads.segments]
    refine forall_mem_cons.2 ⟨same, ih ?_⟩
    rw [reads.qualifiedFrom, same] at fixed
    exact append_cancel_left (fixed.trans reads.text)
  induction t using scan_induction generalizing s with
  | nil =>
    rw [segmentsFrom]
    intro segment member
    cases member
  | name name after named ended ih =>
    obtain ⟨use, next, reads, uses, -⟩ := reads_name s named ended
    have whole := fixed
    rw [reads.qualifiedFrom, qualified_name] at whole
    have same := outcome_eq_name fresh named ended uses (outcome_qualifiedName env name use) whole
    exact onward fixed reads ((qualified_name name use).trans same) (ih next)
  | number c run after digit inNumber ended ih =>
    exact onward fixed (reads_number s digit inNumber ended) rfl (ih _)
  | copied c rest start digit ih =>
    obtain ⟨body, after, next, rfl, copies⟩ := exists_copies s start digit rest
    exact onward fixed (reads_of_step copies.step) rfl (ih body after rfl _)

end Fixed

theorem mem_of_mem_occurrences {place : Text × Segment}
    (inside : place ∈ occurrences before items) : place.2 ∈ items := by
  induction items generalizing before with
  | nil => cases inside
  | cons segment items ih =>
    rcases mem_cons.1 inside with rfl | inside
    · exact mem_cons_self
    · exact mem_cons_of_mem _ (ih inside)

theorem exists_mem_occurrences (inside : segment ∈ items) (before : Text) :
    ∃ earlier, (earlier, segment) ∈ occurrences before items := by
  induction items generalizing before with
  | nil => cases inside
  | cons first items ih =>
    rcases mem_cons.1 inside with rfl | inside
    · exact ⟨before, mem_cons_self⟩
    · obtain ⟨earlier, member⟩ := ih inside (before ++ first.text)
      exact ⟨earlier, mem_cons_of_mem _ member⟩

/-- Qualifying an expression twice gives the same as qualifying it once exactly when no name of the
new text changes again at one of two kinds of places: where the expression had a name that an arrow
function bound, and directly after a character of a word, that is, behind a number. -/
theorem qualify_qualify_iff (env : Environment) (expression : Text) (found foundAgain : Findings)
    (fresh : Unreserved env.names) :
    (qualify (qualify expression env found).1 env foundAgain).1 = (qualify expression env found).1 ↔
      ∀ place ∈ occurrences [] (segments (qualify expression env found).1),
        place.1 ∈ arrowPlaces env [] [] (segments expression) ∨
            place.1.getLast?.any Text.isIdentChar = true →
          place.2.qualified env = place.2.text := by
  rw [qualify_text, qualify_text]
  constructor
  · intro fixed place inside _
    exact qualified_eq_text_of_fixed fresh _ {} fixed _ (mem_of_mem_occurrences inside)
  · intro excused
    have alike : Alike {} {} := ⟨⟨rfl, rfl, fun _ _ => Iff.rfl⟩, fun _ => rfl⟩
    have holds := (survives fresh expression {}).1 {} alike (List.Subset.refl _)
    have each : ∀ segment ∈ segments (qualifiedFrom env {} expression),
        segment.qualified env = segment.text := by
      intro segment inside
      obtain ⟨before, member⟩ := exists_mem_occurrences inside []
      rcases holds _ member with bound | word | same
      · exact excused _ member (.inl bound)
      · exact excused _ member (.inr word)
      · exact same
    calc qualifiedFrom env {} (qualifiedFrom env {} expression)
        = (segments (qualifiedFrom env {} expression)).flatMap (·.text) := by
          rw [flatMap_def, ← map_congr_left each, ← flatMap_def]
          rfl
      _ = qualifiedFrom env {} expression := flatMap_segmentsFrom {} _

def counterEnvironment : Environment where
  source := []
  names := ⟨["a", "count", "id"], ["label"]⟩
  classes := {}
  tool := "tool"

theorem qualify_qualify_counter :
    (qualify (qualify "list.map(id => (\x7b label, count, id \x7d))" counterEnvironment {}).1
        counterEnvironment {}).1 =
      (qualify "list.map(id => (\x7b label, count, id \x7d))" counterEnvironment {}).1 :=
  (qualify_qualify_iff counterEnvironment _ {} {} (by decide)).2 (by decide +kernel)

/-- The scan takes `id` as the name that the parameter binds, and no name once the braces hold a
colon of their own. -/
theorem qualify_qualify_typedParameter :
    Unreserved counterEnvironment.names ∧
      (qualify "(\x7ba\x7d:id=\x7b\x7d)=>id" counterEnvironment {}).1 =
        "(\x7ba: a.value\x7d:id=\x7b\x7d)=>id".toList ∧
      (qualify (qualify "(\x7ba\x7d:id=\x7b\x7d)=>id" counterEnvironment {}).1
          counterEnvironment {}).1 =
        "(\x7ba: a.value\x7d:id.value=\x7b\x7d)=>id.value".toList ∧
      (qualify (qualify "(\x7ba\x7d:id=\x7b\x7d)=>id" counterEnvironment {}).1
          counterEnvironment {}).1 ≠
        (qualify "(\x7ba\x7d:id=\x7b\x7d)=>id" counterEnvironment {}).1 := by
  decide +kernel

/-- The number takes the dots that made `a` a parameter of the arrow. -/
example :
    let env : Environment := { source := [], names := ⟨["a"], []⟩, classes := {}, tool := [] }
    (qualify "1$props...a=>a" env {}).1 = "1props...a=>a".toList ∧
      (qualify "1props...a=>a" env {}).1 = "1props...a=>a.value".toList := by
  decide +kernel

end SfcJsx.Expression
