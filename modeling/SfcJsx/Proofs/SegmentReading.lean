import SfcJsx.Expression.Segment
import SfcJsx.Proofs.Identifiers
import SfcJsx.Proofs.PieceCut

/-!
One step of the scan, by the kind of character it starts at: a name, a number, or text that is
copied. What the scan takes from its past is small: the open brackets, whether it stands after an
arrow, and the dots and blanks just before the place.
-/

namespace SfcJsx.Expression

open List Text Code

variable {rest t seen after run : Text} {s : Scan} {c : Char}

def isMemberAfter (seen : Text) : Bool :=
  let before := seen.dropWhile isBlank
  startsWith before "." && !startsWith before "..."

theorem isMemberAfter_append_of_head? (first : seen.head? ≠ some '.')
    (solid : (seen.dropWhile isBlank).head? ≠ some '.') (more : Text) :
    isMemberAfter (more ++ seen) = isMemberAfter more := by
  have unlike {t : Text} (head : t.head? ≠ some '.') (rest : Text) :
      after? ('.' :: rest) t = none := by
    cases t with
    | nil => rfl
    | cons c t =>
      have other : '.' ≠ c := fun same => head (by rw [same]; rfl)
      rw [after?, if_neg other]
  induction more with
  | nil => simp [isMemberAfter, startsWith, after?, unlike solid]
  | cons d more ih =>
    cases blank : isBlank d with
    | true => simpa [isMemberAfter, blank] using ih
    | false =>
      by_cases dot : '.' = d
      · subst dot
        -- Three dots in a row are no member access, so two more characters decide.
        cases more with
        | nil => simp [isMemberAfter, blank, startsWith, after?, unlike first]
        | cons e more =>
          cases more with
          | nil => simp [isMemberAfter, blank, startsWith, after?, unlike first]
          | cons f more =>
            simp [isMemberAfter, blank, startsWith, after?, apply_ite Option.isNone]
      · simp [isMemberAfter, blank, startsWith, after?, dot]

theorem isMemberAfter_append (word : seen.head?.any isIdentChar) (more : Text) :
    isMemberAfter (more ++ seen) = isMemberAfter more := by
  cases seen with
  | nil => cases word
  | cons c before =>
    have inName : isIdentChar c := word
    have other : c ≠ '.' := by
      rintro rfl
      exact absurd inName (by decide)
    have solid := isBlank_eq_false inName
    apply isMemberAfter_append_of_head?
    · simpa using other
    · simpa [solid] using other

theorem isMemberAfter_dot (word : seen.head?.any isIdentChar) : isMemberAfter ('.' :: seen) := by
  rw [← singleton_append, isMemberAfter_append word ['.']]
  decide

def placeBefore (s : Scan) (rest : Text) : Place :=
  let next := rest.trimStart
  let inObject := s.frames.head? == some .object &&
    (s.previous == some '{' || s.previous == some ',')
  if inObject && next.head? == some ':' then .key
  else if inObject && (next.head? == some ',' || next.head? == some '}') then .shorthand
  else .operand

def valueName : Text := ['v', 'a', 'l', 'u', 'e']

def startsUnwrapping (rest : Text) : Bool :=
  match after? ".value" rest with
  | some after => !after.head?.any isIdentChar
  | none => false

theorem startsUnwrapping_iff : startsUnwrapping rest ↔
    ∃ more, rest = '.' :: more ∧ more.takeWhile isIdentChar = valueName := by
  have named : isIdentifier valueName := by decide
  unfold startsUnwrapping
  constructor
  · intro h
    cases found : after? ".value" rest with
    | none => rw [found] at h; cases h
    | some after =>
      rw [found] at h
      refine ⟨valueName ++ after, after?_eq_some_iff.1 found, ?_⟩
      exact takeWhile_name named (by simpa using h)
  · rintro ⟨more, rfl, word⟩
    have whole : more = valueName ++ more.dropWhile isIdentChar := by
      rw [← word, takeWhile_append_dropWhile]
    have found : after? ".value" ('.' :: more) =
        some (more.dropWhile isIdentChar) :=
      after?_eq_some_iff.2 (congrArg ('.' :: ·) whole)
    rw [found]
    simpa using head?_dropWhile isIdentChar more

/-- What the use of a name takes from its surroundings, arrows apart. -/
structure Uses (s : Scan) (rest : Text) (use : NameUse) : Prop where
  place : use.place = placeBefore s rest
  unwrapped : use.isUnwrapped = startsUnwrapping rest
  member : isMemberAfter s.seen → use.isBound

theorem uses_nameUse (s : Scan) (name rest : Text) : Uses s rest (nameUse s name rest).1 := by
  unfold nameUse
  dsimp only
  split
  · exact ⟨rfl, rfl, fun _ => rfl⟩
  · refine ⟨rfl, rfl, ?_⟩
    intro member
    exact Bool.or_eq_true_iff.2 (.inl member)

theorem nameUse_scan (s : Scan) (name rest : Text) :
    ∃ arrows, (nameUse s name rest).2 = { s with arrows := arrows } := by
  unfold nameUse
  dsimp only
  split
  · exact ⟨_, rfl⟩
  · exact ⟨s.arrows, rfl⟩

/-- The scan reads `segment` first and goes on in `next` with `rest`. -/
structure Reads (s : Scan) (t : Text) (segment : Segment) (next : Scan) (rest : Text) : Prop where
  segments : segmentsFrom s t = segment :: segmentsFrom next rest
  seen : next.seen = segment.text.reverse ++ s.seen
  text : t = segment.text ++ rest

theorem reads_of_step {body after : Text} {use : Option NameUse}
    {next : Scan} (stepped : step s c (body ++ after) = (body.length, use, next)) :
    Reads s (c :: (body ++ after)) ⟨c :: body, use⟩
      { next with seen := (c :: body).reverse ++ s.seen } after := by
  refine ⟨?_, rfl, rfl⟩
  rw [segmentsFrom, stepped]
  simp

def turningChars : Text := ['=', '{', ',']

/-- Two scans that tell the same of brackets. -/
structure Agree (s₁ s₂ : Scan) : Prop where
  frames : s₁.frames = s₂.frames
  afterArrow : s₁.afterArrow = s₂.afterArrow
  previous : ∀ c ∈ turningChars, s₁.previous = some c ↔ s₂.previous = some c

/-- Two scans that tell the same of brackets and of member names. -/
structure Alike (s₁ s₂ : Scan) : Prop extends Agree s₁ s₂ where
  seen : ∀ more, isMemberAfter (more ++ s₁.seen) = isMemberAfter (more ++ s₂.seen)

/-- A scan that stands neither after an arrow nor where an object may have a key. -/
structure Settled (s : Scan) : Prop where
  afterArrow : s.afterArrow = false
  previous : ∀ c ∈ turningChars, s.previous ≠ some c

theorem Settled.agree {s₁ s₂ : Scan} (frames : s₁.frames = s₂.frames) (h₁ : Settled s₁)
    (h₂ : Settled s₂) : Agree s₁ s₂ where
  frames := frames
  afterArrow := h₁.afterArrow.trans h₂.afterArrow.symm
  previous c turning := iff_of_false (h₁.previous c turning) (h₂.previous c turning)

theorem Settled.alike {s₁ s₂ : Scan} (frames : s₁.frames = s₂.frames) (h₁ : Settled s₁)
    (h₂ : Settled s₂) (word₁ : s₁.seen.head?.any isIdentChar)
    (word₂ : s₂.seen.head?.any isIdentChar) : Alike s₁ s₂ where
  toAgree := Settled.agree frames h₁ h₂
  seen more := by rw [isMemberAfter_append word₁, isMemberAfter_append word₂]

theorem Settled.withSeen (h : Settled s) (seen : Text) : Settled { s with seen := seen } :=
  ⟨h.afterArrow, h.previous⟩

theorem settled_mark (s : Scan) (calm : c ∉ '>' :: turningChars) : Settled (s.mark c) := by
  simp only [mem_cons, not_or] at calm
  refine ⟨by simp [Scan.mark, calm.1], ?_⟩
  rintro d turning same
  obtain rfl : c = d := by simpa [Scan.mark] using same
  exact calm.2 turning

namespace Agree

variable {s₁ s₂ : Scan}

section

variable (h : Agree s₁ s₂)

include h

theorem mark (c : Char) : Agree (s₁.mark c) (s₂.mark c) := by
  refine ⟨h.frames, ?_, fun _ _ => Iff.rfl⟩
  have equal : (s₁.previous == some '=') = (s₂.previous == some '=') := by
    rw [Bool.eq_iff_iff, beq_iff_eq, beq_iff_eq]
    exact h.previous '=' (by decide)
  simp [Scan.mark, equal]

theorem push (frame : Frame) : Agree (s₁.push frame) (s₂.push frame) :=
  ⟨congrArg (frame :: ·) h.frames, h.afterArrow, h.previous⟩

theorem enterSubstitution : Agree s₁.enterSubstitution s₂.enterSubstitution :=
  ⟨(h.push .substitution).frames, rfl, fun _ _ => Iff.rfl⟩

theorem leaveArrows : Agree s₁.leaveArrows s₂.leaveArrows := ⟨h.frames, h.afterArrow, h.previous⟩

theorem placeBefore {t₁ t₂ : Text}
    (next : ∀ d ∈ [':', ',', '}'], t₂.trimStart.head? = some d ↔ t₁.trimStart.head? = some d) :
    Expression.placeBefore s₂ t₂ = Expression.placeBefore s₁ t₁ := by
  have followed {d : Char} (member : d ∈ [':', ',', '}']) :
      (t₂.trimStart.head? == some d) = (t₁.trimStart.head? == some d) := by
    rw [Bool.eq_iff_iff, beq_iff_eq, beq_iff_eq]
    exact next d member
  have turned {d : Char} (turning : d ∈ turningChars) :
      (s₂.previous == some d) = (s₁.previous == some d) := by
    rw [Bool.eq_iff_iff, beq_iff_eq, beq_iff_eq]
    exact (h.previous d turning).symm
  have opened : '{' ∈ turningChars := by decide
  have parted : ',' ∈ turningChars := by decide
  have colon : ':' ∈ [':', ',', '}'] := by decide
  have comma : ',' ∈ [':', ',', '}'] := by decide
  have brace : '}' ∈ [':', ',', '}'] := by decide
  simp only [Expression.placeBefore, h.frames, turned opened, turned parted, followed colon,
    followed comma, followed brace]

end

end Agree

theorem Alike.read {s₁ s₂ next₁ next₂ : Scan} (h : Alike s₁ s₂) (agree : Agree next₁ next₂)
    (text : Text) :
    Alike { next₁ with seen := text ++ s₁.seen } { next₂ with seen := text ++ s₂.seen } where
  toAgree := ⟨agree.frames, agree.afterArrow, agree.previous⟩
  seen more := by simpa only [append_assoc] using h.seen (more ++ text)

/-- Whether `after` can take the place of `rest` behind a literal: the same ends and line breaks. -/
def Follows (rest after : Text) : Prop :=
  (rest = [] → after = []) ∧
    ∀ c, rest.head? = some c → isIdentStart c = false → after.head? = some c

theorem literalTail_splice {quote : Char} (follows : Follows (literalTail quote t).2 after) :
    literalTail quote ((literalTail quote t).1 ++ after) =
      ((literalTail quote t).1, after) := by
  rcases literalTail_ends quote t with closed | opens
  · exact closed.again after
  · refine opens.again after fun c head => ?_
    rcases opens.ends with none | line
    · rw [follows.1 none] at head
      cases head
    · rw [follows.2 '\n' line (by decide)] at head
      rw [line, head]

theorem templateText_pos (some : t ≠ []) : 0 < (templateText t).1 := by
  fun_induction templateText t <;> simp_all

theorem templateText_splice (follows : Follows (t.drop (templateText t).1) after) :
    templateText (t.take (templateText t).1 ++ after) = templateText t := by
  fun_induction templateText t with
  | case1 =>
    rw [follows.1 rfl]
    rfl
  | case2 c rest n opens h ih =>
    rw [h] at ih
    simp only [take_succ_cons, cons_append, templateText, ih follows]
  | case3 rest => rfl
  | case4 rest => rfl
  | case5 c rest escaped closed opened n opens h ih =>
    rw [h] at ih
    -- The text after `c` starts as it did before.
    have keeps : ∀ d tail, rest.take n ++ after = d :: tail → ∃ more, rest = d :: more := by
      intro d tail longer
      cases rest with
      | nil =>
        rw [take_nil, follows.1 (by simp)] at longer
        cases longer
      | cons e more =>
        have read : 0 < (templateText (e :: more)).1 := templateText_pos (by simp)
        obtain ⟨m, rfl⟩ : ∃ m, n = m + 1 := ⟨n - 1, by rw [h] at read; omega⟩
        obtain ⟨rfl, -⟩ : e = d ∧ _ := by simpa using longer
        exact ⟨more, rfl⟩
    rw [take_succ_cons, cons_append, templateText, ih follows]
    · rintro d tail slash longer
      obtain ⟨more, whole⟩ := keeps d tail longer
      exact escaped d more slash whole
    · exact closed
    · rintro tail dollar longer
      obtain ⟨more, whole⟩ := keeps '{' tail longer
      exact opened more dollar whole

theorem templateText_le (t : Text) : (templateText t).1 ≤ t.length := by
  fun_induction templateText t with
  | case1 => exact Nat.le_refl 0
  | case2 c rest n opens h ih =>
    rw [h] at ih
    exact Nat.add_le_add_right ih 2
  | case3 rest => exact Nat.succ_le_succ (Nat.zero_le _)
  | case4 rest => exact Nat.add_le_add_right (Nat.zero_le _) 2
  | case5 c rest _ _ _ n opens h ih =>
    rw [h] at ih
    exact Nat.succ_le_succ ih

def delimiters : Text := ['\'', '"', '`', '{', '(', '[', '}', ')', ']']

def isNumberChar (c : Char) : Bool := c.isAlphanum || c == '.' || c == '_'

theorem step_of_not_mem (plain : c ∉ delimiters) (s : Scan) (rest : Text) :
    step s c rest =
      if c.isDigit then ((rest.takeWhile isNumberChar).length, none, s.mark '0')
      else if isIdentStart c then
        let tail := rest.takeWhile isIdentChar
        let (use, s) := nameUse s (c :: tail) (rest.drop tail.length)
        (tail.length, some use, s.mark 'a')
      else if isBlank c then (0, none, s)
      else (0, none, (if c = ',' then s.leaveArrows else s).mark c) := by
  simp only [delimiters, mem_cons, not_mem_nil, or_false, not_or] at plain
  obtain ⟨h₁, h₂, h₃, h₄, h₅, h₆, h₇, h₈, h₉⟩ := plain
  simp only [step, h₁, h₂, h₃, h₄, h₅, h₆, h₇, h₈, h₉, or_false, if_false]
  rfl

theorem step_name (s : Scan) {tail : Text} (named : isIdentifier (c :: tail))
    (ended : rest.head?.any isIdentChar = false) :
    step s c (tail ++ rest) = (tail.length, some (nameUse s (c :: tail) rest).1,
      (nameUse s (c :: tail) rest).2.mark 'a') := by
  have start : isIdentStart c := by
    rw [isIdentifier, Bool.and_eq_true] at named
    exact named.1
  have whole := takeWhile_name named ended
  rw [cons_append, takeWhile_cons_of_pos (isIdentChar_of_isIdentStart start),
    cons_inj_right] at whole
  have plain : c ∉ delimiters := not_mem_of_any (isIdentChar_of_isIdentStart start) (by decide)
  rw [step_of_not_mem plain, isDigit_of_isIdentStart start, start, whole]
  simp

theorem reads_name (s : Scan) {name : Text} (named : isIdentifier name)
    (ended : rest.head?.any isIdentChar = false) :
    ∃ use next, Reads s (name ++ rest) ⟨name, some use⟩ next rest ∧ Uses s rest use ∧
      next.frames = s.frames ∧ Settled next := by
  obtain ⟨c, tail, rfl, -⟩ := exists_start named
  obtain ⟨arrows, scanned⟩ := nameUse_scan s (c :: tail) rest
  have settled := settled_mark (nameUse s (c :: tail) rest).2 (c := 'a') (by decide)
  refine ⟨_, _, reads_of_step (step_name s named ended), uses_nameUse s (c :: tail) rest, ?_,
    settled.withSeen _⟩
  rw [scanned]
  rfl

theorem step_number (s : Scan) (digit : c.isDigit)
    (inNumber : ∀ d ∈ run, isNumberChar d) (ended : rest.head?.any isNumberChar = false) :
    step s c (run ++ rest) = (run.length, none, s.mark '0') := by
  have whole := takeWhile_append inNumber ended
  have plain : c ∉ delimiters := not_mem_of_any (isIdentChar_of_isDigit digit) (by decide)
  rw [step_of_not_mem plain, if_pos digit, whole]

theorem reads_number (s : Scan) (digit : c.isDigit)
    (inNumber : ∀ d ∈ run, isNumberChar d) (ended : rest.head?.any isNumberChar = false) :
    Reads s (c :: (run ++ rest)) ⟨c :: run, none⟩
      { s.mark '0' with seen := (c :: run).reverse ++ s.seen } rest :=
  reads_of_step (step_number s digit inNumber ended)

/-- A step that copies: it reads the same text in any other scan that agrees, whatever follows. -/
structure Copies (s : Scan) (c : Char) (body after : Text) (next : Scan) : Prop where
  step : step s c (body ++ after) = (body.length, none, next)
  again : ∀ {s₂ : Scan} {other : Text}, Agree s s₂ → Follows after other →
    ∃ next₂, Expression.step s₂ c (body ++ other) = (body.length, none, next₂) ∧ Agree next next₂

theorem step_quote (quoted : c = '\'' ∨ c = '"') (s : Scan) (t : Text) :
    step s c t = ((literalTail c t).1.length, none, s.mark '"') := by
  rw [step, if_pos quoted]

theorem copies_quote (s : Scan) (quoted : c = '\'' ∨ c = '"') (rest : Text) :
    Copies s c (literalTail c rest).1 (literalTail c rest).2 (s.mark '"') := by
  refine ⟨?_, ?_⟩
  · rw [step_quote quoted, literalTail_append]
  · intro s₂ other agree follows
    refine ⟨_, ?_, agree.mark '"'⟩
    rw [step_quote quoted, literalTail_splice follows]

theorem copies_template (ends opens : Scan → Scan)
    (reads : ∀ s₂ : Scan, s.frames = s₂.frames → ∀ t, step s₂ c t =
      ((templateText t).1, none, if (templateText t).2 then opens s₂ else ends s₂))
    (ended : ∀ {s₂ : Scan}, Agree s s₂ → Agree (ends s) (ends s₂))
    (opened : ∀ {s₂ : Scan}, Agree s s₂ → Agree (opens s) (opens s₂)) :
    Copies s c (rest.take (templateText rest).1) (rest.drop (templateText rest).1)
      (if (templateText rest).2 then opens s else ends s) := by
  have counted : (rest.take (templateText rest).1).length = (templateText rest).1 :=
    length_take_of_le (templateText_le rest)
  refine ⟨?_, ?_⟩
  · rw [take_append_drop, counted, reads s rfl]
  · intro s₂ other agree follows
    refine ⟨if (templateText rest).2 then opens s₂ else ends s₂, ?_, ?_⟩
    · rw [reads s₂ agree.frames, templateText_splice follows, counted]
    · split
      · exact opened agree
      · exact ended agree

theorem copies_single (next : Scan → Text → Scan)
    (reads : ∀ s₂ : Scan, s.frames = s₂.frames → ∀ t, step s₂ c t = (0, none, next s₂ t))
    (agrees : ∀ {s₂ : Scan} (t t₂ : Text), Agree s s₂ → Agree (next s t) (next s₂ t₂))
    (rest : Text) : Copies s c [] rest (next s rest) := by
  refine ⟨reads s rfl rest, ?_⟩
  intro s₂ other agree _
  exact ⟨next s₂ other, reads s₂ agree.frames other, agrees rest other agree⟩

def Scan.close (s : Scan) : Scan := { s.leaveArrows with frames := s.frames.tail }

theorem Agree.close {s₁ s₂ : Scan} (h : Agree s₁ s₂) : Agree s₁.close s₂.close :=
  ⟨congrArg tail h.frames, h.afterArrow, h.previous⟩

theorem step_close (closing : c = '}' ∨ c = ')' ∨ c = ']') (s : Scan) (t : Text) :
    step s c t =
      if c = '}' ∧ s.frames.head? = some .substitution then
        ((templateText t).1, none, if (templateText t).2 then s.close.enterSubstitution.mark '`'
          else s.close.mark '`')
      else (0, none, s.close.mark c) := by
  rcases closing with rfl | rfl | rfl
  · rw [← apply_ite (Scan.mark · '`')]
    rfl
  · rfl
  · rfl

theorem copies_close (s : Scan) (closing : c = '}' ∨ c = ')' ∨ c = ']') (rest : Text) :
    ∃ body after next, rest = body ++ after ∧ Copies s c body after next := by
  by_cases inside : c = '}' ∧ s.frames.head? = some .substitution
  · refine ⟨_, _, _, (take_append_drop _ _).symm,
      copies_template (·.close.mark '`') (·.close.enterSubstitution.mark '`') ?_ ?_ ?_⟩
    · intro s₂ frames t
      rw [frames] at inside
      rw [step_close closing, if_pos inside]
    · exact fun agree => agree.close.mark _
    · exact fun agree => agree.close.enterSubstitution.mark _
  · refine ⟨[], rest, _, rfl, copies_single (fun s _ => s.close.mark c) ?_ ?_ rest⟩
    · intro s₂ frames t
      rw [frames] at inside
      rw [step_close closing, if_neg inside]
    · exact fun _ _ agree => agree.close.mark c

def Scan.meetParameters (s : Scan) : Option (List Text) → Scan
  | some parameters => s.enterArrow parameters
  | none => s

theorem Agree.meetParameters {s₁ s₂ : Scan} (h : Agree s₁ s₂) (p₁ p₂ : Option (List Text)) :
    Agree (s₁.meetParameters p₁) (s₂.meetParameters p₂) := by
  cases p₁ <;> cases p₂ <;> exact ⟨h.frames, h.afterArrow, h.previous⟩

theorem copies_delimiter (s : Scan) (delimiter : c ∈ delimiters) (rest : Text) :
    ∃ body after next, rest = body ++ after ∧ Copies s c body after next := by
  simp only [delimiters, mem_cons, not_mem_nil, or_false] at delimiter
  rcases delimiter with rfl | rfl | rfl | rfl | rfl | rfl | closing
  · exact ⟨_, _, _, (literalTail_append _ rest).symm, copies_quote s (.inl rfl) rest⟩
  · exact ⟨_, _, _, (literalTail_append _ rest).symm, copies_quote s (.inr rfl) rest⟩
  · refine ⟨_, _, _, (take_append_drop _ _).symm,
      copies_template (fun s => s) Scan.enterSubstitution ?_ ?_ ?_⟩
    · exact fun _ _ _ => rfl
    · exact fun agree => agree
    · exact fun agree => agree.enterSubstitution
  · refine ⟨[], rest, _, rfl, copies_single (fun s _ =>
      (s.push (if s.afterArrow then .block else .object)).mark '{') ?_ ?_ rest⟩
    · exact fun _ _ _ => rfl
    · intro s₂ _ _ agree
      rw [agree.afterArrow]
      exact (agree.push _).mark _
  · refine ⟨[], rest, _, rfl, copies_single (fun s t =>
      ((s.meetParameters (arrowParameters? ('(' :: t))).push .paren).mark '(') ?_ ?_ rest⟩
    · exact fun _ _ _ => rfl
    · intro s₂ t t₂ agree
      exact ((agree.meetParameters _ _).push _).mark _
  · refine ⟨[], rest, _, rfl, copies_single (fun s _ => (s.push .square).mark '[') ?_ ?_ rest⟩
    · exact fun _ _ _ => rfl
    · exact fun _ _ agree => (agree.push _).mark _
  · exact copies_close s closing rest

theorem step_plain (plain : c ∉ delimiters) (start : isIdentStart c = false)
    (digit : c.isDigit = false) (s : Scan) (t : Text) : step s c t = (0, none,
      if isBlank c then s else (if c = ',' then s.leaveArrows else s).mark c) := by
  rw [step_of_not_mem plain, if_neg (by simp [digit]), if_neg (by simp [start])]
  split <;> rfl

theorem reads_blank (blank : isBlank c) (s : Scan) (rest : Text) :
    Reads s (c :: rest) ⟨[c], none⟩ { s with seen := c :: s.seen } rest := by
  have other := isIdentChar_of_isBlank blank
  have plain : c ∉ delimiters := not_mem_of_any blank (by decide)
  have stepped := step_plain plain (isIdentStart_eq_false other) (isDigit_eq_false other) s rest
  rw [if_pos blank] at stepped
  exact @reads_of_step s c [] rest none _ stepped

theorem reads_mark (plain : c ∉ ',' :: delimiters) (start : isIdentStart c = false)
    (digit : c.isDigit = false) (solid : isBlank c = false) (s : Scan) (rest : Text) :
    Reads s (c :: rest) ⟨[c], none⟩ { s.mark c with seen := c :: s.seen } rest := by
  rw [mem_cons, not_or] at plain
  have stepped := step_plain plain.2 start digit s rest
  rw [if_neg (by simp [solid]), if_neg plain.1] at stepped
  exact @reads_of_step s c [] rest none _ stepped

theorem exists_copies (s : Scan) (start : isIdentStart c = false) (digit : c.isDigit = false)
    (rest : Text) : ∃ body after next, rest = body ++ after ∧ Copies s c body after next := by
  by_cases plain : c ∈ delimiters
  · exact copies_delimiter s plain rest
  · refine ⟨[], rest, _, rfl, copies_single _ (fun s₂ _ => step_plain plain start digit s₂) ?_ rest⟩
    intro s₂ _ _ agree
    split
    · exact agree
    · split
      · exact agree.leaveArrows.mark c
      · exact agree.mark c

inductive Lead : Text → Prop
  | nil : Lead []
  | name {name after : Text} (named : isIdentifier name)
      (ended : after.head?.any isIdentChar = false) : Lead (name ++ after)
  | number {c : Char} {run after : Text} (digit : c.isDigit)
      (inNumber : ∀ d ∈ run, isNumberChar d)
      (ended : after.head?.any isNumberChar = false) : Lead (c :: (run ++ after))
  | copied {c : Char} {rest : Text} (start : isIdentStart c = false)
      (digit : c.isDigit = false) : Lead (c :: rest)

theorem lead (t : Text) : Lead t := by
  cases t with
  | nil => exact .nil
  | cons c rest =>
    cases start : isIdentStart c with
    | true =>
      have named : isIdentifier (c :: rest.takeWhile isIdentChar) := by
        rw [isIdentifier, start, all_takeWhile]
        rfl
      have split := Lead.name named (head?_dropWhile isIdentChar rest)
      rwa [cons_append, takeWhile_append_dropWhile] at split
    | false =>
      cases digit : c.isDigit with
      | true =>
        have inNumber : ∀ d ∈ rest.takeWhile isNumberChar, isNumberChar d :=
          fun d => all_eq_true.1 all_takeWhile d
        have split := Lead.number digit inNumber (head?_dropWhile isNumberChar rest)
        rwa [takeWhile_append_dropWhile] at split
      | false => exact .copied start digit

/-- Induction over what a scan reads: what is copied may end anywhere. -/
theorem scan_induction {motive : Text → Prop} (nil : motive [])
    (name : ∀ name after, isIdentifier name → after.head?.any isIdentChar = false →
      motive after → motive (name ++ after))
    (number : ∀ c run after, c.isDigit → (∀ d ∈ run, isNumberChar d) →
      after.head?.any isNumberChar = false → motive after → motive (c :: (run ++ after)))
    (copied : ∀ c rest, isIdentStart c = false → c.isDigit = false →
      (∀ body after, rest = body ++ after → motive after) → motive (c :: rest)) (t : Text) :
    motive t := by
  induction length : t.length using Nat.strongRecOn generalizing t with
  | _ n ih =>
    subst length
    have later {c : Char} {body after : Text} (whole : t = c :: (body ++ after)) : motive after :=
      ih after.length (by grind) after rfl
    cases lead t with
    | nil => exact nil
    | @name word after named ended =>
      obtain ⟨c, body, rfl, -⟩ := exists_start named
      exact name _ after named ended (later rfl)
    | number digit inNumber ended => exact number _ _ _ digit inNumber ended (later rfl)
    | copied start digit =>
      exact copied _ _ start digit fun body after whole => later (congrArg _ whole)

end SfcJsx.Expression
