import SfcJsx.Proofs.SegmentReading

/-!
Expressions whose brackets match and which end outside every literal. What is open is followed one
character at a time, apart from the scan; the brackets that the scan has open tell the same.
-/

namespace SfcJsx.Expression

open List Code

inductive Level where
  | bracket (closing : Char)
  | quote (mark : Char)
  | template
  /-- The next character is taken along. -/
  | escape
  deriving DecidableEq, Repr

variable {c mark : Char} {rest t : Text} {frames : List Frame} {opened : List Level}

/-- What is open after one more character of code. There is none after a bracket that closes
another one than the innermost. -/
def openInCode (opened : List Level) (c : Char) : Option (List Level) :=
  if c = '\'' ∨ c = '"' then some (.quote c :: opened)
  else if c = '`' then some (.template :: opened)
  else if c = '(' then some (.bracket ')' :: opened)
  else if c = '[' then some (.bracket ']' :: opened)
  else if c = '{' then some (.bracket '}' :: opened)
  else if c = ')' ∨ c = ']' ∨ c = '}' then
    if opened.head? = some (.bracket c) then some opened.tail else none
  else some opened

/-- What is open after `c`, innermost first, when `following` is the next character. -/
def openStep (opened : List Level) (c : Char) (following : Option Char) : Option (List Level) :=
  match opened with
  | .escape :: outer => some outer
  | .quote mark :: outer =>
    if c = '\\' then some (.escape :: opened)
    else if c = mark ∨ c = '\n' then some outer
    else some opened
  | .template :: outer =>
    if c = '\\' then some (.escape :: opened)
    else if c = '`' then some outer
    else if c = '$' ∧ following = some '{' then some (.escape :: .bracket '}' :: opened)
    else some opened
  | _ => openInCode opened c

def openAfter (opened : List Level) : Text → Option (List Level)
  | [] => some opened
  | c :: rest => (openStep opened c rest.head?).bind fun opened => openAfter opened rest

/-- Whether the brackets of an expression match and it ends outside every literal. -/
def IsBalanced (t : Text) : Prop := openAfter [] t = some []

instance (t : Text) : Decidable (IsBalanced t) :=
  inferInstanceAs (Decidable (openAfter [] t = some []))

def Frame.levels : Frame → List Level
  | object => [.bracket '}']
  | block => [.bracket '}']
  | paren => [.bracket ')']
  | square => [.bracket ']']
  | substitution => [.bracket '}', .template]

def levelsOf (frames : List Frame) : List Level := frames.flatMap Frame.levels

/-- Whether the rest of an expression closes the brackets that are open, and nothing else. -/
def Closes (frames : List Frame) (t : Text) : Prop := openAfter (levelsOf frames) t = some []

theorem openStep_levelsOf (frames : List Frame) (c : Char) (following : Option Char) :
    openStep (levelsOf frames) c following = openInCode (levelsOf frames) c := by
  cases frames with
  | nil => rfl
  | cons frame frames => cases frame <;> rfl

theorem openInCode_of_not_mem (plain : c ∉ delimiters) (opened : List Level) :
    openInCode opened c = some opened := by
  simp only [delimiters, mem_cons, not_mem_nil, or_false, not_or] at plain
  obtain ⟨h₁, h₂, h₃, h₄, h₅, h₆, h₇, h₈, h₉⟩ := plain
  simp only [openInCode, h₁, h₂, h₃, h₄, h₅, h₆, h₇, h₈, h₉, or_false, if_false]

theorem closes_cons_iff :
    Closes frames (c :: rest) ↔
      (openInCode (levelsOf frames) c).bind (fun opened => openAfter opened rest) = some [] := by
  rw [Closes, openAfter, openStep_levelsOf]

theorem closes_append_iff {run : Text} (plain : ∀ c ∈ run, c ∉ delimiters) (rest : Text) :
    Closes frames (run ++ rest) ↔ Closes frames rest := by
  induction run with
  | nil => rfl
  | cons c run ih =>
    have first : c ∉ delimiters := plain c (by simp)
    rw [cons_append, closes_cons_iff, openInCode_of_not_mem first]
    exact ih (forall_mem_cons.1 plain).2

theorem Closes.frames_eq_nil (closes : Closes frames t) (blank : t.trimStart = []) :
    frames = [] := by
  have all : ∀ c ∈ t, c ∉ delimiters := by
    intro c member
    rw [← Text.leadingBlanks_append_trimStart t, blank, append_nil] at member
    exact Text.not_mem_of_any (all_eq_true.1 all_takeWhile c member) (by decide)
  rw [← append_nil t, closes_append_iff all, Closes, openAfter] at closes
  cases frames with
  | nil => rfl
  | cons frame frames => cases frame <;> cases closes

theorem Closes.tail (closing : c = '}' ∨ c = ')' ∨ c = ']') (closes : Closes frames (c :: rest)) :
    if c = '}' ∧ frames.head? = some .substitution then
      openAfter (.template :: levelsOf frames.tail) rest = some []
    else Closes frames.tail rest := by
  cases frames with
  | nil => rcases closing with rfl | rfl | rfl <;> cases closes
  | cons frame frames =>
    cases frame <;> rcases closing with rfl | rfl | rfl <;> first | exact closes | cases closes

theorem openStep_in_quote (quoted : mark = '\'' ∨ mark = '"')
    (escaped : ∀ d tail, c = '\\' → rest = d :: tail → False) (other : c ≠ mark)
    (broken : ¬ (c = '\n' ∧ mark ≠ '`'))
    (closes : openAfter (.quote mark :: opened) (c :: rest) = some []) :
    c ≠ '\\' ∧ ∀ following,
      openStep (.quote mark :: opened) c following = some (.quote mark :: opened) := by
  have goes : c ≠ '\\' := by
    rintro rfl
    cases rest with
    | nil => cases closes
    | cons d rest => exact escaped d rest rfl rfl
  have ends : ¬ (c = mark ∨ c = '\n') := by
    rintro (same | rfl)
    · exact other same
    · rcases quoted with rfl | rfl <;> exact broken ⟨rfl, by decide⟩
  exact ⟨goes, fun following => by simp [openStep, goes, ends]⟩

theorem closes_literalTail (quoted : mark = '\'' ∨ mark = '"')
    (closes : openAfter (.quote mark :: levelsOf frames) t = some []) (tail : Text) :
    Closes frames (literalTail mark t).2 ∧
      literalTail mark (t ++ tail) =
        ((literalTail mark t).1, (literalTail mark t).2 ++ tail) := by
  have unlike : mark ≠ '\\' := by rcases quoted with rfl | rfl <;> decide
  fun_induction literalTail mark t with
  | case1 => cases closes
  | case2 c rest body after h ih =>
    rw [h] at ih
    have inner : openAfter (.quote mark :: levelsOf frames) rest = some [] := closes
    obtain ⟨closed, same⟩ := ih inner
    refine ⟨closed, ?_⟩
    simp only [cons_append, literalTail, same]
  | case3 rest escaped =>
    refine ⟨?_, ?_⟩
    · simpa [Closes, openAfter, openStep, unlike] using closes
    · rw [cons_append, literalTail, if_pos rfl]
      intro _ _ backslash _
      exact unlike backslash
  | case4 c rest escaped other broken =>
    obtain ⟨rfl, -⟩ := broken
    refine ⟨?_, ?_⟩
    · have plain : ∀ c ∈ ['\n'], c ∉ delimiters := forall_mem_singleton.2 (by decide)
      rw [← singleton_append, closes_append_iff plain]
      simpa [Closes, openAfter, openStep] using closes
    · rw [cons_append, literalTail]
      · rcases quoted with rfl | rfl <;> rfl
      · intro _ _ backslash _
        exact absurd backslash (by decide)
  | case5 c rest escaped other broken body after h ih =>
    rw [h] at ih
    obtain ⟨goes, stays⟩ := openStep_in_quote quoted escaped other broken closes
    rw [openAfter, stays] at closes
    obtain ⟨closed, same⟩ := ih closes
    refine ⟨closed, ?_⟩
    rw [cons_append, literalTail, if_neg other, if_neg broken, same]
    intro _ _ backslash _
    exact goes backslash

def framesAfterText (opens : Bool) (frames : List Frame) : List Frame :=
  if opens then .substitution :: frames else frames

theorem openStep_in_template (escaped : ∀ d tail, c = '\\' → rest = d :: tail → False)
    (other : c ≠ '`') (plain : ∀ tail, c = '$' → rest = '{' :: tail → False)
    (closes : openAfter (.template :: opened) (c :: rest) = some []) :
    c ≠ '\\' ∧ openStep (.template :: opened) c rest.head? = some (.template :: opened) := by
  have goes : c ≠ '\\' := by
    rintro rfl
    cases rest with
    | nil => cases closes
    | cons d rest => exact escaped d rest rfl rfl
  have inText : ¬ (c = '$' ∧ rest.head? = some '{') := by
    rintro ⟨dollar, first⟩
    obtain ⟨tail, rfl⟩ := head?_eq_some_iff.1 first
    exact plain tail dollar rfl
  exact ⟨goes, by simp [openStep, goes, other, inText]⟩

theorem closes_templateText (closes : openAfter (.template :: levelsOf frames) t = some [])
    (tail : Text) :
    Closes (framesAfterText (templateText t).2 frames) (t.drop (templateText t).1) ∧
      templateText (t ++ tail) = templateText t := by
  fun_induction templateText t with
  | case1 => cases closes
  | case2 c rest n opens h ih =>
    rw [h] at ih
    have inner : openAfter (.template :: levelsOf frames) rest = some [] := closes
    obtain ⟨closed, same⟩ := ih inner
    refine ⟨closed, ?_⟩
    simp only [cons_append, templateText, same]
  | case3 rest => exact ⟨closes, rfl⟩
  | case4 rest => exact ⟨closes, rfl⟩
  | case5 c rest escaped closed opened n opens h ih =>
    rw [h] at ih
    obtain ⟨goes, stays⟩ := openStep_in_template escaped closed opened closes
    rw [openAfter, stays] at closes
    have further : rest ≠ [] := by
      rintro rfl
      cases closes
    obtain ⟨ends, same⟩ := ih closes
    refine ⟨ends, ?_⟩
    rw [cons_append, templateText, same]
    · intro _ _ backslash _
      exact goes backslash
    · exact closed
    · intro more dollar whole
      cases rest with
      | nil => exact further rfl
      | cons d rest =>
        cases whole
        exact opened rest dollar rfl

end SfcJsx.Expression
