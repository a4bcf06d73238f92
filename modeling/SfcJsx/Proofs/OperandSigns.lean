import SfcJsx.Proofs.BalancedExpression
import SfcJsx.Proofs.QualifiedText

/-!
The signs that part an expression into operands: those of a conditional, a sequence, an assignment
and an arrow function, where no bracket and no literal is open. Punctuators are read as long as
possible, so that `??`, `?.`, `==` and `=>` are one sign or none. What the names of an expression
become has no such sign, so an expression has the same signs before and after.
-/

namespace SfcJsx.Expression

open List Text Code

variable {t : Text}

/-- A sign that binds looser than every operator inside the test of a conditional. -/
inductive Sign where
  | question
  | colon
  | comma
  | semicolon
  | assignment
  | arrow
  deriving DecidableEq, Repr

/-- A punctuator outside brackets and literals, or one character of anything else. -/
structure Lexeme where
  text : Text
  sign : Option Sign
  deriving DecidableEq, Repr

def signChars : Text :=
  ['?', ':', ',', ';', '=', '<', '>', '!', '+', '-', '*', '/', '%', '&', '|', '^', '~', '.']

/-- The punctuators that are a sign or have more than one character, longer ones first. -/
def punctuators : List Lexeme :=
  [⟨">>>=", some .assignment⟩,
    ⟨"...", none⟩, ⟨"===", none⟩, ⟨"!==", none⟩, ⟨">>>", none⟩, ⟨"**=", some .assignment⟩,
    ⟨"<<=", some .assignment⟩, ⟨">>=", some .assignment⟩, ⟨"&&=", some .assignment⟩,
    ⟨"||=", some .assignment⟩, ⟨"??=", some .assignment⟩,
    ⟨"=>", some .arrow⟩, ⟨"==", none⟩, ⟨"!=", none⟩, ⟨"<=", none⟩, ⟨">=", none⟩, ⟨"<<", none⟩,
    ⟨">>", none⟩, ⟨"**", none⟩, ⟨"++", none⟩, ⟨"--", none⟩, ⟨"&&", none⟩, ⟨"||", none⟩,
    ⟨"??", none⟩, ⟨"?.", none⟩, ⟨"+=", some .assignment⟩, ⟨"-=", some .assignment⟩,
    ⟨"*=", some .assignment⟩, ⟨"/=", some .assignment⟩, ⟨"%=", some .assignment⟩,
    ⟨"&=", some .assignment⟩, ⟨"|=", some .assignment⟩, ⟨"^=", some .assignment⟩,
    ⟨"?", some .question⟩, ⟨":", some .colon⟩, ⟨",", some .comma⟩, ⟨";", some .semicolon⟩,
    ⟨"=", some .assignment⟩]

/-- The punctuator that a run of them starts with. Before a digit, `?.` is a question mark and the
point of a number. -/
def punctuatorAt (digit : Bool) (run : Text) : Lexeme :=
  if digit && run == ['?', '.'] then ⟨"?", some .question⟩
  else (punctuators.find? fun known => run.startsWith known.text).getD ⟨run.take 1, none⟩

/-- A run of punctuators, the first `skip` characters apart; `digit` tells what comes behind. -/
def punctuate (digit : Bool) : (skip : Nat) → Text → List Lexeme
  | _, [] => []
  | skip + 1, _ :: rest => punctuate digit skip rest
  | 0, c :: rest =>
    let first := punctuatorAt digit (c :: rest)
    first :: punctuate digit (first.text.length - 1) rest

/-- A character that is no part of a punctuator. Blanks outside brackets and literals are left
out. -/
def otherLexeme (opened : List Level) (c : Char) : List Lexeme :=
  if opened.isEmpty && isBlank c then [] else [⟨[c], none⟩]

/-- The lexemes of the rest of an expression, behind a run of punctuators that may go on. -/
def lexemesFrom (opened : List Level) (run : Text) : Text → List Lexeme
  | [] => punctuate false 0 run
  | c :: rest =>
    if opened.isEmpty && signChars.contains c then lexemesFrom opened (run ++ [c]) rest
    else
      punctuate c.isDigit 0 run ++ otherLexeme opened c ++
        match openStep opened c rest.head? with
        | some opened => lexemesFrom opened [] rest
        | none => []

def lexemes (t : Text) : List Lexeme := lexemesFrom [] [] t

/-- The signs of a text outside of brackets and literals, in order. -/
def signs (t : Text) : List Sign := (lexemes t).filterMap (·.sign)

def signsFrom (opened : List Level) (run t : Text) : List Sign :=
  (lexemesFrom opened run t).filterMap (·.sign)

def signsOf (digit : Bool) (run : Text) : List Sign :=
  (punctuate digit 0 run).filterMap (·.sign)

section Step

variable {opened opened' : List Level} {c : Char} {rest : Text}

theorem lexemesFrom_sign (sign : c ∈ signChars) (run rest : Text) :
    lexemesFrom [] run (c :: rest) = lexemesFrom [] (run ++ [c]) rest := by
  have listed : signChars.contains c := contains_iff_mem.2 sign
  rw [lexemesFrom, listed]
  rfl

theorem lexemesFrom_step (inner : opened = [] → c ∉ signChars)
    (stepped : openStep opened c rest.head? = some opened') (run : Text) :
    lexemesFrom opened run (c :: rest) =
      punctuate c.isDigit 0 run ++ otherLexeme opened c ++ lexemesFrom opened' [] rest := by
  have other : ¬ (opened.isEmpty && signChars.contains c) := by
    rw [Bool.and_eq_true, List.isEmpty_iff, contains_iff_mem]
    exact fun sign => inner sign.1 sign.2
  rw [lexemesFrom, if_neg other, stepped]

theorem signsFrom_sign (sign : c ∈ signChars) (run rest : Text) :
    signsFrom [] run (c :: rest) = signsFrom [] (run ++ [c]) rest := by
  rw [signsFrom, lexemesFrom_sign sign, signsFrom]

theorem signsFrom_step (inner : opened = [] → c ∉ signChars)
    (stepped : openStep opened c rest.head? = some opened') (run : Text) :
    signsFrom opened run (c :: rest) = signsOf c.isDigit run ++ signsFrom opened' [] rest := by
  have part : (otherLexeme opened c).filterMap (·.sign) = [] := by
    unfold otherLexeme
    split <;> rfl
  rw [signsFrom, lexemesFrom_step inner stepped, filterMap_append, filterMap_append, part,
    append_nil]
  rfl

end Step

/-- Text without a sign that is read from `opened` to `opened'`, before `after`. -/
structure Skips (opened : List Level) (text : Text) (opened' : List Level) (after : Text) :
    Prop where
  levels : openAfter opened (text ++ after) = openAfter opened' after
  signs : signsFrom opened [] (text ++ after) = signsFrom opened' [] after

/-- Such text that also ends a run of punctuators before it. -/
structure Cuts (opened : List Level) (text : Text) (opened' : List Level) (after : Text) :
    Prop where
  levels : openAfter opened (text ++ after) = openAfter opened' after
  signs : ∀ run, signsFrom opened run (text ++ after) =
    signsOf false run ++ signsFrom opened' [] after

section Skips

variable {opened next opened' : List Level} {c : Char} {text after : Text}

theorem Skips.cons (h : Skips next text opened' after) (inner : opened = [] → c ∉ signChars)
    (stepped : openStep opened c (text ++ after).head? = some next) :
    Skips opened (c :: text) opened' after where
  levels := by rw [cons_append, openAfter, stepped, Option.bind_some, h.levels]
  signs := by
    rw [cons_append, signsFrom_step inner stepped, h.signs]
    rfl

theorem Skips.cuts (h : Skips next text opened' after) (inner : opened = [] → c ∉ signChars)
    (digit : c.isDigit = false) (stepped : openStep opened c (text ++ after).head? = some next) :
    Cuts opened (c :: text) opened' after where
  levels := (h.cons inner stepped).levels
  signs run := by rw [cons_append, signsFrom_step inner stepped, h.signs, digit]

theorem Cuts.skips (h : Cuts opened text opened' after) : Skips opened text opened' after :=
  ⟨h.levels, h.signs []⟩

theorem Cuts.append {more : Text} (h : Cuts opened text next (more ++ after))
    (skips : Skips next more opened' after) : Cuts opened (text ++ more) opened' after where
  levels := by rw [append_assoc, h.levels, skips.levels]
  signs run := by rw [append_assoc, h.signs, skips.signs]

end Skips

section Literals

variable {frames : List Frame} {after : Text}

theorem openStep_of_not_mem {c : Char} (plain : c ∉ delimiters) (following : Option Char) :
    openStep (levelsOf frames) c following = some (levelsOf frames) := by
  rw [openStep_levelsOf, openInCode_of_not_mem plain]

theorem eq_nil_of_levelsOf (outside : levelsOf frames = []) : frames = [] := by
  cases frames with
  | nil => rfl
  | cons frame frames => cases frame <;> cases outside

theorem skips_plain {text : Text} (plain : ∀ c ∈ text, c ∉ delimiters)
    (inner : frames = [] → ∀ c ∈ text, c ∉ signChars) (after : Text) :
    Skips (levelsOf frames) text (levelsOf frames) after := by
  induction text with
  | nil => exact ⟨rfl, rfl⟩
  | cons c text ih =>
    obtain ⟨first, others⟩ := forall_mem_cons.1 plain
    refine (ih others ?_).cons ?_ (openStep_of_not_mem first _)
    · exact fun outside d member => inner outside d (mem_cons_of_mem c member)
    · exact fun outside => inner (eq_nil_of_levelsOf outside) c mem_cons_self

theorem skips_literalTail {mark : Char} (quoted : mark = '\'' ∨ mark = '"')
    (closes : openAfter (.quote mark :: levelsOf frames) t = some [])
    (follows : Follows (literalTail mark t).2 after) :
    Skips (.quote mark :: levelsOf frames) (literalTail mark t).1 (levelsOf frames) after := by
  fun_induction literalTail mark t with
  | case1 => cases closes
  | case2 c rest body rest' h ih =>
    rw [h] at ih
    exact ((ih closes follows).cons (by simp) rfl).cons (by simp) rfl
  | case3 rest escaped =>
    refine Skips.cons ⟨rfl, rfl⟩ (by simp) ?_
    rcases quoted with rfl | rfl <;> simp [openStep]
  | case4 c rest escaped other broken =>
    obtain ⟨rfl, -⟩ := broken
    obtain ⟨tail, rfl⟩ := head?_eq_some_iff.1 (follows.2 '\n' rfl (by decide))
    -- The line break ends the string and is a blank of the code behind it as well.
    have inside : Skips (.quote mark :: levelsOf frames) ['\n'] (levelsOf frames) tail :=
      Skips.cons ⟨rfl, rfl⟩ (by simp) (by simp [openStep])
    have behind : Skips (levelsOf frames) ['\n'] (levelsOf frames) tail :=
      skips_plain (forall_mem_singleton.2 (by decide))
        (fun _ => forall_mem_singleton.2 (by decide)) tail
    exact ⟨inside.levels.trans behind.levels.symm, inside.signs.trans behind.signs.symm⟩
  | case5 c rest escaped other broken body rest' h ih =>
    rw [h] at ih
    obtain ⟨-, stays⟩ := openStep_in_quote quoted escaped other broken closes
    rw [openAfter, stays] at closes
    exact (ih closes follows).cons (by simp) (stays _)

theorem skips_templateText (closes : openAfter (.template :: levelsOf frames) t = some [])
    (follows : Follows (t.drop (templateText t).1) after) :
    Skips (.template :: levelsOf frames) (t.take (templateText t).1)
      (levelsOf (framesAfterText (templateText t).2 frames)) after := by
  fun_induction templateText t with
  | case1 => cases closes
  | case2 c rest n opens h ih =>
    rw [h] at ih
    exact ((ih closes follows).cons (by simp) rfl).cons (by simp) rfl
  | case3 rest => exact Skips.cons ⟨rfl, rfl⟩ (by simp) rfl
  | case4 rest => exact (Skips.cons ⟨rfl, rfl⟩ (by simp) rfl).cons (by simp) rfl
  | case5 c rest escaped closed opened n opens h ih =>
    rw [h] at ih
    obtain ⟨-, stays⟩ := openStep_in_template escaped closed opened closes
    rw [openAfter, stays] at closes
    cases rest with
    | nil => cases closes
    | cons d rest =>
      have read : 0 < (templateText (d :: rest)).1 := templateText_pos (by simp)
      obtain ⟨m, rfl⟩ : ∃ m, n = m + 1 := ⟨n - 1, by rw [h] at read; omega⟩
      exact (ih closes follows).cons (by simp) stays

end Literals

section Delimiters

variable {s next : Scan} {c : Char} {rest : Text} {frames : List Frame}

theorem not_sign_of_delimiter (delimiter : c ∈ delimiters) : c ∉ signChars ∧ c.isDigit = false := by
  have apart : delimiters.all (fun c => !signChars.contains c && !c.isDigit) := by decide
  simpa using all_eq_true.1 apart c delimiter

theorem cuts_delimiter {next opened' : List Level} {body other : Text}
    (delimiter : c ∈ delimiters) (stepped : openInCode (levelsOf frames) c = some next)
    (skips : Skips next body opened' other) : Cuts (levelsOf frames) (c :: body) opened' other := by
  obtain ⟨sign, digit⟩ := not_sign_of_delimiter delimiter
  exact skips.cuts (fun _ => sign) digit (by rw [openStep_levelsOf, stepped])

/-- The scan reads `text` from a quote or bracket on. It has no sign, whatever comes in the place of
what is behind it. -/
structure Encloses (s : Scan) (text after : Text) (next : Scan) : Prop where
  reads : Reads s (text ++ after) ⟨text, none⟩ next after
  cuts : ∀ {other : Text}, Follows after other →
    Cuts (levelsOf s.frames) text (levelsOf next.frames) other

theorem encloses_quote (quoted : c = '\'' ∨ c = '"') (closes : Closes s.frames (c :: rest)) :
    ∃ next, Encloses s (c :: (literalTail c rest).1) (literalTail c rest).2 next := by
  have delimiter : c ∈ delimiters := by rcases quoted with rfl | rfl <;> decide
  have stepped : openInCode (levelsOf s.frames) c = some (.quote c :: levelsOf s.frames) := by
    rw [openInCode, if_pos quoted]
  rw [closes_cons_iff, stepped] at closes
  refine ⟨_, reads_of_step (copies_quote s quoted rest).step, fun follows => ?_⟩
  exact cuts_delimiter delimiter stepped (skips_literalTail quoted closes follows)

theorem encloses_template (frames : List Frame) (delimiter : c ∈ delimiters)
    (reads : step s c rest = ((templateText rest).1, none, next))
    (scanned : next.frames = framesAfterText (templateText rest).2 frames)
    (stepped : openInCode (levelsOf s.frames) c = some (.template :: levelsOf frames))
    (closes : openAfter (.template :: levelsOf frames) rest = some []) :
    ∃ next, Encloses s (c :: rest.take (templateText rest).1) (rest.drop (templateText rest).1)
      next := by
  have whole : step s c (rest.take (templateText rest).1 ++ rest.drop (templateText rest).1) =
      ((rest.take (templateText rest).1).length, none, next) := by
    rw [take_append_drop, length_take_of_le (templateText_le rest), reads]
  refine ⟨_, reads_of_step whole, fun follows => ?_⟩
  rw [scanned]
  exact cuts_delimiter delimiter stepped (skips_templateText closes follows)

theorem encloses_single (delimiter : c ∈ delimiters) (reads : step s c rest = (0, none, next))
    (stepped : openInCode (levelsOf s.frames) c = some (levelsOf next.frames)) :
    ∃ next, Encloses s [c] rest next :=
  ⟨_, @reads_of_step s c [] rest none next reads,
    fun _ => cuts_delimiter delimiter stepped ⟨rfl, rfl⟩⟩

theorem openInCode_close (closing : c = '}' ∨ c = ')' ∨ c = ']')
    (outside : ¬ (c = '}' ∧ frames.head? = some .substitution))
    (closes : Closes frames (c :: rest)) :
    openInCode (levelsOf frames) c = some (levelsOf frames.tail) := by
  cases frames with
  | nil => rcases closing with rfl | rfl | rfl <;> cases closes
  | cons frame frames =>
    cases frame <;> rcases closing with rfl | rfl | rfl <;>
      first | rfl | cases closes | exact absurd ⟨rfl, rfl⟩ outside

theorem encloses_close (closing : c = '}' ∨ c = ')' ∨ c = ']')
    (closes : Closes s.frames (c :: rest)) :
    ∃ body after, rest = body ++ after ∧ ∃ next, Encloses s (c :: body) after next := by
  have delimiter : c ∈ delimiters := by rcases closing with rfl | rfl | rfl <;> decide
  have reads := step_close closing s rest
  by_cases inside : c = '}' ∧ s.frames.head? = some .substitution
  · have later := closes.tail closing
    rw [if_pos inside] at later reads
    obtain ⟨frames, opened⟩ := head?_eq_some_iff.1 inside.2
    refine ⟨_, _, (take_append_drop _ _).symm,
      encloses_template s.frames.tail delimiter reads ?_ ?_ later⟩
    · cases (templateText rest).2 <;> rfl
    · rw [opened, inside.1]
      rfl
  · rw [if_neg inside] at reads
    exact ⟨[], rest, rfl, encloses_single delimiter reads (openInCode_close closing inside closes)⟩

theorem exists_encloses (delimiter : c ∈ delimiters) (closes : Closes s.frames (c :: rest)) :
    ∃ body after, rest = body ++ after ∧ ∃ next, Encloses s (c :: body) after next := by
  have listed := delimiter
  simp only [delimiters, mem_cons, not_mem_nil, or_false] at listed
  have split := literalTail_append c rest
  rcases listed with rfl | rfl | rfl | rfl | rfl | rfl | closing
  · exact ⟨_, _, split.symm, encloses_quote (.inl rfl) closes⟩
  · exact ⟨_, _, split.symm, encloses_quote (.inr rfl) closes⟩
  · refine ⟨_, _, (take_append_drop _ _).symm,
      encloses_template s.frames delimiter rfl ?_ rfl (closes_cons_iff.1 closes)⟩
    cases (templateText rest).2 <;> rfl
  · refine ⟨[], rest, rfl, encloses_single delimiter rfl ?_⟩
    cases s.afterArrow <;> rfl
  · refine ⟨[], rest, rfl, encloses_single delimiter rfl ?_⟩
    cases arrowParameters? ('(' :: rest) <;> rfl
  · exact ⟨[], rest, rfl, encloses_single delimiter rfl rfl⟩
  · exact encloses_close closing closes

end Delimiters

section Names

variable {env : Environment} {frames : List Frame} {name : Text}

theorem not_mem_of_isIdentChar {c : Char} (inName : isIdentChar c) :
    c ∉ delimiters ∧ c ∉ signChars :=
  ⟨not_mem_of_any inName (by decide), not_mem_of_any inName (by decide)⟩

theorem cuts_name (named : isIdentifier name) (after : Text) :
    Cuts (levelsOf frames) name (levelsOf frames) after := by
  obtain ⟨c, tail, rfl, start⟩ := exists_start named
  have inName := isIdentChar_of_mem named
  obtain ⟨first, others⟩ := forall_mem_cons.1 inName
  have skips : Skips (levelsOf frames) tail (levelsOf frames) after :=
    skips_plain (fun d member => (not_mem_of_isIdentChar (others d member)).1)
      (fun _ d member => (not_mem_of_isIdentChar (others d member)).2) after
  exact skips.cuts (fun _ => (not_mem_of_isIdentChar first).2) (isDigit_of_isIdentStart start)
    (openStep_of_not_mem (not_mem_of_isIdentChar first).1 _)

theorem skips_member {member : Text} (named : isIdentifier member) (after : Text) :
    Skips (levelsOf frames) ('.' :: member) (levelsOf frames) after := by
  have cuts : Cuts (levelsOf frames) member (levelsOf frames) after := cuts_name named after
  have stepped (following : Option Char) : openStep (levelsOf frames) '.' following = _ :=
    openStep_of_not_mem (by decide) following
  cases frames with
  | nil =>
    refine ⟨?_, ?_⟩
    · exact cuts.levels
    · calc signsFrom [] [] ('.' :: member ++ after)
        _ = signsOf false ['.'] ++ signsFrom [] [] after := cuts.signs ['.']
  | cons frame frames =>
    have inside : levelsOf (frame :: frames) ≠ [] :=
      fun none => cons_ne_nil _ _ (eq_nil_of_levelsOf none)
    exact cuts.skips.cons (fun none => absurd none inside) (stepped _)

theorem cuts_outcome {use : NameUse} {result : Text} (named : isIdentifier name)
    (outcome : Outcome env name use result) (outside : frames = [] → use.place ≠ .shorthand)
    (after : Text) : Cuts (levelsOf frames) result (levelsOf frames) after := by
  have props : isIdentifier propsName := by decide
  have value : isIdentifier valueName := by decide
  -- A shorthand becomes a key, a colon and a member.
  have shorthand (place : use.place = .shorthand) {first member : Text}
      (firstNamed : isIdentifier first) (memberNamed : isIdentifier member) :
      Cuts (levelsOf frames) (name ++ ':' :: ' ' :: (first ++ '.' :: member)) (levelsOf frames)
        after := by
    have cuts : Cuts (levelsOf frames) (first ++ '.' :: member) (levelsOf frames) after :=
      (cuts_name firstNamed _).append (skips_member memberNamed after)
    have inner (c : Char) (none : levelsOf frames = []) : c ∉ signChars :=
      absurd place (outside (eq_nil_of_levelsOf none))
    have blank := cuts.skips.cons (inner ' ') (openStep_of_not_mem (by decide) _)
    have colon := blank.cons (inner ':') (openStep_of_not_mem (by decide) _)
    exact (cuts_name named _).append colon
  cases outcome with
  | same => exact cuts_name named after
  | special listed => exact cuts_name (isIdentifier_of_special listed) after
  | input => exact (cuts_name props _).append (skips_member named after)
  | inputShorthand place => exact shorthand place props named
  | reference => exact (cuts_name named _).append (skips_member value after)
  | referenceShorthand place => exact shorthand place named value

end Names

section Expressions

variable {env : Environment} {s next : Scan}

theorem Follows.refl (t : Text) : Follows t t := ⟨id, fun _ first _ => first⟩

theorem signsFrom_append_congr {frames : List Frame} {text t₁ t₂ : Text}
    (plain : ∀ c ∈ text, c ∉ delimiters)
    (same : ∀ run, signsFrom (levelsOf frames) run t₁ = signsFrom (levelsOf frames) run t₂)
    (run : Text) : signsFrom (levelsOf frames) run (text ++ t₁) =
      signsFrom (levelsOf frames) run (text ++ t₂) := by
  induction text generalizing run with
  | nil => exact same run
  | cons c text ih =>
    obtain ⟨first, others⟩ := forall_mem_cons.1 plain
    by_cases sign : levelsOf frames = [] ∧ c ∈ signChars
    · have outside := ih others (run ++ [c])
      rw [sign.1] at outside ⊢
      rw [cons_append, cons_append, signsFrom_sign sign.2, signsFrom_sign sign.2, outside]
    · have inner (none : levelsOf frames = []) : c ∉ signChars := fun listed => sign ⟨none, listed⟩
      rw [cons_append, cons_append, signsFrom_step inner (openStep_of_not_mem first _),
        signsFrom_step inner (openStep_of_not_mem first _), ih others]

/-- What the rest of an expression becomes closes the same brackets and has the same signs. -/
structure KeepsSigns (env : Environment) (s : Scan) (t : Text) : Prop where
  closes : Closes s.frames (qualifiedFrom env s t)
  signs : ∀ run, signsFrom (levelsOf s.frames) run (qualifiedFrom env s t) =
    signsFrom (levelsOf s.frames) run t

theorem keepsSigns_name {name after : Text} (named : isIdentifier name)
    (ended : after.head?.any isIdentChar = false) (closes : Closes s.frames (name ++ after))
    (later : ∀ next : Scan, Closes next.frames after → KeepsSigns env next after) :
    KeepsSigns env s (name ++ after) := by
  obtain ⟨use, next, reads, uses, frames, -⟩ := reads_name s named ended
  have outside (none : s.frames = []) : use.place ≠ .shorthand := by
    rw [uses.place]
    simp [placeBefore, none]
  have becomes := @cuts_outcome env s.frames name use _ named
    (outcome_qualifiedName env name use) outside (qualifiedFrom env next after)
  have before : Cuts (levelsOf s.frames) name _ after := cuts_name named after
  obtain ⟨closed, same⟩ := later next (by rwa [frames, Closes, ← before.levels])
  rw [frames] at closed same
  refine ⟨?_, fun run => ?_⟩
  · rw [reads.qualifiedFrom, qualified_name]
    exact becomes.levels.trans closed
  · rw [reads.qualifiedFrom, qualified_name, becomes.signs, before.signs, same]

theorem keepsSigns_plain {text after : Text}
    (reads : Reads s (text ++ after) ⟨text, none⟩ next after) (frames : next.frames = s.frames)
    (plain : ∀ c ∈ text, c ∉ delimiters) (closes : Closes s.frames (text ++ after))
    (later : ∀ next : Scan, Closes next.frames after → KeepsSigns env next after) :
    KeepsSigns env s (text ++ after) := by
  rw [closes_append_iff plain] at closes
  obtain ⟨closed, same⟩ := later next (by rwa [frames])
  rw [frames] at closed same
  refine ⟨?_, fun run => ?_⟩
  · rw [reads.qualifiedFrom, qualified_copied, closes_append_iff plain]
    exact closed
  · rw [reads.qualifiedFrom]
    exact signsFrom_append_congr plain same run

theorem keepsSigns_encloses {text after : Text}
    (encloses : Encloses s text after next) (closes : Closes s.frames (text ++ after))
    (later : ∀ next : Scan, Closes next.frames after → KeepsSigns env next after) :
    KeepsSigns env s (text ++ after) := by
  have before := encloses.cuts (.refl after)
  have becomes := encloses.cuts (@follows_qualifiedFrom env next after)
  obtain ⟨closed, same⟩ := later next (before.levels.symm.trans closes)
  refine ⟨?_, fun run => ?_⟩
  · rw [encloses.reads.qualifiedFrom]
    exact becomes.levels.trans closed
  · rw [encloses.reads.qualifiedFrom, qualified_copied, becomes.signs, before.signs, same]

theorem keepsSigns (closes : Closes s.frames t) : KeepsSigns env s t := by
  induction t using scan_induction generalizing s with
  | nil =>
    refine ⟨?_, fun run => by rw [qualifiedFrom_nil]⟩
    rwa [qualifiedFrom_nil]
  | name name after named ended ih => exact keepsSigns_name named ended closes fun _ => ih
  | number c run after digit inNumber ended ih =>
    refine @keepsSigns_plain env s _ (c :: run) after (reads_number s digit inNumber ended) rfl ?_
      closes fun _ => ih
    rintro d (_ | ⟨_, member⟩)
    · exact not_mem_of_any (isIdentChar_of_isDigit digit) (by decide)
    · exact not_mem_of_any (inNumber d member) (by decide)
  | copied c rest start digit ih =>
    by_cases delimiter : c ∈ delimiters
    · obtain ⟨body, after, rfl, next, encloses⟩ := exists_encloses delimiter closes
      exact keepsSigns_encloses encloses closes fun _ => ih body after rfl
    · have reads := @reads_of_step s c [] rest _ _ (step_plain delimiter start digit s rest)
      refine @keepsSigns_plain env s _ [c] rest reads ?_ ?_ closes fun _ => ih [] rest rfl
      · split
        · rfl
        · split <;> rfl
      · simpa using delimiter

theorem isBalanced_qualifiedFrom (balanced : IsBalanced t) : IsBalanced (qualifiedFrom env {} t) :=
  (@keepsSigns t env {} balanced).closes

theorem signs_qualifiedFrom (balanced : IsBalanced t) : signs (qualifiedFrom env {} t) = signs t :=
  (@keepsSigns t env {} balanced).signs []

end Expressions

end SfcJsx.Expression
