import Mathlib.Data.List.Basic
import Mathlib.Data.List.TakeWhile
import SfcJsx.Style.Selector
import SfcJsx.Proofs.Identifiers
import SfcJsx.Proofs.TextSearch

/-!
Class names of a stylesheet that is written rule by rule, with comments between its tokens. Main
statement: the names are those of the class selectors with no ASCII letter or digit before their
dot, each up to its first character that is no letter, digit, `-` or `_`.
-/

namespace SfcJsx.Style

open List Text

/-- A token or a comment of a stylesheet. -/
inductive Lexeme where
  | token (text : Text)
  | comment (body : Text)
  deriving DecidableEq

namespace Lexeme

def text : Lexeme → Text
  | token text => text
  | comment body => "/*" ++ body ++ "*/"

def token? : Lexeme → Option Text
  | token text => some text
  | comment _ => none

end Lexeme

/-- The lexemes as they are written. -/
def source (ls : List Lexeme) : Text := ls.flatMap Lexeme.text

def tokens (ls : List Lexeme) : List Text := ls.filterMap Lexeme.token?

/-- Lexemes that are read one by one: no comment starts inside a token or at its end, and a comment
ends where it is closed first. -/
def isApart : List Lexeme → Bool
  | [] => true
  | .token t :: rest => !containsText (t ++ (source rest).take 1) "/*" && isApart rest
  | .comment body :: rest => !body.containsText "*/" && isApart rest

variable {t rest name : Text} {c : Char}

theorem dropComments_of_cut? {before after : Text} (found : cut? "/*" t = some (before, after)) :
    dropComments t = before ++ dropComments (Code.blockTail after).2 := by
  rw [dropComments]
  split
  · next none =>
    rw [found] at none
    cases none
  · next other =>
    rw [found] at other
    cases other
    rfl

theorem dropComments_of_none (none : cut? "/*" t = none) : dropComments t = t := by
  rw [dropComments]
  split
  · rfl
  · next found =>
    rw [none] at found
    cases found

theorem dropComments_cons (plain : ¬ "/*".toList <+: c :: rest) :
    dropComments (c :: rest) = c :: dropComments rest := by
  have cut : cut? "/*" (c :: rest) =
      (cut? "/*" rest).map fun parts => (c :: parts.1, parts.2) := by
    rw [cut?, after?_eq_none_iff.2 plain]
  cases found : cut? "/*" rest with
  | none =>
    rw [found] at cut
    rw [dropComments_of_none cut, dropComments_of_none found]
  | some pair =>
    rw [found] at cut
    rw [dropComments_of_cut? cut, dropComments_of_cut? found]
    rfl

theorem dropComments_token (plain : ¬ "/*".toList <:+: t ++ rest.take 1) :
    dropComments (t ++ rest) = t ++ dropComments rest := by
  induction t with
  | nil => rfl
  | cons c t ih =>
    have here : ¬ "/*".toList <+: c :: (t ++ rest) := by
      intro starts
      refine plain (List.IsPrefix.isInfix ?_)
      cases rest with
      | nil => exact starts
      | cons d rest =>
        refine prefix_of_prefix_length_le starts ?_ (by simp)
        exact ⟨rest, by simp⟩
    have later : ¬ "/*".toList <:+: t ++ rest.take 1 := fun occurs =>
      plain (occurs.trans (suffix_cons c _).isInfix)
    rw [cons_append, dropComments_cons here, ih later]
    rfl

theorem dropComments_comment {body : Text} (closed : ¬ "*/".toList <:+: body) (rest : Text) :
    dropComments ("/*" ++ body ++ "*/" ++ rest) = dropComments rest := by
  have opens : cut? "/*" ("/*" ++ body ++ "*/" ++ rest) = some ([], body ++ "*/" ++ rest) := rfl
  have within : ['*'] ++ ['/'] <:+: body ++ ['*'] ↔ ['*'] ++ ['/'] <:+: body :=
    infix_concat_iff_of_ne (by decide)
  have ends : cut? "*/" (body ++ "*/" ++ rest) = some (body, rest) :=
    cut?_append (by simp) (fun occurs => closed (within.1 occurs)) rest
  rw [dropComments_of_cut? opens, Code.blockTail, ends]
  rfl

theorem dropComments_source {ls : List Lexeme} (apart : isApart ls) :
    dropComments (source ls) = (tokens ls).flatten := by
  induction ls with
  | nil => exact dropComments_of_none rfl
  | cons l rest ih =>
    cases l with
    | token t =>
      rw [isApart, Bool.and_eq_true, Bool.not_eq_true', containsText_eq_false_iff] at apart
      rw [source, flatMap_cons, ← source, Lexeme.text, dropComments_token apart.1, ih apart.2]
      rfl
    | comment body =>
      rw [isApart, Bool.and_eq_true, Bool.not_eq_true', containsText_eq_false_iff] at apart
      rw [source, flatMap_cons, ← source, Lexeme.text, dropComments_comment apart.1, ih apart.2]
      rfl

/-- A part of a selector: a class selector, or what stands around class selectors, such as type
selectors, pseudo-classes, combinators, commas and parentheses. -/
inductive Part where
  | className (name : Text)
  | other (text : Text)
  deriving DecidableEq

namespace Part

def tokens : Part → List Text
  | className name => [['.'], name]
  | other text => [text]

def className? : Part → Option Text
  | className name => some name
  | other _ => none

end Part

variable {s : List Part}

def selectorText (s : List Part) : Text := (s.flatMap Part.tokens).flatten

def classNames (s : List Part) : List Text := s.filterMap Part.className?

def isNameChar (c : Char) : Bool := isClassChar c || 0x80 ≤ c.toNat

def isName : Text → Bool
  | [] => false
  | c :: rest => startsClass c && rest.all isNameChar

def isUnmarked (c : Char) : Bool := !(['.', '{', '}', ';', '@'].contains c)

/-- A selector in which each class name ends where it does. -/
def isSelector : List Part → Bool
  | [] => true
  | .className name :: rest =>
    isName name && !(selectorText rest).head?.any isNameChar && isSelector rest
  | .other t :: rest => t.all isUnmarked && isSelector rest

def lastOf (before : Option Char) : Text → Option Char
  | [] => before
  | c :: rest => lastOf (some c) rest

/-- The class names that are found in a selector: those with no ASCII letter or digit before their
dot. -/
def found (before : Option Char) : List Part → List Text
  | [] => []
  | .other t :: rest => found (lastOf before t) rest
  | .className name :: rest =>
    if before.any Char.isAlphanum then found (lastOf (some '.') name) rest
    else name.takeWhile isClassChar :: found (lastOf (some '.') name) rest

theorem isNameChar_of_isClassChar (inClass : isClassChar c) : isNameChar c := by
  rw [isNameChar, inClass]
  rfl

theorem isClassChar_of_startsClass (starts : startsClass c) : isClassChar c := by
  simp only [startsClass, isClassChar, isAlphanumeric, Bool.or_eq_true] at starts ⊢
  rcases starts with (letter | line) | dash
  · exact .inl (.inl (.inl letter))
  · exact .inr line
  · exact .inl (.inr dash)

theorem isNameChar_of_mem (named : isName name) : ∀ c ∈ name, isNameChar c := by
  cases name with
  | nil => cases named
  | cons c rest =>
    rw [isName, Bool.and_eq_true, all_eq_true] at named
    rintro d (_ | ⟨_, inside⟩)
    · exact isNameChar_of_isClassChar (isClassChar_of_startsClass named.1)
    · exact named.2 d inside

theorem isUnmarked_of_isNameChar (inName : isNameChar c) : isUnmarked c := by
  have other := not_mem_of_any inName (show ['.', '{', '}', ';', '@'].any _ = false by decide)
  simpa [isUnmarked] using other

theorem mem_selectorText (selector : isSelector s) (member : c ∈ selectorText s) :
    c = '.' ∨ isUnmarked c := by
  induction s with
  | nil => cases member
  | cons part rest ih =>
    rw [selectorText, flatMap_cons, flatten_append, mem_append] at member
    cases part with
    | className name =>
      rw [isSelector, Bool.and_eq_true, Bool.and_eq_true] at selector
      rcases member with here | later
      · have listed : c = '.' ∨ c ∈ name := by simpa [Part.tokens] using here
        exact listed.imp_right fun inName =>
          isUnmarked_of_isNameChar (isNameChar_of_mem selector.1.1 c inName)
      · exact ih selector.2 later
    | other t =>
      rw [isSelector, Bool.and_eq_true, all_eq_true] at selector
      rcases member with here | later
      · exact .inr (selector.1 c (by simpa [Part.tokens] using here))
      · exact ih selector.2 later

theorem classesFrom_of_notMem (free : '.' ∉ t) (before : Option Char) (rest : Text) :
    classesFrom before 0 (t ++ rest) = classesFrom (lastOf before t) 0 rest := by
  induction t generalizing before with
  | nil => rfl
  | cons c t ih =>
    have other : c ≠ '.' := fun same => free (by simp [same])
    rw [cons_append, classesFrom, if_neg fun starts => other starts.1]
    exact ih (fun member => free (mem_cons_of_mem c member)) (some c)

theorem classesFrom_skip (t : Text) (before : Option Char) (rest : Text) :
    classesFrom before t.length (t ++ rest) = classesFrom (lastOf before t) 0 rest := by
  induction t generalizing before with
  | nil => rfl
  | cons c t ih =>
    exact ih (some c)

theorem lastOf_append (before : Option Char) (s t : Text) :
    lastOf before (s ++ t) = lastOf (lastOf before s) t := by
  induction s generalizing before with
  | nil => rfl
  | cons c s ih => exact ih (some c)

theorem classesFrom_className (named : isName name)
    (ends : rest.head?.any isNameChar = false) (before : Option Char) :
    classesFrom before 0 ('.' :: (name ++ rest)) =
      if before.any Char.isAlphanum then classesFrom (lastOf (some '.') name) 0 rest
      else name.takeWhile isClassChar :: classesFrom (lastOf (some '.') name) 0 rest := by
  have noDot : '.' ∉ name := fun member => by
    have inName := isNameChar_of_mem named '.' member
    exact absurd inName (by decide)
  have starts : (name ++ rest).head?.any startsClass := by
    cases name with
    | nil => cases named
    | cons c tail =>
      rw [isName, Bool.and_eq_true] at named
      exact named.1
  rw [classesFrom]
  cases glued : before.any Char.isAlphanum with
  | true =>
    exact classesFrom_of_notMem noDot (some '.') rest
  | false =>
    have stops : rest.head?.any isClassChar = false := by
      cases rest with
      | nil => rfl
      | cons c rest =>
        cases inClass : isClassChar c with
        | false => exact inClass
        | true => exact absurd (isNameChar_of_isClassChar inClass) (by simpa using ends)
    have read : (name ++ rest).takeWhile isClassChar = name.takeWhile isClassChar :=
      takeWhile_append_of_head? stops name
    have split : name ++ rest =
        name.takeWhile isClassChar ++ (name.dropWhile isClassChar ++ rest) := by
      rw [← append_assoc, takeWhile_append_dropWhile]
    have later : '.' ∉ name.dropWhile isClassChar := fun member =>
      noDot ((dropWhile_suffix _).subset member)
    rw [if_pos ⟨rfl, by simp, starts⟩, read]
    refine congrArg (name.takeWhile isClassChar :: ·) ?_
    rw [split, classesFrom_skip, classesFrom_of_notMem later, ← lastOf_append,
      takeWhile_append_dropWhile]

theorem classesFrom_selectorText (selector : isSelector s) (before : Option Char) :
    classesFrom before 0 (selectorText s) = found before s := by
  induction s generalizing before with
  | nil => rfl
  | cons part rest ih =>
    rw [selectorText, flatMap_cons, flatten_append, ← selectorText]
    cases part with
    | className name =>
      rw [isSelector, Bool.and_eq_true, Bool.and_eq_true, Bool.not_eq_true'] at selector
      have split : (Part.className name).tokens.flatten ++ selectorText rest =
          '.' :: (name ++ selectorText rest) := by simp [Part.tokens]
      rw [split, classesFrom_className selector.1.1 selector.1.2, ih selector.2, found]
    | other t =>
      rw [isSelector, Bool.and_eq_true, all_eq_true] at selector
      have noDot : '.' ∉ t := fun member => absurd (selector.1 '.' member) (by decide)
      have split : (Part.other t).tokens.flatten = t := by simp [Part.tokens]
      rw [split, classesFrom_of_notMem noDot, ih selector.2, found]

inductive Rule where
  /-- What a semicolon ends, such as an import. -/
  | statement (content : List Text)
  | style (selector : List Part) (declarations : List Text)
  /-- A rule that starts with `@` and holds others. -/
  | group (heading : List Text) (rules : List Rule) (declarations : List Text)

def isBraceless (c : Char) : Bool := !(c == '{' || c == '}')

def isHeadingChar (c : Char) : Bool := !(c == '{' || c == '}' || c == ';')

mutual

def Rule.tokens : Rule → List Text
  | .statement content => content ++ [[';']]
  | .style selector declarations =>
    selector.flatMap Part.tokens ++ ['{'] :: (declarations ++ [['}']])
  | .group heading rules declarations =>
    heading ++ ['{'] :: (tokensOf rules ++ (declarations ++ [['}']]))

def tokensOf : List Rule → List Text
  | [] => []
  | rule :: rules => rule.tokens ++ tokensOf rules

end

mutual

/-- A rule whose braces and semicolons are its own. -/
def Rule.isWritten : Rule → Bool
  | .statement content => content.flatten.all isBraceless
  | .style selector declarations => isSelector selector && declarations.flatten.all isBraceless
  | .group heading rules declarations =>
    heading.flatten.all isHeadingChar && startsWith (trimStart heading.flatten) "@" &&
      areWritten rules && declarations.flatten.all isBraceless

def areWritten : List Rule → Bool
  | [] => true
  | rule :: rules => rule.isWritten && areWritten rules

end

mutual

def Rule.selectors : Rule → List (List Part)
  | .statement _ => []
  | .style selector _ => [selector]
  | .group _ rules _ => selectorsOf rules

def selectorsOf : List Rule → List (List Part)
  | [] => []
  | rule :: rules => rule.selectors ++ selectorsOf rules

end

def isStylePrelude (t : Text) : Bool := !t.trimStart.startsWith "@"

theorem preludes_append (free : ∀ c ∈ t, isHeadingChar c) (current rest : Text) :
    preludes current (t ++ rest) = preludes (t.reverse ++ current) rest := by
  induction t generalizing current with
  | nil => rfl
  | cons c t ih =>
    have here : ¬ c = '{' ∧ ¬ (c = '}' ∨ c = ';') := by
      simpa [isHeadingChar, and_assoc] using free c (by simp)
    rw [cons_append, preludes, if_neg here.1, if_neg here.2, ih (forall_mem_cons.1 free).2]
    simp

theorem exists_preludes_braceless (free : ∀ c ∈ t, isBraceless c) (current : Text) :
    ∃ current', ∀ rest, preludes current (t ++ rest) = preludes current' rest := by
  induction t generalizing current with
  | nil => exact ⟨current, fun _ => rfl⟩
  | cons c t ih =>
    have later := ih (forall_mem_cons.1 free).2
    have here : ¬ c = '{' ∧ ¬ c = '}' := by simpa [isBraceless] using free c (by simp)
    by_cases ends : c = ';'
    · obtain ⟨current', goesOn⟩ := later []
      refine ⟨current', fun rest => ?_⟩
      rw [cons_append, preludes, if_neg here.1, if_pos (.inr ends), goesOn]
    · obtain ⟨current', goesOn⟩ := later (c :: current)
      refine ⟨current', fun rest => ?_⟩
      rw [cons_append, preludes, if_neg here.1, if_neg (not_or.2 ⟨here.2, ends⟩), goesOn]

theorem preludes_closed (free : ∀ c ∈ t, isBraceless c) (closes : c = '}' ∨ c = ';')
    (rest : Text) : preludes [] (t ++ c :: rest) = preludes [] rest := by
  obtain ⟨current, goesOn⟩ := exists_preludes_braceless free []
  have other : c ≠ '{' := by
    rcases closes with rfl | rfl <;> decide
  rw [goesOn, preludes, if_neg other, if_pos closes]

theorem preludes_opened (free : ∀ c ∈ t, isHeadingChar c) (rest : Text) :
    preludes [] (t ++ '{' :: rest) = t :: preludes [] rest := by
  rw [preludes_append free, preludes]
  simp

theorem isStylePrelude_selectorText (selector : isSelector s) :
    isStylePrelude (selectorText s) := by
  rw [isStylePrelude]
  cases starts : (selectorText s).trimStart.startsWith "@" with
  | false => rfl
  | true =>
    obtain ⟨rest, split⟩ := startsWith_eq_true_iff.1 starts
    have member : '@' ∈ selectorText s :=
      (dropWhile_suffix isBlank).subset (by rw [← trimStart, split]; simp)
    rcases mem_selectorText selector member with same | unmarked
    · cases same
    · exact absurd unmarked (by decide)

theorem isHeadingChar_of_mem_selectorText (selector : isSelector s) :
    ∀ c ∈ selectorText s, isHeadingChar c := by
  intro c member
  rcases mem_selectorText selector member with rfl | unmarked
  · rfl
  · simp only [isUnmarked, contains_cons, Bool.not_eq_true', Bool.or_eq_false_iff] at unmarked
    simp [isHeadingChar, unmarked]

mutual

theorem Rule.filter_preludes {rule : Rule} (written : rule.isWritten) (rest : Text) :
    (preludes [] (rule.tokens.flatten ++ rest)).filter isStylePrelude =
      rule.selectors.map selectorText ++ (preludes [] rest).filter isStylePrelude := by
  cases rule with
  | statement content =>
    rw [Rule.isWritten, all_eq_true] at written
    have split : (Rule.statement content).tokens.flatten ++ rest =
        content.flatten ++ ';' :: rest := by simp [Rule.tokens]
    rw [split, preludes_closed written (.inr rfl), Rule.selectors]
    rfl
  | style selector declarations =>
    rw [Rule.isWritten, Bool.and_eq_true, all_eq_true] at written
    have split : (Rule.style selector declarations).tokens.flatten ++ rest =
        selectorText selector ++ '{' :: (declarations.flatten ++ '}' :: rest) := by
      simp [Rule.tokens, selectorText]
    rw [split, preludes_opened (isHeadingChar_of_mem_selectorText written.1), filter_cons_of_pos
      (isStylePrelude_selectorText written.1), preludes_closed written.2 (.inl rfl), Rule.selectors]
    rfl
  | group heading rules declarations =>
    simp only [Rule.isWritten, Bool.and_eq_true, all_eq_true] at written
    obtain ⟨⟨⟨plain, starts⟩, inner⟩, free⟩ := written
    have split : (Rule.group heading rules declarations).tokens.flatten ++ rest =
        heading.flatten ++
          '{' :: ((tokensOf rules).flatten ++ (declarations.flatten ++ '}' :: rest)) := by
      simp [Rule.tokens]
    rw [split, preludes_opened plain, filter_cons_of_neg (by simpa [isStylePrelude] using starts),
      filter_preludes_tokensOf inner, preludes_closed free (.inl rfl), Rule.selectors]

theorem filter_preludes_tokensOf {rules : List Rule} (written : areWritten rules)
    (rest : Text) : (preludes [] ((tokensOf rules).flatten ++ rest)).filter isStylePrelude =
      (selectorsOf rules).map selectorText ++ (preludes [] rest).filter isStylePrelude := by
  cases rules with
  | nil => rfl
  | cons rule rules =>
    rw [areWritten, Bool.and_eq_true] at written
    rw [tokensOf, flatten_append, append_assoc, Rule.filter_preludes written.1,
      filter_preludes_tokensOf written.2, selectorsOf, map_append, append_assoc]

end

mutual

theorem Rule.isSelector_of_mem {rule : Rule} (written : rule.isWritten) :
    ∀ s ∈ rule.selectors, isSelector s := by
  cases rule with
  | statement content => simp [Rule.selectors]
  | style selector declarations =>
    rw [Rule.isWritten, Bool.and_eq_true] at written
    simpa [Rule.selectors] using written.1
  | group heading rules declarations =>
    simp only [Rule.isWritten, Bool.and_eq_true] at written
    exact isSelector_of_mem_selectorsOf written.1.2

theorem isSelector_of_mem_selectorsOf {rules : List Rule} (written : areWritten rules) :
    ∀ s ∈ selectorsOf rules, isSelector s := by
  cases rules with
  | nil => simp [selectorsOf]
  | cons rule rules =>
    rw [areWritten, Bool.and_eq_true] at written
    intro s member
    rcases mem_append.1 member with here | later
    · exact Rule.isSelector_of_mem written.1 s here
    · exact isSelector_of_mem_selectorsOf written.2 s later

end

/-- Rules, and what stands behind the last one. -/
structure Styles where
  rules : List Rule
  tail : List Text

namespace Styles

def tokens (s : Styles) : List Text := tokensOf s.rules ++ s.tail

/-- Whether the rules can be read, with no brace behind them. -/
def isWritten (s : Styles) : Bool := areWritten s.rules && s.tail.flatten.all isBraceless

def selectors (s : Styles) : List (List Part) := selectorsOf s.rules

def classNames (s : Styles) : List Text := s.selectors.flatMap Style.classNames

theorem selectors_tokens {s : Styles} (written : s.isWritten) :
    (preludes [] s.tokens.flatten).filter isStylePrelude = s.selectors.map selectorText := by
  rw [isWritten, Bool.and_eq_true, all_eq_true] at written
  have last : preludes [] s.tail.flatten = [] := by
    obtain ⟨current, goesOn⟩ := exists_preludes_braceless written.2 []
    rw [← append_nil s.tail.flatten, goesOn, preludes]
  rw [tokens, flatten_append, filter_preludes_tokensOf written.1, last]
  exact append_nil _

/-- The classes that are read off the selectors. -/
def found (s : Styles) : List Text := s.selectors.flatMap (Style.found none)

theorem classes_source {s : Styles} (written : s.isWritten) {ls : List Lexeme} (apart : isApart ls)
    (laid : Style.tokens ls = s.tokens) : classes (source ls) = s.found.eraseDups := by
  have each : ∀ part ∈ s.selectors, isSelector part := by
    rw [isWritten, Bool.and_eq_true] at written
    exact isSelector_of_mem_selectorsOf written.1
  have read : Style.selectors (source ls) = s.selectors.map selectorText := by
    rw [Style.selectors, dropComments_source apart, laid]
    exact selectors_tokens written
  have names : (s.selectors.map selectorText).flatMap (classesFrom none 0) = s.found := by
    rw [flatMap_map]
    refine flatMap_congr fun part member => ?_
    exact classesFrom_selectorText (each part member) none
  rw [classes, read, names]

end Styles

/-- Whether the classes of a selector are found as they are: no ASCII letter or digit stands before
a dot, and no name has a character that ends it. -/
def standFree (before : Option Char) : List Part → Bool
  | [] => true
  | .other t :: rest => standFree (lastOf before t) rest
  | .className name :: rest =>
    !before.any Char.isAlphanum && name.all isClassChar && standFree (lastOf (some '.') name) rest

theorem length_found_le (before : Option Char) (s : List Part) :
    (found before s).length ≤ (classNames s).length := by
  induction s generalizing before with
  | nil => exact Nat.le_refl 0
  | cons part rest ih =>
    cases part with
    | other t => exact ih _
    | className name =>
      have later := ih (lastOf (some '.') name)
      rw [found]
      split
      · exact Nat.le_succ_of_le later
      · exact Nat.succ_le_succ later

theorem found_eq_classNames_iff (before : Option Char) (s : List Part) :
    found before s = classNames s ↔ standFree before s := by
  induction s generalizing before with
  | nil => exact iff_of_true rfl rfl
  | cons part rest ih =>
    cases part with
    | other t => exact ih _
    | className name =>
      rw [found, standFree,
        show classNames (.className name :: rest) = name :: classNames rest from rfl]
      cases before.any Char.isAlphanum with
      | true =>
        refine iff_of_false (fun same => ?_) (by simp)
        have short := length_found_le (lastOf (some '.') name) rest
        rw [if_pos rfl] at same
        rw [same, length_cons] at short
        omega
      | false =>
        rw [if_neg Bool.false_ne_true, cons.injEq, ih]
        simp

/-- The classes of a stylesheet, whatever comments stand between its tokens, are those of the class
selectors with no ASCII letter or digit before them, each name up to the first character that is no
letter, digit, dash or underscore. A selector's classes are found as they are exactly if none stands
behind a letter or digit and none has another character; so all of them are mapped if all selectors
are such. -/
theorem Styles.classes_of_written {s : Styles} (written : s.isWritten = true) {ls : List Lexeme}
    (apart : isApart ls = true) (laid : Style.tokens ls = s.tokens) :
    classes (source ls) = s.found.eraseDups ∧
    (∀ part ∈ s.selectors, Style.found none part = Style.classNames part ↔
      standFree none part = true) ∧
    ((∀ part ∈ s.selectors, standFree none part = true) →
      classes (source ls) = s.classNames.eraseDups) := by
  have read := classes_source written apart laid
  refine ⟨read, fun part _ => found_eq_classNames_iff none part, fun free => ?_⟩
  have same : s.found = s.classNames := flatMap_congr fun part member =>
    (found_eq_classNames_iff none part).2 (free part member)
  rw [read, same]

def cardStyles : Styles where
  rules :=
    [.statement ["@import url(base.css)"],
     .style [.other "\n", .className "card", .other " "] [" padding: 0.5em; margin: -.5em "],
     .style [.other "\n", .className "card", .other " ", .className "card-title",
       .other ":not(", .className "is_off", .other "):hover, *", .className "größe", .other " > a "]
       [" color: red"],
     .group ["\n@media", " (min-width: 10.5px) "]
       [.style [.other " ", .className "wide_", .className "card", .other " "]
         [" width: calc(6px/", "2 * 3) "]]
       [" "]]
  tail := ["\n"]

def cardLexemes : List Lexeme :=
  .comment " .old \x7b\x7d " :: (cardStyles.tokens.take 5).map .token ++
    .comment "* .gone *" :: (cardStyles.tokens.drop 5).map .token

theorem Styles.classes_cardStyles :
    cardStyles.isWritten = true ∧ isApart cardLexemes = true ∧
    Style.tokens cardLexemes = cardStyles.tokens ∧
    classes (source cardLexemes) =
      ["card".toList, "card-title".toList, "is_off".toList, "größe".toList, "wide_".toList] := by
  have written : cardStyles.isWritten = true := by decide +kernel
  have apart : isApart cardLexemes = true := by decide +kernel
  have laid : Style.tokens cardLexemes = cardStyles.tokens := by decide +kernel
  refine ⟨written, apart, laid, ?_⟩
  rw [(classes_of_written written apart laid).2.2 (by decide +kernel)]
  decide +kernel

/-- A class behind a type selector or another class is not found. -/
theorem classes_compound :
    Styles.classNames ⟨[.style [.other "a", .className "b", .other " "] [" color: red "],
      .style [.className "c", .className "d", .other " "] []], []⟩ =
        ["b".toList, "c".toList, "d".toList] ∧
    (Styles.tokens ⟨[.style [.other "a", .className "b", .other " "] [" color: red "],
      .style [.className "c", .className "d", .other " "] []], []⟩).flatten =
        "a.b \x7b color: red \x7d.c.d \x7b\x7d".toList ∧
    classes "a.b \x7b color: red \x7d.c.d \x7b\x7d" = ["c".toList] := by
  decide +kernel

end SfcJsx.Style
