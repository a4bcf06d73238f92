import Mathlib.Data.List.Forall2
import SfcJsx.Proofs.BalancedExpression
import SfcJsx.Proofs.BalancedRegion

/-!
A balanced operand, scanned alone and scanned inside a longer expression. Both scans read the same
segments. They can differ in one thing only: more arrow functions may be in force inside the longer
expression, so more names may be bound there.
-/

namespace SfcJsx.Expression

open List Text Code

variable {rest t after body : Text} {c : Char} {arrows : List Arrow} {arrow : Arrow}

/-- Text that prolongs neither a name nor a number and that no arrow begins or ends with. -/
structure Apart (tail : Text) : Prop where
  word : tail.head?.any isIdentChar = false
  number : tail.head?.any isNumberChar = false
  angle : tail.head? ≠ some '>'
  arrow : startsWith tail.trimStart "=>" = false

theorem apart_nil : Apart [] := ⟨rfl, rfl, by simp, rfl⟩

namespace Apart

variable {tail : Text}

theorem startsWith_arrow (h : Apart tail) (t : Text) :
    startsWith (t ++ tail).trimStart "=>" = startsWith t.trimStart "=>" := by
  rw [trimStart_append]
  split
  · next blank =>
    rw [blank, h.arrow]
    rfl
  · next solid =>
    obtain ⟨c, more, starts⟩ := exists_cons_of_ne_nil solid
    rw [starts, Bool.eq_iff_iff, startsWith_eq_true_iff, startsWith_eq_true_iff]
    cases more with
    | nil =>
      apply iff_of_false
      · rintro ⟨rest, whole⟩
        have behind : tail = '>' :: rest := (cons.inj whole).2
        exact h.angle (by rw [behind]; rfl)
      · rintro ⟨rest, whole⟩
        cases (cons.inj whole).2
    | cons d more => simp

theorem startsUnwrapping (h : Apart tail) (t : Text) :
    Expression.startsUnwrapping (t ++ tail) = Expression.startsUnwrapping t := by
  rw [Bool.eq_iff_iff, startsUnwrapping_iff, startsUnwrapping_iff]
  cases t with
  | nil =>
    apply iff_of_false
    · rintro ⟨more, rfl, -⟩
      have dot : isNumberChar '.' = false := h.number
      exact absurd dot (by decide)
    · rintro ⟨more, whole, -⟩
      cases whole
  | cons c t => simp [takeWhile_append_of_head? h.word]

end Apart

/-- A scan that stands at the same brackets and has all arrow functions of the first one in force,
those of inner brackets before those of outer ones. -/
structure Covers (s₀ s : Scan) : Prop extends Agree s₀ s where
  arrows : s₀.arrows ⊆ s.arrows
  ordered : s₀.arrows.Pairwise fun inner outer => outer.depth ≤ inner.depth
  within : ∀ arrow ∈ s₀.arrows, arrow.depth ≤ s₀.depth

theorem depth_lt_of_mem_dropWhile {depth : Nat}
    (ordered : arrows.Pairwise fun inner outer => outer.depth ≤ inner.depth)
    (member : arrow ∈ arrows.dropWhile fun arrow => decide (depth ≤ arrow.depth)) :
    arrow.depth < depth := by
  induction arrows with
  | nil => cases member
  | cons first arrows ih =>
    obtain ⟨outside, ordered⟩ := pairwise_cons.1 ordered
    by_cases deep : depth ≤ first.depth
    · rw [dropWhile_cons_of_pos (by simpa using deep)] at member
      exact ih ordered member
    · rw [dropWhile_cons_of_neg (by simpa using deep)] at member
      rcases mem_cons.1 member with rfl | member
      · omega
      · have := outside arrow member
        omega

theorem mem_dropWhile_of_depth_lt {depth : Nat} (member : arrow ∈ arrows)
    (outside : arrow.depth < depth) :
    arrow ∈ arrows.dropWhile fun arrow => decide (depth ≤ arrow.depth) := by
  rw [← takeWhile_append_dropWhile (p := fun arrow => decide (depth ≤ arrow.depth))
    (l := arrows), mem_append] at member
  rcases member with dropped | kept
  · have deep := all_eq_true.1 all_takeWhile arrow dropped
    simp only [decide_eq_true_eq] at deep
    omega
  · exact kept

namespace Covers

variable {s₀ s : Scan}

section

variable (h : Covers s₀ s)

include h

theorem depth : s₀.depth = s.depth := congrArg length h.frames

theorem isLocal {name : Text} (bound : s₀.isLocal name) : s.isLocal name := by
  obtain ⟨arrow, inForce, names⟩ := any_eq_true.1 bound
  exact any_eq_true.2 ⟨arrow, h.arrows inForce, names⟩

theorem mark (c : Char) : Covers (s₀.mark c) (s.mark c) :=
  ⟨h.toAgree.mark c, h.arrows, h.ordered, h.within⟩

theorem push (frame : Frame) : Covers (s₀.push frame) (s.push frame) := by
  refine ⟨h.toAgree.push frame, h.arrows, h.ordered, fun arrow inForce => ?_⟩
  exact Nat.le_succ_of_le (h.within arrow inForce)

theorem enterSubstitution : Covers s₀.enterSubstitution s.enterSubstitution :=
  ⟨h.toAgree.enterSubstitution, h.arrows, h.ordered, (h.push .substitution).within⟩

theorem enterArrow (parameters : List Text) :
    Covers (s₀.enterArrow parameters) (s.enterArrow parameters) where
  toAgree := ⟨h.frames, h.afterArrow, h.previous⟩
  arrows := by
    rw [Scan.enterArrow, h.depth]
    exact cons_subset_cons _ h.arrows
  ordered := pairwise_cons.2 ⟨h.within, h.ordered⟩
  within := by
    rintro arrow (_ | ⟨_, inForce⟩)
    · exact Nat.le_refl _
    · exact h.within arrow inForce

theorem enterArrow_right (parameters : List Text) : Covers s₀ (s.enterArrow parameters) :=
  ⟨⟨h.frames, h.afterArrow, h.previous⟩, subset_cons_of_subset _ h.arrows, h.ordered,
    h.within⟩

theorem leaveArrows : Covers s₀.leaveArrows s.leaveArrows where
  toAgree := h.toAgree.leaveArrows
  arrows := by
    intro arrow kept
    have inForce := (dropWhile_sublist _).subset kept
    rw [Scan.leaveArrows, ← h.depth]
    exact mem_dropWhile_of_depth_lt (h.arrows inForce) (depth_lt_of_mem_dropWhile h.ordered kept)
  ordered := h.ordered.sublist (dropWhile_sublist _)
  within := fun arrow kept => Nat.le_of_lt (depth_lt_of_mem_dropWhile h.ordered kept)

theorem close : Covers s₀.close s.close where
  toAgree := h.toAgree.close
  arrows := h.leaveArrows.arrows
  ordered := h.leaveArrows.ordered
  within := by
    intro arrow kept
    have outside : arrow.depth < s₀.depth := depth_lt_of_mem_dropWhile h.ordered kept
    have depth : s₀.close.depth = s₀.depth - 1 := length_tail
    omega

theorem meetParameters {p₀ p : Option (List Text)}
    (more : ∀ parameters, p₀ = some parameters → p = some parameters) :
    Covers (s₀.meetParameters p₀) (s.meetParameters p) := by
  cases p₀ with
  | some parameters =>
    rw [more parameters rfl]
    exact h.enterArrow parameters
  | none =>
    cases p with
    | none => exact h
    | some parameters => exact h.enterArrow_right parameters

end

end Covers

theorem arrowFollows_append (follows : arrowFollows after) (tail : Text) :
    arrowFollows (after ++ tail) := by
  unfold arrowFollows at follows ⊢
  rw [trimStart_append]
  split at follows
  · next annotated starts =>
    rw [containsText_iff] at follows
    rw [starts]
    exact containsText_iff.2 (follows.trans (prefix_append annotated tail).isInfix)
  · obtain ⟨rest, starts⟩ := startsWith_eq_true_iff.1 follows
    have arrow : after.trimStart = '=' :: '>' :: rest := starts
    rw [arrow]
    exact startsWith_eq_true_iff.2 ⟨rest ++ tail, rfl⟩

theorem arrowParameters?_append {parameters : List Text}
    (found : arrowParameters? t = some parameters) (tail : Text) :
    arrowParameters? (t ++ tail) = some parameters := by
  unfold arrowParameters? at found
  split at found
  · cases found
  · next content after inside =>
    obtain ⟨region, rfl, isRegion⟩ := exists_isRegion (by decide) inside
    split at found
    · next follows =>
      rw [arrowParameters?, append_assoc, isRegion.found]
      dsimp only
      rw [if_pos (arrowFollows_append follows tail), found]
    · cases found

/-- Uses that agree but for the arrow functions in force: what is bound in the first is bound in the
second. -/
inductive BindsMore : Option NameUse → Option NameUse → Prop
  | copied : BindsMore none none
  | name {use₀ use : NameUse} (place : use.place = use₀.place)
      (unwrapped : use.isUnwrapped = use₀.isUnwrapped)
      (bound : use₀.isBound → use.isBound) : BindsMore (some use₀) (some use)

theorem nameUse_eq (s : Scan) (name rest : Text) : nameUse s name rest =
    if !isMemberAfter s.seen && startsWith rest.trimStart "=>" then
      (⟨true, placeBefore s rest, startsUnwrapping rest⟩, s.enterArrow [name])
    else (⟨isMemberAfter s.seen || s.isLocal name, placeBefore s rest, startsUnwrapping rest⟩, s) :=
  rfl

theorem placeBefore_append {s₀ s : Scan} (agree : Agree s₀ s) (closes : Closes s₀.frames t)
    (tail : Text) : placeBefore s (t ++ tail) = placeBefore s₀ t := by
  by_cases blank : t.trimStart = []
  · -- Behind the operand no bracket is open, so that no name stands in an object.
    have outside := closes.frames_eq_nil blank
    simp [placeBefore, ← agree.frames, outside]
  · apply agree.placeBefore
    intro d _
    obtain ⟨c, more, starts⟩ := exists_cons_of_ne_nil blank
    rw [trimStart_append, starts]
    rfl

theorem covers_nameUse {s₀ s : Scan} (covers : Covers s₀ s)
    (seen : isMemberAfter s₀.seen = isMemberAfter s.seen) (name : Text) {tail : Text}
    (closes : Closes s₀.frames rest) (apart : Apart tail) :
    BindsMore (some (nameUse s₀ name rest).1) (some (nameUse s name (rest ++ tail)).1) ∧
      Covers (nameUse s₀ name rest).2 (nameUse s name (rest ++ tail)).2 := by
  have place := placeBefore_append covers.toAgree closes tail
  have unwrapped := apart.startsUnwrapping rest
  rw [nameUse_eq, nameUse_eq, apart.startsWith_arrow, ← seen]
  split
  · exact ⟨.name place unwrapped fun _ => rfl, covers.enterArrow [name]⟩
  · refine ⟨.name place unwrapped ?_, covers⟩
    simp only [Bool.or_eq_true]
    rintro (member | bound)
    · exact .inl member
    · exact .inr (covers.isLocal bound)

/-- A step inside an operand, alone and with `tail` behind the operand. -/
structure InStep (tail : Text) (s₀ s : Scan) (c : Char) (body after : Text)
    (use₀ use : Option NameUse) (next₀ next : Scan) : Prop where
  alone : step s₀ c (body ++ after) = (body.length, use₀, next₀)
  inside : step s c (body ++ (after ++ tail)) = (body.length, use, next)
  binds : BindsMore use₀ use
  covers : Covers next₀ next
  closes : Closes next₀.frames after

variable {tail : Text} {s₀ s next₀ next : Scan}

theorem inStep_name (covers : Covers s₀ s) (seen : isMemberAfter s₀.seen = isMemberAfter s.seen)
    (apart : Apart tail) (named : isIdentifier (c :: body))
    (ended : after.head?.any isIdentChar = false)
    (closes : Closes s₀.frames (c :: (body ++ after))) :
    ∃ use₀ use next₀ next, InStep tail s₀ s c body after use₀ use next₀ next := by
  have plain : ∀ d ∈ c :: body, d ∉ delimiters := fun d member =>
    not_mem_of_any (isIdentChar_of_mem named d member) (by decide)
  rw [← cons_append, closes_append_iff plain] at closes
  have endedThere : (after ++ tail).head?.any isIdentChar = false := by
    cases after with
    | nil => exact apart.word
    | cons d after => exact ended
  obtain ⟨binds, later⟩ := covers_nameUse covers seen (c :: body) closes apart
  obtain ⟨arrows, scanned⟩ := nameUse_scan s₀ (c :: body) after
  refine ⟨_, _, _, _, step_name s₀ named ended, step_name s named endedThere, binds, later.mark 'a',
    ?_⟩
  rw [scanned]
  exact closes

theorem inStep_number (covers : Covers s₀ s) (apart : Apart tail) (digit : c.isDigit)
    (inNumber : ∀ d ∈ body, isNumberChar d) (ended : after.head?.any isNumberChar = false)
    (closes : Closes s₀.frames (c :: (body ++ after))) :
    ∃ next₀ next, InStep tail s₀ s c body after none none next₀ next := by
  have plain : ∀ d ∈ c :: body, d ∉ delimiters := by
    rintro d (_ | ⟨_, member⟩)
    · exact not_mem_of_any (isIdentChar_of_isDigit digit) (by decide)
    · exact not_mem_of_any (inNumber d member) (by decide)
  rw [← cons_append, closes_append_iff plain] at closes
  have endedThere : (after ++ tail).head?.any isNumberChar = false := by
    cases after with
    | nil => exact apart.number
    | cons d after => exact ended
  exact ⟨_, _, step_number s₀ digit inNumber ended, step_number s digit inNumber endedThere,
    .copied, covers.mark '0', closes⟩

theorem inStep_single (alone : step s₀ c rest = (0, none, next₀))
    (inside : step s c (rest ++ tail) = (0, none, next)) (covers : Covers next₀ next)
    (closes : Closes next₀.frames rest) : InStep tail s₀ s c [] rest none none next₀ next :=
  ⟨alone, inside, .copied, covers, closes⟩

theorem inStep_quote (covers : Covers s₀ s) (quoted : c = '\'' ∨ c = '"')
    (closes : Closes s₀.frames (c :: rest)) :
    InStep tail s₀ s c (literalTail c rest).1 (literalTail c rest).2 none none
      (s₀.mark '"') (s.mark '"') := by
  have opened : openAfter (.quote c :: levelsOf s₀.frames) rest = some [] := by
    rw [closes_cons_iff, openInCode, if_pos quoted] at closes
    exact closes
  obtain ⟨closed, same⟩ := closes_literalTail quoted opened tail
  refine ⟨?_, ?_, .copied, covers.mark '"', closed⟩
  · rw [step_quote quoted, literalTail_append]
  · rw [step_quote quoted, ← append_assoc, literalTail_append, same]

theorem inStep_template (ends opens : Scan → Scan)
    (reads : ∀ s₁ : Scan, s₁.frames = s₀.frames → ∀ t, step s₁ c t =
      ((templateText t).1, none, if (templateText t).2 then opens s₁ else ends s₁))
    (frames : s.frames = s₀.frames) (ended : Covers (ends s₀) (ends s))
    (opened : Covers (opens s₀) (opens s))
    (pushed : (opens s₀).frames = .substitution :: (ends s₀).frames)
    (closes : openAfter (.template :: levelsOf (ends s₀).frames) rest = some []) :
    InStep tail s₀ s c (rest.take (templateText rest).1) (rest.drop (templateText rest).1) none none
      (if (templateText rest).2 then opens s₀ else ends s₀)
      (if (templateText rest).2 then opens s else ends s) := by
  obtain ⟨closed, same⟩ := closes_templateText closes tail
  have counted : (rest.take (templateText rest).1).length = (templateText rest).1 :=
    length_take_of_le (templateText_le rest)
  refine ⟨?_, ?_, .copied, ?_, ?_⟩
  · rw [take_append_drop, counted, reads s₀ rfl]
  · rw [← append_assoc, take_append_drop, counted, reads s frames, same]
  · split
    · exact opened
    · exact ended
  · rw [apply_ite Scan.frames, pushed]
    exact closed

section

variable (covers : Covers s₀ s)

include covers

theorem inStep_close
    (closing : c = '}' ∨ c = ')' ∨ c = ']') (closes : Closes s₀.frames (c :: rest)) :
    ∃ body after next₀ next, rest = body ++ after ∧
      InStep tail s₀ s c body after none none next₀ next := by
  have later := closes.tail closing
  have frames : s.frames = s₀.frames := covers.frames.symm
  by_cases inside : c = '}' ∧ s₀.frames.head? = some .substitution
  · rw [if_pos inside] at later
    have reads (s₁ : Scan) (same : s₁.frames = s₀.frames) (t : Text) :
        step s₁ c t = ((templateText t).1, none,
          if (templateText t).2 then s₁.close.enterSubstitution.mark '`'
          else s₁.close.mark '`') := by
      rw [← same] at inside
      rw [step_close closing, if_pos inside]
    exact ⟨_, _, _, _, (take_append_drop _ _).symm, inStep_template (·.close.mark '`')
      (·.close.enterSubstitution.mark '`') reads frames (covers.close.mark '`')
      (covers.close.enterSubstitution.mark '`') rfl later⟩
  · rw [if_neg inside] at later
    have reads (s₁ : Scan) (same : s₁.frames = s₀.frames) (t : Text) :
        step s₁ c t = (0, none, s₁.close.mark c) := by
      rw [← same] at inside
      rw [step_close closing, if_neg inside]
    exact ⟨[], rest, _, _, rfl, inStep_single (reads s₀ rfl rest) (reads s frames (rest ++ tail))
      (covers.close.mark c) later⟩

theorem inStep_delimiter (delimiter : c ∈ delimiters) (closes : Closes s₀.frames (c :: rest)) :
    ∃ body after next₀ next, rest = body ++ after ∧
      InStep tail s₀ s c body after none none next₀ next := by
  simp only [delimiters, mem_cons, not_mem_nil, or_false] at delimiter
  have split := literalTail_append c rest
  rcases delimiter with rfl | rfl | rfl | rfl | rfl | rfl | closing
  · exact ⟨_, _, _, _, split.symm, inStep_quote covers (.inl rfl) closes⟩
  · exact ⟨_, _, _, _, split.symm, inStep_quote covers (.inr rfl) closes⟩
  · exact ⟨_, _, _, _, (take_append_drop _ _).symm,
      inStep_template (fun s => s) Scan.enterSubstitution (fun _ _ _ => rfl) covers.frames.symm
        covers covers.enterSubstitution rfl (closes_cons_iff.1 closes)⟩
  · have later : Covers ((s₀.push (if s₀.afterArrow then .block else .object)).mark '{')
        ((s.push (if s.afterArrow then .block else .object)).mark '{') := by
      rw [covers.afterArrow]
      exact (covers.push _).mark '{'
    refine ⟨[], rest, _, _, rfl, inStep_single rfl rfl later ?_⟩
    have inner := closes_cons_iff.1 closes
    cases s₀.afterArrow <;> exact inner
  · have more : ∀ parameters, arrowParameters? ('(' :: rest) = some parameters →
        arrowParameters? ('(' :: (rest ++ tail)) = some parameters :=
      fun parameters found => arrowParameters?_append found tail
    refine ⟨[], rest, _, _, rfl, inStep_single rfl rfl
      (((covers.meetParameters more).push .paren).mark '(') ?_⟩
    have inner := closes_cons_iff.1 closes
    cases arrowParameters? ('(' :: rest) <;> exact inner
  · exact ⟨[], rest, _, _, rfl, inStep_single rfl rfl ((covers.push .square).mark '[')
      (closes_cons_iff.1 closes)⟩
  · exact inStep_close covers closing closes

theorem inStep_plain (plain : c ∉ delimiters) (start : isIdentStart c = false)
    (digit : c.isDigit = false) (closes : Closes s₀.frames (c :: rest)) :
    ∃ next₀ next, InStep tail s₀ s c [] rest none none next₀ next := by
  have single : ∀ d ∈ [c], d ∉ delimiters := by simpa using plain
  rw [← singleton_append, closes_append_iff single] at closes
  refine ⟨_, _, inStep_single (step_plain plain start digit s₀ rest)
    (step_plain plain start digit s (rest ++ tail)) ?_ ?_⟩
  · split
    · exact covers
    · split
      · exact covers.leaveArrows.mark c
      · exact covers.mark c
  · split
    · exact closes
    · split <;> exact closes

theorem exists_inStep (seen : isMemberAfter s₀.seen = isMemberAfter s.seen)
    (apart : Apart tail) (closes : Closes s₀.frames (c :: rest)) :
    ∃ body after use₀ use next₀ next, rest = body ++ after ∧
      InStep tail s₀ s c body after use₀ use next₀ next := by
  generalize whole : c :: rest = t at closes
  cases lead t with
  | nil => cases whole
  | @name name after named ended =>
    obtain ⟨d, body, rfl, -⟩ := exists_start named
    cases whole
    obtain ⟨use₀, use, next₀, next, inStep⟩ := inStep_name covers seen apart named ended closes
    exact ⟨body, after, use₀, use, next₀, next, rfl, inStep⟩
  | @number d body after digit inNumber ended =>
    cases whole
    obtain ⟨next₀, next, inStep⟩ := inStep_number covers apart digit inNumber ended closes
    exact ⟨body, after, none, none, next₀, next, rfl, inStep⟩
  | copied start digit =>
    cases whole
    by_cases plain : c ∈ delimiters
    · obtain ⟨body, after, next₀, next, split, inStep⟩ := inStep_delimiter covers plain closes
      exact ⟨body, after, none, none, next₀, next, split, inStep⟩
    · obtain ⟨next₀, next, inStep⟩ := inStep_plain covers plain start digit closes
      exact ⟨[], rest, none, none, next₀, next, rfl, inStep⟩

end

/-- Segments of the same text, of which the second may be bound by more arrow functions. -/
structure Segment.BindsMore (alone inside : Segment) : Prop where
  text : inside.text = alone.text
  use : Expression.BindsMore alone.use inside.use

/-- A scan that covers another one and has seen the same as far as member names go. -/
structure Tracks (s₀ s : Scan) : Prop extends Covers s₀ s where
  seen : ∀ more, isMemberAfter (more ++ s₀.seen) = isMemberAfter (more ++ s.seen)

theorem Tracks.read (h : Tracks s₀ s) (covers : Covers next₀ next) (text : Text) :
    Tracks { next₀ with seen := text ++ s₀.seen } { next with seen := text ++ s.seen } where
  toCovers := ⟨⟨covers.frames, covers.afterArrow, covers.previous⟩, covers.arrows, covers.ordered,
    covers.within⟩
  seen more := by simpa only [append_assoc] using h.seen (more ++ text)

theorem exists_bindsMore (apart : Apart tail) (tracks : Tracks s₀ s) (closes : Closes s₀.frames t) :
    ∃ items next, segmentsFrom s (t ++ tail) = items ++ segmentsFrom next tail ∧
      List.Forall₂ Segment.BindsMore (segmentsFrom s₀ t) items ∧ next.frames = [] := by
  induction length : t.length using Nat.strongRecOn generalizing t s₀ s with
  | _ n ih =>
    subst length
    cases t with
    | nil =>
      refine ⟨[], s, rfl, ?_, ?_⟩
      · rw [segmentsFrom]
        exact .nil
      · rw [← tracks.frames]
        exact closes.frames_eq_nil rfl
    | cons c rest =>
      obtain ⟨body, after, use₀, use, next₀, next, rfl, inStep⟩ :=
        exists_inStep tracks.toCovers (tracks.seen []) apart closes
      have alone := reads_of_step inStep.alone
      have inside := reads_of_step inStep.inside
      have shorter : after.length < (c :: (body ++ after)).length := by
        rw [length_cons, length_append]
        omega
      obtain ⟨items, last, read, binds, outside⟩ := ih after.length shorter
        (tracks.read inStep.covers (c :: body).reverse) inStep.closes rfl
      refine ⟨⟨c :: body, use⟩ :: items, last, ?_, ?_, outside⟩
      · rw [cons_append, append_assoc, inside.segments, read]
        rfl
      · rw [alone.segments]
        exact .cons ⟨rfl, inStep.binds⟩ binds

end SfcJsx.Expression
