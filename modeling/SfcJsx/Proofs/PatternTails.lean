import SfcJsx.Proofs.BindingPatterns

/-!
One level of a binding pattern as text: what is read of an element before and behind colons and of
an initial value, and what may stand behind a pattern when it is read.
-/

namespace SfcJsx

open List Text

variable {g inner t u : Text} {c : Char}

namespace Text.IsTrimmed

variable {s : Text} (trimmed : IsTrimmed s)

include trimmed

theorem trim_append (t : Text) : (s ++ t).trim = s ++ t.trimEnd := by
  obtain ⟨init, c, rfl⟩ := (eq_nil_or_concat s).resolve_left trimmed.ne
  have other : isBlank c = false := by simpa using trimmed.last
  have starts : (init.concat c ++ t).head?.any isBlank = false := by
    have head := trimmed.head
    cases init <;> simpa using head
  rw [trim, trimStart, dropWhile_of_head? starts]
  simp only [concat_eq_append, append_assoc, singleton_append]
  exact trimEnd_append other t

theorem trim_blanks_append {lead : Text} (blank : lead.isBlankText) (t : Text) :
    (lead ++ s ++ t).trim = s ++ t.trimEnd := by
  have starts : (s ++ t).head?.any isBlank = false := by
    obtain ⟨c, rest, rfl⟩ := exists_cons_of_ne_nil trimmed.ne
    exact trimmed.head
  rw [append_assoc, trim, Script.trimStart_blanks_append (all_eq_true.1 blank) starts,
    ← trimmed.trim_append, trim, trimStart, dropWhile_of_head? starts]

end Text.IsTrimmed

namespace Code

def elementNames (t : Text) : List Text := patternNames (bindingTarget (dropSpread t.trim))

theorem patternNames_of_not_enclosed (free : enclosed? t.trim = none) :
    patternNames t = if (dropDefault t.trim).isIdentifier then [dropDefault t.trim] else [] := by
  rw [patternNames]
  split
  · rfl
  · next found =>
    rw [free] at found
    cases found

theorem patternNames_nil : patternNames [] = [] := by
  rw [patternNames_of_not_enclosed rfl]
  rfl

theorem elementNames_of_trim (blank : t.trim = []) : elementNames t = [] := by
  have none : splitTop [':'] false [] = [] := by
    rw [splitTop, pieces]
    rfl
  rw [elementNames, blank, dropSpread, bindingTarget, none]
  · exact patternNames_nil
  · simp

theorem patternNames_of_enclosed (found : enclosed? t.trim = some inner) :
    patternNames t = (segments [','] false 0 none (pieces inner)).flatMap elementNames := by
  have kept (ts : List Text) : ((ts.map trim).filter (!·.isEmpty)).flatMap
      (fun element => patternNames (bindingTarget (dropSpread element))) =
        ts.flatMap elementNames := by
    induction ts with
    | nil => rfl
    | cons t ts ih =>
      rw [map_cons, flatMap_cons, ← ih]
      cases trimmed : t.trim with
      | nil => simp [elementNames_of_trim trimmed]
      | cons c rest => simp [elementNames, trimmed]
  rw [patternNames]
  split
  · next free =>
    rw [free] at found
    cases found
  · next inner' same =>
    rw [found] at same
    cases same
    rw [← kept, ← splitTop, flatMap_subtype fun _ _ => rfl, unattach_attach]

theorem patternNames_trim (t : Text) : patternNames t.trim = patternNames t := by
  cases found : enclosed? t.trim with
  | none =>
    rw [patternNames_of_not_enclosed found, patternNames_of_not_enclosed, trim_trim]
    rwa [trim_trim]
  | some inner =>
    rw [patternNames_of_enclosed found, patternNames_of_enclosed]
    rwa [trim_trim]

theorem dropDefault_of_not_mem (free : '=' ∉ t) : dropDefault t = t.trim := by
  have none := breakAt_append (beq_of_not_mem free) []
  rw [append_nil] at none
  rw [dropDefault, none]
  rfl

theorem dropDefault_initial {s rest : Text} (free : '=' ∉ s) (noArrow : rest.head? ≠ some '>') :
    dropDefault (s ++ '=' :: rest) = s.trim := by
  rw [dropDefault, breakAt_append (beq_of_not_mem free)]
  simp [breakAt, noArrow]

theorem not_isIdentifier_dropDefault {s : Text} (free : '=' ∉ s) (sign : c ≠ '=')
    (shown : isBlank c = false) (other : isIdentChar c = false) :
    (dropDefault (s ++ c :: u)).isIdentifier = false := by
  have trims (v : Text) : c ∈ trim (s ++ c :: v) := by
    rw [trim, trimStart_append_cons s shown, trimEnd_append shown]
    simp
  have stays : c ∈ dropDefault (s ++ c :: u) := by
    rw [show s ++ c :: u = (s ++ [c]) ++ u by simp, dropDefault,
      breakAt_append (beq_of_not_mem (by simpa using ⟨free, sign.symm⟩))]
    split
    · next before rest same =>
      obtain rfl := (Prod.mk.inj same).1
      split
      · simpa using trims u
      · simpa using trims (breakAt (· == '=') u).1
    · simpa using trims u
  refine Bool.eq_false_iff.2 fun named => ?_
  rw [isIdentChar_of_mem named c stays] at other
  cases other

theorem patternNames_of_mark {s : Text} (whole : t.trim = s ++ c :: u) (free : '=' ∉ s)
    (sign : c ≠ '=') (shown : isBlank c = false) (other : isIdentChar c = false)
    (open_ : enclosed? t.trim = none) : patternNames t = [] := by
  rw [patternNames_of_not_enclosed open_, whole, not_isIdentifier_dropDefault free sign shown other]
  rfl

def beforeColon (t : Text) : Text := (segments [':'] false 0 none (pieces t)).headD []

def behindColons (t : Text) : List Text :=
  ((segments [':'] false 0 none (pieces t)).tail.map trim).filter (!·.isEmpty)

/-- What is read of an element: the text behind its one colon, or else what `whole` gives. -/
def readBehind (t : Text) (whole : List Text) : List Text :=
  match behindColons t with
  | [target] => patternNames target
  | _ => whole

theorem segments_colon (t : Text) : ∃ rest,
    segments [':'] false 0 none (pieces t) = beforeColon t :: rest ∧
      behindColons t = (rest.map trim).filter (!·.isEmpty) := by
  obtain ⟨first, rest, read⟩ := exists_cons_of_ne_nil
    (segments_ne_nil 0 none (pieces t) : segments [':'] false 0 none (pieces t) ≠ [])
  exact ⟨rest, by rw [beforeColon, read]; rfl, by rw [behindColons, read]; rfl⟩

theorem splitTop_colon (shown : (beforeColon t).trim ≠ []) :
    splitTop [':'] false t = (beforeColon t).trim :: behindColons t := by
  obtain ⟨rest, read, behind⟩ := segments_colon t
  rw [splitTop, read, map_cons, filter_cons_of_pos (by simpa using shown), behind]

theorem patternNames_bindingTarget (shown : (beforeColon t).trim ≠ []) :
    patternNames (bindingTarget t) = readBehind t (patternNames t) := by
  rw [bindingTarget, splitTop_colon shown, readBehind]
  rcases behindColons t with _ | ⟨target, _ | ⟨other, rest⟩⟩ <;> rfl

theorem segments_behind {s : Text} (code : IsCode s) (whole : c ∉ outside s)
    (parts : Parts s t) : segments [c] false 0 none (pieces (s ++ t)) =
      segments.extend s (segments [c] false 0 none (pieces t)) := by
  rw [show pieces (s ++ t) = pieces s ++ pieces t from parts, segments_append code.level,
    segments_of_not_mem whole, flatten_pieces, segments_before [c] 0 (codeAfter none (pieces s))]
  rfl

theorem colons_append {s : Text} (code : IsCode s) (undivided : ':' ∉ outside s)
    (parts : Parts s t) :
    beforeColon (s ++ t) = s ++ beforeColon t ∧ behindColons (s ++ t) = behindColons t := by
  obtain ⟨rest, read, behind⟩ := segments_colon t
  have joined := segments_behind code undivided parts
  rw [read] at joined
  exact ⟨by rw [beforeColon, joined]; rfl, by rw [behindColons, joined, behind]; rfl⟩

theorem headD_extend (s : Text) (ts : List Text) :
    (segments.extend s ts).headD [] = s ++ ts.headD [] := by
  cases ts <;> simp [segments.extend]

theorem exists_beforeColon (t : Text) : ∃ u, t = beforeColon t ++ u ∧ Parts (beforeColon t) u := by
  have front (depth : Nat) (before : Option Char) (ps : List Piece) : ∃ qs rs, ps = qs ++ rs ∧
      (segments [':'] false depth before ps).headD [] = flatten qs := by
    induction ps generalizing depth before with
    | nil => exact ⟨[], [], rfl, rfl⟩
    | cons p ps ih =>
      rw [segments_cons]
      split
      · exact ⟨[], _, rfl, rfl⟩
      · obtain ⟨qs, rs, rfl, read⟩ := ih (nextDepth false depth before p) p.code?
        exact ⟨p :: qs, rs, rfl, by rw [headD_extend, read]; rfl⟩
  obtain ⟨qs, rs, read, first⟩ := front 0 none (pieces t)
  have whole : t = flatten qs ++ flatten rs := by
    rw [← flatten_append, ← read, flatten_pieces]
  refine ⟨flatten rs, by rw [beforeColon, first, ← whole], ?_⟩
  rw [beforeColon, first, Parts, ← whole, read, pieces_flatten_left read, pieces_flatten_right read]

def isCloser (c : Char) : Bool := c == '}' || c == ']'

def startsTail : Text → Bool
  | [] => true
  | c :: rest => if c = '=' then rest.head? != some '>' else isCloser c

/-- What may stand behind a pattern: blanks and an initial value, or the closing bracket of a
pattern around it with what follows that. -/
structure IsTail (t : Text) : Prop where
  settled : IsSettled t
  whole : ',' ∉ outside t
  starts : startsTail t.trimStart

/-- What may stand behind the last element of a pattern: nothing, or a closing bracket with what
follows it. -/
structure IsEdge (t : Text) : Prop where
  settled : IsSettled t
  whole : ',' ∉ outside t
  starts : t.head?.all isCloser

theorem isEdge_nil : IsEdge [] := by
  have none : pieces [] = [] := by rw [pieces]
  exact ⟨by simp [IsSettled, none], by simp [outside, none, outer], rfl⟩

theorem isPlain_of_isCloser (closer : isCloser c) :
    isPlain c ∧ c ≠ '*' ∧ isBlank c = false ∧ isIdentChar c = false ∧ c ≠ '=' := by
  simp only [isCloser, Bool.or_eq_true, beq_iff_eq] at closer
  rcases closer with rfl | rfl <;> decide

theorem IsEdge.parts (edge : IsEdge g) {s : Text} (settled : IsSettled s) : Parts s g := by
  cases g with
  | nil => simp [Parts, pieces]
  | cons c g =>
    obtain ⟨plain, noStar, -⟩ := isPlain_of_isCloser (by simpa using edge.starts)
    exact settled.parts_cons plain noStar g

theorem startsTail_of_append {s : Text} (starts : startsTail (s ++ u).trimStart) :
    startsTail s.trimStart := by
  rw [trimStart_append] at starts
  split at starts
  · next blank => rw [blank]; rfl
  · next shown =>
    obtain ⟨c, rest, whole⟩ := exists_cons_of_ne_nil shown
    rw [whole] at starts ⊢
    rw [cons_append, startsTail] at starts
    rw [startsTail]
    split
    · next sign =>
      rw [if_pos sign] at starts
      cases rest with
      | nil => rfl
      | cons d rest => exact starts
    · next sign => rwa [if_neg sign] at starts

theorem outside_subset_of_parts {s : Text} (parts : Parts s u) : outside s ⊆ outside (s ++ u) := by
  rw [outside, outside, show pieces (s ++ u) = pieces s ++ pieces u from parts]
  exact subset_outer_append false 0 none _ _

theorem IsTail.of_append {s : Text} (tail : IsTail (s ++ u)) (parts : Parts s u) : IsTail s := by
  refine ⟨fun p member => tail.settled p ?_,
    fun member => tail.whole (outside_subset_of_parts parts member),
    startsTail_of_append tail.starts⟩
  rw [show pieces (s ++ u) = pieces s ++ pieces u from parts]
  exact mem_append_left _ member

theorem parts_trimEnd (settled : IsSettled g) :
    ∃ blanks, g = g.trimEnd ++ blanks ∧ Parts g.trimEnd blanks := by
  obtain ⟨blanks, blank, whole⟩ := exists_trimEnd g
  rw [whole] at settled
  refine ⟨blanks, whole, ?_⟩
  rw [Parts, (settled.of_blanks blank).2,
    pieces_of_isPlain fun c member => isPlain_of_isBlank (blank c member)]

theorem outside_trimEnd_subset (settled : IsSettled g) : outside g.trimEnd ⊆ outside g := by
  obtain ⟨blanks, whole, parts⟩ := parts_trimEnd settled
  have wider := outside_subset_of_parts parts
  rwa [← whole] at wider

theorem IsTail.trimEnd (tail : IsTail g) : IsTail g.trimEnd := by
  obtain ⟨blanks, whole, parts⟩ := parts_trimEnd tail.settled
  rw [whole] at tail
  exact tail.of_append parts

theorem IsTail.beforeColon (tail : IsTail g) : IsTail (Code.beforeColon g) := by
  obtain ⟨u, whole, parts⟩ := exists_beforeColon g
  rw [whole] at tail
  exact tail.of_append parts

variable {kind : Kind}

theorem settled_cut (settled : IsSettled g) (found : before? [kind.closing] g.trimEnd = some inner)
    :
    IsSettled (kind.closing :: inner) ∧ outside (kind.closing :: inner) ⊆ outside g := by
  obtain ⟨blanks, whole, parts⟩ := parts_trimEnd settled
  have short : IsSettled g.trimEnd := by
    intro p member
    refine settled p ?_
    rw [whole, show pieces (g.trimEnd ++ blanks) = pieces g.trimEnd ++ pieces blanks from parts]
    exact mem_append_left _ member
  have ends := eq_append_of_before? found
  rw [ends] at short
  have other : isQuote kind.closing = false := by cases kind <;> rfl
  obtain ⟨inside, read⟩ := short.of_concat other
  have front : pieces (kind.closing :: inner) = .code kind.closing :: pieces inner :=
    pieces_cons_of_isPlain kind.isPlain_closing inner
  constructor
  · intro p member
    rw [front, mem_cons] at member
    rcases member with rfl | later
    · rfl
    · exact inside p later
  · -- A closing bracket at depth zero leaves the depth as it is.
    have stays : outer false 0 none (.code kind.closing :: pieces inner) =
        outer false 0 (some kind.closing) (pieces inner) := by cases kind <;> rfl
    have same : outside (kind.closing :: inner) = outside inner := by
      rw [outside, front, stays, outer_before 0 (some kind.closing), outside]
    have within : outside inner ⊆ outside g.trimEnd := by
      rw [ends, outside, outside, read]
      exact subset_outer_append false 0 none _ _
    rw [same]
    exact List.Subset.trans within (outside_trimEnd_subset settled)

theorem IsTail.cut (tail : IsTail g) (found : before? [kind.closing] g.trimEnd = some inner) :
    IsEdge (kind.closing :: inner) := by
  obtain ⟨settled, outside⟩ := settled_cut tail.settled found
  exact ⟨settled, fun member => tail.whole (outside member), by cases kind <;> rfl⟩

theorem IsEdge.tail {gap : Text} {initial : Option Text} (edge : IsEdge g) (blank : gap.isBlankText)
    (written : initial.all (fun value => decide (IsInitial value))) :
    IsTail (gap ++ initialText initial ++ g) := by
  have front : IsListed (gap ++ initialText initial) :=
    (isListed_blanks blank).append ((endsPlain_blanks blank).parts _) (isListed_initialText written)
  have parts := edge.parts front.code.settled
  refine ⟨front.code.settled.append parts edge.settled, ?_, ?_⟩
  · rw [outside_append front.code parts]
    exact fun member => (mem_append.1 member).elim front.whole edge.whole
  · rw [append_assoc]
    cases initial with
    | none =>
      cases g with
      | nil =>
        rw [initialText, Script.trimStart_blanks_append (all_eq_true.1 blank) rfl]
        rfl
      | cons c g =>
        have closer : isCloser c := edge.starts
        obtain ⟨-, -, shown, -, sign⟩ := isPlain_of_isCloser closer
        rw [initialText, nil_append, Script.trimStart_blanks_append
          (all_eq_true.1 blank) (by simpa using shown), startsTail, if_neg sign]
        exact closer
    | some value =>
      rw [initialText, cons_append,
        Script.trimStart_blanks_append (all_eq_true.1 blank) rfl, startsTail]
      have noArrow := (of_decide_eq_true written : IsInitial value).starts
      cases value with
      | nil =>
        cases g with
        | nil => rfl
        | cons c g =>
          have closer : isCloser c := edge.starts
          simp only [isCloser, Bool.or_eq_true, beq_iff_eq] at closer
          rcases closer with rfl | rfl <;> rfl
      | cons d value => simpa using noArrow

end Code

end SfcJsx
