import SfcJsx.Proofs.StatementStart

/-!
Splitting code at top level: the depth that brackets lead to, the characters outside them, and the
segments of code behind other code.
-/

namespace SfcJsx.Code

open List Piece

variable {c : Char} {t : Text}

variable {separators : List Char} {angles : Bool} {depth after : Nat} {before : Option Char}
  {p : Piece} {ps : List Piece}

/-- The depth behind pieces. There is none where a closing bracket has nothing to close. -/
def depthAfter (angles : Bool) (depth : Nat) (before : Option Char) : List Piece → Option Nat
  | [] => some depth
  | .code c :: ps =>
    if isOpening angles c then depthAfter angles (depth + 1) (some c) ps
    else if isClosing angles before c then
      if depth = 0 then none else depthAfter angles (depth - 1) (some c) ps
    else depthAfter angles depth (some c) ps
  | .literal _ :: ps | .comment _ :: ps => depthAfter angles depth none ps

/-- The depth behind pieces; a closing bracket that has nothing to close counts for nothing. -/
def depthBehind (angles : Bool) (depth : Nat) (before : Option Char) : List Piece → Nat
  | [] => depth
  | p :: ps => depthBehind angles (nextDepth angles depth before p) p.code? ps

def codeAfter (before : Option Char) : List Piece → Option Char
  | [] => before
  | .code c :: ps => codeAfter (some c) ps
  | .literal _ :: ps | .comment _ :: ps => codeAfter none ps

def outer (angles : Bool) (depth : Nat) (before : Option Char) : List Piece → Text
  | [] => []
  | .code c :: ps =>
    if isOpening angles c then outer angles (depth + 1) (some c) ps
    else if isClosing angles before c then outer angles (depth - 1) (some c) ps
    else if depth = 0 then c :: outer angles depth (some c) ps
    else outer angles depth (some c) ps
  | .literal _ :: ps | .comment _ :: ps => outer angles depth none ps

/-- Code with matching brackets; their kinds are not told apart. -/
def IsLevel (angles : Bool) (t : Text) : Prop := depthAfter angles 0 none (pieces t) = some 0

instance (angles : Bool) (t : Text) : Decidable (IsLevel angles t) :=
  inferInstanceAs (Decidable (depthAfter angles 0 none (pieces t) = some 0))

theorem depthAfter_cons : depthAfter angles depth before (p :: ps) =
    if p.isCloser angles before ∧ depth = 0 then none
    else depthAfter angles (nextDepth angles depth before p) p.code? ps := by
  cases p with
  | code c =>
    cases opens : isOpening angles c <;> cases closes : isClosing angles before c <;>
      simp [depthAfter, isCloser, code?, nextDepth, opens, closes]
  | literal | comment => rfl

theorem of_depthAfter_cons (reached : depthAfter angles depth before (p :: ps) = some after) :
    ¬ (p.isCloser angles before ∧ depth = 0) ∧
      depthAfter angles (nextDepth angles depth before p) p.code? ps = some after := by
  rw [depthAfter_cons] at reached
  split at reached
  · cases reached
  · next goesOn => exact ⟨goesOn, reached⟩

theorem depthBehind_of_depthAfter (reached : depthAfter angles depth before ps = some after) :
    depthBehind angles depth before ps = after := by
  induction ps generalizing depth before with
  | nil => exact Option.some.inj reached
  | cons p ps ih => exact ih (of_depthAfter_cons reached).2

theorem codeAfter_cons : codeAfter before (p :: ps) = codeAfter p.code? ps := by
  cases p <;> rfl

theorem outer_cons : outer angles depth before (p :: ps) =
    (if p.isOuter angles depth before then p.text else []) ++
      outer angles (nextDepth angles depth before p) p.code? ps := by
  cases p with
  | code c =>
    cases opens : isOpening angles c <;> cases closes : isClosing angles before c <;>
      cases depth <;>
      simp [outer, isOuter, isCloser, code?, text, nextDepth, opens, closes]
  | literal | comment =>
    rw [isOuter, code?, Option.any_none, Bool.and_false]
    rfl

theorem segments_ne_nil (depth : Nat) (before : Option Char) (ps : List Piece) :
    segments separators angles depth before ps ≠ [] := by
  have extended (t : Text) (ts : List Text) : segments.extend t ts ≠ [] := by
    cases ts <;> simp [segments.extend]
  fun_cases segments separators angles depth before ps <;> simp [extended]

/-- Joins the last of some texts to the first of others. -/
def glue : List Text → List Text → List Text
  | [], ts => ts
  | [last], ts => segments.extend last ts
  | s :: rest, ts => s :: glue rest ts

theorem glue_cons {ss : List Text} (ne : ss ≠ []) (s : Text) (ts : List Text) :
    glue (s :: ss) ts = s :: glue ss ts := by
  obtain ⟨first, rest, rfl⟩ := exists_cons_of_ne_nil ne
  rfl

theorem extend_extend (s t : Text) {ts : List Text} (ne : ts ≠ []) :
    segments.extend s (segments.extend t ts) = segments.extend (s ++ t) ts := by
  obtain ⟨first, rest, rfl⟩ := exists_cons_of_ne_nil ne
  simp [segments.extend]

theorem extend_glue {ss ts : List Text} (left : ss ≠ []) (right : ts ≠ []) (t : Text) :
    segments.extend t (glue ss ts) = glue (segments.extend t ss) ts := by
  obtain ⟨first, rest, rfl⟩ := exists_cons_of_ne_nil left
  cases rest with
  | nil => exact extend_extend t first right
  | cons second rest => rfl

theorem segments_append_depthBehind (depth : Nat) (before : Option Char) (ps qs : List Piece) :
    segments separators angles depth before (ps ++ qs) =
      glue (segments separators angles depth before ps)
        (segments separators angles (depthBehind angles depth before ps) (codeAfter before ps)
          qs) := by
  have some (depth : Nat) (before : Option Char) (qs : List Piece) :=
    @segments_ne_nil separators angles depth before qs
  induction ps generalizing depth before with
  | nil =>
    obtain ⟨first, rest, read⟩ := exists_cons_of_ne_nil (some depth before qs)
    simp [codeAfter, depthBehind, glue, segments, read, segments.extend]
  | cons p ps ih =>
    rw [cons_append, segments_cons, segments_cons, ih, codeAfter_cons, depthBehind]
    split
    · rw [glue_cons (some _ _ _)]
    · rw [extend_glue (some _ _ _) (some _ _ _)]

theorem segments_append (reached : depthAfter angles depth before ps = some after)
    (qs : List Piece) : segments separators angles depth before (ps ++ qs) =
      glue (segments separators angles depth before ps)
        (segments separators angles after (codeAfter before ps) qs) := by
  rw [segments_append_depthBehind, depthBehind_of_depthAfter reached]

theorem segments_eq_singleton (whole : ∀ c ∈ outer angles depth before ps, c ∉ separators) :
    segments separators angles depth before ps = [flatten ps] := by
  induction ps generalizing depth before with
  | nil => rfl
  | cons p ps ih =>
    rw [outer_cons] at whole
    have later := ih fun c member => whole c (mem_append_right _ member)
    rw [segments_cons, if_neg, later]
    · rfl
    · rintro ⟨shown, separates⟩
      rw [if_pos shown] at whole
      cases p with
      | code c => exact whole c (by simp [text]) (of_decide_eq_true separates).2
      | literal | comment => cases separates

theorem depthAfter_append (reached : depthAfter angles depth before ps = some after)
    (qs : List Piece) : depthAfter angles depth before (ps ++ qs) =
      depthAfter angles after (codeAfter before ps) qs := by
  induction ps generalizing depth before with
  | nil =>
    cases reached
    rfl
  | cons p ps ih =>
    obtain ⟨goesOn, later⟩ := of_depthAfter_cons reached
    rw [cons_append, depthAfter_cons, if_neg goesOn, ih later, codeAfter_cons]

theorem outer_append_depthBehind (depth : Nat) (before : Option Char) (ps qs : List Piece) :
    outer angles depth before (ps ++ qs) = outer angles depth before ps ++
      outer angles (depthBehind angles depth before ps) (codeAfter before ps) qs := by
  induction ps generalizing depth before with
  | nil => rfl
  | cons p ps ih =>
    rw [cons_append, outer_cons, outer_cons, ih, codeAfter_cons, depthBehind, append_assoc]

theorem outer_append (reached : depthAfter angles depth before ps = some after)
    (qs : List Piece) : outer angles depth before (ps ++ qs) =
      outer angles depth before ps ++ outer angles after (codeAfter before ps) qs := by
  rw [outer_append_depthBehind, depthBehind_of_depthAfter reached]

def isUnbracketed (c : Char) : Bool := !isOpening true c && !isClosing true none c

theorem isUnbracketed_spec (flat : isUnbracketed c) (angles : Bool)
    (before : Option Char) : isOpening angles c = false ∧ isClosing angles before c = false := by
  simp only [isUnbracketed, isOpening, isClosing, Bool.and_eq_true, Bool.not_eq_true',
    Bool.or_eq_false_iff, Bool.true_and] at flat ⊢
  simp_all

theorem depthAfter_map_code (flat : ∀ c ∈ t, isUnbracketed c) (depth : Nat)
    (before : Option Char) : depthAfter angles depth before (t.map .code) = some depth := by
  induction t generalizing before with
  | nil => rfl
  | cons c t ih =>
    obtain ⟨opens, closes⟩ := isUnbracketed_spec (flat c (by simp)) angles before
    rw [map_cons, depthAfter, opens, closes]
    exact ih (forall_mem_cons.1 flat).2 _

theorem outer_map_code (flat : ∀ c ∈ t, isUnbracketed c) (depth : Nat) (before : Option Char) :
    outer angles depth before (t.map .code) = if depth = 0 then t else [] := by
  induction t generalizing before with
  | nil => simp [outer]
  | cons c t ih =>
    obtain ⟨opens, closes⟩ := isUnbracketed_spec (flat c (by simp)) angles before
    rw [map_cons, outer, opens, closes, if_neg Bool.false_ne_true,
      if_neg Bool.false_ne_true, ih (forall_mem_cons.1 flat).2]
    split <;> rfl

theorem pieces_of_isPlain (plain : ∀ c ∈ t, isPlain c) : pieces t = t.map .code := by
  have read := pieces_append_of_isPlain plain []
  rwa [append_nil, pieces, append_nil] at read

/-- The separators at which code is split. -/
def marks : List Char := [';', ',', '\n']

theorem isPlain_of_mark (mark : c ∈ marks) : isPlain c :=
  all_eq_true.1 (show marks.all isPlain = true from rfl) c mark

theorem isUnbracketed_of_mark (mark : c ∈ marks) : isUnbracketed c :=
  all_eq_true.1 (show marks.all isUnbracketed = true from rfl) c mark

theorem isUnbracketed_of_any {p : Char → Bool} (inClass : p c)
    (apart : ['(', '[', '{', '<', ')', ']', '}', '>'].any p = false) : isUnbracketed c := by
  have other := Text.not_mem_of_any inClass apart
  simp only [mem_cons, not_mem_nil, or_false, not_or] at other
  simp [isUnbracketed, isOpening, isClosing, other]

theorem isUnbracketed_of_isBlank (blank : Text.isBlank c) :
    isUnbracketed c := isUnbracketed_of_any blank (by decide)

theorem isUnbracketed_of_isIdentChar (inName : Text.isIdentChar c) :
    isUnbracketed c := isUnbracketed_of_any inName (by decide)

/-- A text that is one part of a list: nothing outside its brackets separates it, and what follows
it does not become part of its last literal. -/
structure IsPart (separators : List Char) (angles : Bool) (t : Text) : Prop where
  trimmed : t.IsTrimmed
  level : IsLevel angles t
  whole : ∀ c ∈ outer angles 0 none (pieces t), c ∉ separators
  ends : ∀ c rest, isPlain c → c ≠ '*' → Parts t (c :: rest)

end SfcJsx.Code
