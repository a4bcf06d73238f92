import SfcJsx.Jsx.Listener
import SfcJsx.Proofs.SeparatedCode

/-!
Joining the statements of a handler and splitting them again. A `;` behind a statement is read as
code unless the statement ends in a comment or a literal that is still open.
-/

namespace SfcJsx

open List Text

variable {code : Text} {ss : List Text}

namespace Jsx

open Code

variable {s t u v : Text}

/-- The lines of inline handler code, which are put together into statements. -/
def codeLines (code : Text) : List Text :=
  (splitTop [';'] false code).flatMap (splitTop ['\n'] false)

def spaced (line : Text) : Text :=
  (if line.startsWith "." || line.startsWith "?." then [] else " ") ++ line

theorem joinLines_nil (ne : s ≠ []) : joinLines s [] = [s] := if_neg (by simpa using ne)

theorem joinLines_cons (ne : s ≠ []) (line : Text) (rest : List Text) :
    joinLines s (line :: rest) = if continues s line then joinLines (s ++ spaced line) rest
      else s :: joinLines line rest := by
  rw [joinLines, if_neg (by simpa using ne), spaced, ← append_assoc]

theorem spaced_eq (t : Text) : spaced t = ' ' :: t ∨ spaced t = t ∧
    ∃ c u, t = c :: u ∧ isPlain c ∧ c ≠ '*' := by
  by_cases dotted : (t.startsWith "." || t.startsWith "?.")
  · refine .inr ⟨by rw [spaced, if_pos dotted]; rfl, ?_⟩
    rw [Bool.or_eq_true, startsWith_eq_true_iff, startsWith_eq_true_iff] at dotted
    rcases dotted with ⟨u, rfl⟩ | ⟨u, rfl⟩
    · exact ⟨'.', u, rfl, rfl, by decide⟩
    · exact ⟨'?', '.' :: u, rfl, rfl, by decide⟩
  · exact .inl (by rw [spaced, if_neg dotted]; rfl)

theorem isTrimmed_spaced (left : s.IsTrimmed) (right : t.IsTrimmed) :
    (s ++ spaced t).IsTrimmed := by
  rcases spaced_eq t with same | ⟨same, -⟩
  · rw [same]
    exact left.append [' '] right
  · rw [same]
    exact left.append [] right

section Joining

variable {P Q : Text → Prop} (filled : ∀ s, Q s → s ≠ [])
  (joined : ∀ s t, Q s → P s → Q t → Q (s ++ spaced t) ∧ (P t → P (s ++ spaced t)))

include filled joined

theorem pairwise_joinLines {lines others : List Text} (each : ∀ s ∈ t :: lines, Q s)
    (closed : (t :: (lines ++ others)).Pairwise fun s _ => P s) :
    (∀ s ∈ joinLines t lines, Q s) ∧ (joinLines t lines ++ others).Pairwise fun s _ => P s := by
  induction lines generalizing t with
  | nil =>
    rw [joinLines_nil (filled t (each t (by simp)))]
    exact ⟨each, closed⟩
  | cons line lines ih =>
    obtain ⟨here, later⟩ := forall_mem_cons.1 each
    obtain ⟨before, behind⟩ := pairwise_cons.1 closed
    have first : P t := before line (by simp)
    rw [joinLines_cons (filled t here)]
    split
    · obtain ⟨next, following⟩ := forall_mem_cons.1 later
      obtain ⟨whole, ends⟩ := joined t line here first next
      obtain ⟨early, late⟩ := pairwise_cons.1 behind
      exact ih (forall_mem_cons.2 ⟨whole, following⟩)
        (pairwise_cons.2 ⟨fun s member => ends (early s member), late⟩)
    · obtain ⟨all, apart⟩ := ih later behind
      exact ⟨forall_mem_cons.2 ⟨here, all⟩, pairwise_cons.2 ⟨fun _ _ => first, apart⟩⟩

theorem pairwise_statements (each : ∀ s ∈ codeLines code, Q s)
    (closed : (codeLines code).Pairwise fun s _ => P s) :
    (∀ s ∈ statements code, Q s) ∧ (statements code).Pairwise fun s _ => P s := by
  have joins {lines : List Text} (others : List Text) (each : ∀ s ∈ lines, Q s)
      (closed : (lines ++ others).Pairwise fun s _ => P s) : (∀ s ∈ joinLines [] lines, Q s) ∧
        (joinLines [] lines ++ others).Pairwise fun s _ => P s := by
    cases lines with
    | nil => exact ⟨by simp [joinLines], closed⟩
    | cons line lines =>
      rw [show joinLines [] (line :: lines) = joinLines line lines from rfl]
      exact pairwise_joinLines filled joined each closed
  rw [codeLines, pairwise_flatMap] at closed
  have inside (piece : Text) (member : piece ∈ splitTop [';'] false code) (s : Text)
      (line : s ∈ splitTop ['\n'] false piece) : Q s :=
    each s (mem_flatMap.2 ⟨piece, member, line⟩)
  constructor
  · intro s member
    obtain ⟨piece, listed, member⟩ := mem_flatMap.1 member
    exact (joins [] (inside piece listed) (by simpa using closed.1 piece listed)).1 s member
  · rw [statements, pairwise_flatMap]
    refine ⟨fun piece listed => ?_, ?_⟩
    · simpa using (joins [] (inside piece listed) (by simpa using closed.1 piece listed)).2
    · refine closed.2.imp_of_mem fun {piece next} listed _ before s member t behind => ?_
      obtain ⟨line, after⟩ : ∃ line, line ∈ splitTop ['\n'] false next := by
        refine exists_mem_of_ne_nil _ fun none => ?_
        rw [none] at behind
        cases behind
      have apart : (splitTop ['\n'] false piece ++ [line]).Pairwise fun s _ => P s :=
        pairwise_append.2 ⟨closed.1 piece listed, pairwise_singleton _ _,
          fun s member t last => before s member t (by rwa [mem_singleton.1 last])⟩
      exact (pairwise_append.1 (joins [line] (inside piece listed) apart).2).2.2 s member line
        (by simp)

omit joined in
/-- What holds of the lines and is kept by joining two of them holds of the statements. -/
theorem forall_mem_statements (joined : ∀ s t, Q s → Q t → Q (s ++ spaced t))
    (each : ∀ s ∈ codeLines code, Q s) : ∀ s ∈ statements code, Q s :=
  (pairwise_statements filled (P := fun _ => True) (fun s t left _ right =>
    ⟨joined s t left right, id⟩) each (pairwise_of_forall fun _ _ => trivial)).1

end Joining

/-- Code that a `;` behind it ends: its last literal and comment are closed, and its brackets. -/
@[mk_iff] structure IsShut (s : Text) : Prop where
  parts : Parts s [';']
  level : openBrackets s = 0

instance (s : Text) : Decidable (IsShut s) := decidable_of_iff' _ (isShut_iff s)

theorem IsShut.before (shut : IsShut s) {c : Char} (plain : isPlain c) (noStar : c ≠ '*')
    (t : Text) : Parts s (c :: t) :=
  shut.parts.before_plain (by decide) plain noStar t

/-- Code that is one line and one statement. -/
structure IsLine (s : Text) : Prop where
  trimmed : s.IsTrimmed
  single : ';' ∉ outside s
  oneLine : '\n' ∉ outside s

theorem isLine_of_mem_codeLines (member : s ∈ codeLines code) : IsLine s := by
  obtain ⟨piece, listed, line⟩ := mem_flatMap.1 member
  obtain ⟨-, single, -⟩ := (splitTop_inside (by decide) code).1 piece listed
  obtain ⟨trimmed, oneLine, inner, -⟩ := (splitTop_inside (by decide) piece).1 s line
  exact ⟨trimmed, fun listed => single (inner listed), oneLine⟩

theorem pairwise_codeLines (code : Text) :
    (codeLines code).Pairwise fun s _ => openBrackets s = 0 := by
  obtain ⟨-, levels⟩ := splitTop_inside (c := ';') (by decide) code
  have lines (piece : Text) := splitTop_inside (c := '\n') (by decide) piece
  refine pairwise_flatMap.2 ⟨fun piece _ => (lines piece).2, ?_⟩
  exact levels.imp fun level s line _ _ => ((lines _).1 s line).2.2.2 level

theorem IsLine.statements_eq (line : IsLine s) : statements s = [s] := by
  have same := line.trimmed.trim_self
  rw [statements, splitTop_whole line.single, same, if_neg line.trimmed.ne, flatMap_singleton,
    splitTop_whole line.oneLine, same, if_neg line.trimmed.ne]
  exact joinLines_nil line.trimmed.ne

theorem IsShut.spaced (left : IsShut s) (t u : Text) : Parts s (spaced t ++ u) := by
  rcases spaced_eq t with same | ⟨same, c, rest, whole, plain, noStar⟩
  · rw [same]
    exact left.before rfl (by decide) (t ++ u)
  · rw [same, whole]
    exact left.before plain noStar (rest ++ u)

theorem outside_spaced_subset (t : Text) :
    outside (spaced t) ⊆ ' ' :: outside t ∧ openBrackets (spaced t) = openBrackets t := by
  rcases spaced_eq t with same | ⟨same, -⟩
  · obtain ⟨front, level⟩ := outside_cons (c := ' ') rfl rfl t
    rw [same, front, level]
    exact ⟨fun _ member => member, rfl⟩
  · rw [same]
    exact ⟨subset_cons_self _ _, rfl⟩

theorem isLine_spaced (left : IsLine s) (shut : IsShut s) (right : IsLine t) :
    IsLine (s ++ spaced t) ∧ (IsShut t → IsShut (s ++ spaced t)) := by
  have parts : Parts s (spaced t) := by simpa using shut.spaced t []
  obtain ⟨shown, reached⟩ := parts.outside_append shut.level
  obtain ⟨inner, level⟩ := outside_spaced_subset t
  have apart {c : Char} (other : c ≠ ' ') (before : c ∉ outside s) (behind : c ∉ outside t) :
      c ∉ outside (s ++ spaced t) := by
    rw [shown]
    refine fun member => (mem_append.1 member).elim before fun later => ?_
    exact (mem_cons.1 (inner later)).elim other behind
  refine ⟨⟨isTrimmed_spaced left.trimmed right.trimmed, apart (by decide) left.single right.single,
    apart (by decide) left.oneLine right.oneLine⟩, fun ends => ⟨?_, ?_⟩⟩
  · have later : Parts (spaced t) [';'] := by
      rcases spaced_eq t with same | ⟨same, -⟩
      · rw [same, Parts, cons_append, pieces_cons_of_isPlain rfl, pieces_cons_of_isPlain rfl,
          ends.parts]
        rfl
      · rw [same]
        exact ends.parts
    rw [Parts, append_assoc, shut.spaced t [';'], later, parts, append_assoc]
  · rw [reached, level, ends.level]

theorem statements_cut (parts : Parts u (';' :: v)) (level : openBrackets u = 0) :
    statements (u ++ ';' :: v) = statements u ++ statements v := by
  rw [statements, splitTop_cut (by decide) parts level, flatMap_append]
  rfl

theorem statements_blank (t : Text) : statements (' ' :: t) = statements t := by
  rw [statements, splitTop_blank]
  rfl

theorem ink_joinLines (t : Text) (lines : List Text) :
    ink (joinLines t lines).flatten = t.ink ++ ink lines.flatten := by
  have shown (t : Text) : (spaced t).ink = t.ink := by
    rcases spaced_eq t with same | ⟨same, -⟩ <;> rw [same]
    rfl
  induction lines generalizing t with
  | nil =>
    by_cases empty : t = []
    · rw [empty]
      rfl
    · simp [joinLines_nil empty, ink]
  | cons line lines ih =>
    by_cases empty : t = []
    · rw [empty, List.flatten_cons, ink_append]
      exact ih line
    · rw [joinLines_cons empty, List.flatten_cons, ink_append]
      split
      · rw [ih, ink_append, shown, append_assoc]
      · rw [List.flatten_cons, ink_append, ih]

theorem ink_statements (single : ';' ∉ outside t) : ink (statements t).flatten = t.ink := by
  rw [statements, splitTop_whole single, ← ink_trim t]
  split
  · next empty => rw [empty]; rfl
  · rw [flatMap_singleton, ink_joinLines, ink_lines]
    rfl

structure StartsStatement (s : Text) : Prop where
  trimmed : s.IsTrimmed
  apart : s.head? ≠ some ';'

theorem startsStatement_of_mem (member : s ∈ statements code) : StartsStatement s := by
  have joined (s t : Text) (left : StartsStatement s) (right : StartsStatement t) :
      StartsStatement (s ++ spaced t) := by
    refine ⟨isTrimmed_spaced left.trimmed right.trimmed, ?_⟩
    obtain ⟨c, rest, rfl⟩ := exists_cons_of_ne_nil left.trimmed.ne
    exact left.apart
  have each (s : Text) (listed : s ∈ codeLines code) : StartsStatement s := by
    have line := isLine_of_mem_codeLines listed
    refine ⟨line.trimmed, fun starts => line.single ?_⟩
    obtain ⟨rest, rfl⟩ := head?_eq_some_iff.1 starts
    rw [(outside_cons rfl rfl rest).1]
    exact mem_cons_self
  exact forall_mem_statements (fun s starts => starts.trimmed.ne) joined each s member

theorem exists_ink_flatten (starts : ∀ s ∈ ss, StartsStatement s) :
    ss = [] ∨ ∃ d rest, d ≠ ';' ∧ ink ss.flatten = d :: rest := by
  cases ss with
  | nil => exact .inl rfl
  | cons s ss =>
    obtain ⟨⟨ne, head, -⟩, apart⟩ := starts s (by simp)
    obtain ⟨d, rest, rfl⟩ := exists_cons_of_ne_nil ne
    have shown : !isBlank d := by simpa using head
    exact .inr ⟨d, _, by simpa using apart, filter_cons_of_pos shown⟩

theorem eq_of_ink_eq {ms : List Text} (trimmed : s.IsTrimmed)
    (starts : ∀ m ∈ ms, StartsStatement m) (whole : s ++ ';' :: t = u ++ v)
    (kept : s.ink ++ ink ms.flatten = u.ink) : u = s ∧ ms = [] := by
  have behind := exists_ink_flatten starts
  have none (blank : ink ms.flatten = []) : ms = [] := behind.resolve_right fun read => by
    obtain ⟨d, rest, -, read⟩ := read
    cases blank.symm.trans read
  rcases append_eq_append_iff.1 whole with ⟨w, rfl, rest⟩ | ⟨w, rfl, rest⟩
  · rw [ink_append] at kept
    have same := append_cancel_left kept
    cases w with
    | nil => exact ⟨append_nil s, none same⟩
    | cons e w =>
      cases rest
      rcases behind with rfl | ⟨d, rest, other, read⟩
      · cases same
      · exact absurd (cons.inj (read.symm.trans same)).1 other
  · rw [ink_append, append_assoc] at kept
    obtain ⟨gone, last⟩ := append_eq_nil_iff.1 (append_right_eq_self.1 kept)
    rcases eq_nil_or_concat w with rfl | ⟨init, e, rfl⟩
    · exact ⟨(append_nil u).symm, none last⟩
    · have ends := trimmed.last
      exact absurd (by simpa using ends) (filter_eq_nil_iff.1 gone e (by simp))

theorem isShut_of_statements (starts : StartsStatement s) {more : List Text}
    (read : statements (s ++ ';' :: t) = s :: more) : IsShut s ∧ statements s = [s] := by
  -- The code up to the first `;`, or all of it.
  obtain ⟨u, v, others, whole, single, split, ends⟩ : ∃ u v others, s ++ ';' :: t = u ++ v ∧
      ';' ∉ outside u ∧ s :: more = statements u ++ others ∧
      (v = [] ∨ v.head? = some ';' ∧ Parts u v ∧ openBrackets u = 0) := by
    rcases exists_cut (c := ';') (by decide) (s ++ ';' :: t) with
      single | ⟨u, v, whole, parts, level, single⟩
    · exact ⟨_, [], [], by simp, single, by simpa using read.symm, .inl rfl⟩
    · refine ⟨u, ';' :: v, statements v, whole, single, ?_, .inr ⟨rfl, parts, level⟩⟩
      rw [← read, whole, statements_cut parts level]
  have kept := ink_statements single
  have each (m : Text) (member : m ∈ statements u) := startsStatement_of_mem member
  cases listed : statements u with
  | nil =>
    -- Code without statements is blank, and the first statement is not.
    rw [listed] at kept
    obtain ⟨d, tail, rfl⟩ := exists_cons_of_ne_nil starts.trimmed.ne
    cases u with
    | nil =>
      rw [nil_append] at whole
      rw [← whole] at ends
      rcases ends with none | ⟨apart, -⟩
      · cases none
      · exact absurd apart starts.apart
    | cons e u =>
      obtain ⟨rfl, -⟩ := cons.inj whole
      refine absurd ?_ (filter_eq_nil_iff.1 kept.symm d mem_cons_self)
      simpa using starts.trimmed.head
  | cons m ms =>
    rw [listed] at split kept each
    rw [List.flatten_cons, ink_append] at kept
    cases split
    obtain ⟨rfl, rfl⟩ := eq_of_ink_eq starts.trimmed (forall_mem_cons.1 each).2 whole kept
    obtain rfl := append_cancel_left whole
    rcases ends with none | ⟨-, parts, level⟩
    · cases none
    · exact ⟨⟨parts.before_plain (by decide) rfl (by decide) [], level⟩, listed⟩

theorem statements_intercalate_iff (starts : ∀ s ∈ ss, StartsStatement s) :
    statements (intercalate "; " ss) = ss ↔
      (∀ s ∈ ss, statements s = [s]) ∧ ss.Pairwise fun s _ => IsShut s := by
  induction ss with
  | nil => exact iff_of_true (by decide +kernel) ⟨by simp, .nil⟩
  | cons s ss ih =>
    cases ss with
    | nil => simp [intercalate_singleton]
    | cons next rest =>
      have joined : intercalate "; " (s :: next :: rest) =
          s ++ ';' :: ' ' :: intercalate "; " (next :: rest) := by
        rfl
      have split (shut : IsShut s) (alone : statements s = [s]) :
          statements (intercalate "; " (s :: next :: rest)) =
            s :: statements (intercalate "; " (next :: rest)) := by
        rw [joined, statements_cut (shut.before rfl (by decide) _) shut.level, statements_blank,
          alone]
        rfl
      rw [forall_mem_cons, pairwise_cons]
      constructor
      · intro read
        obtain ⟨shut, alone⟩ := isShut_of_statements (starts s (by simp)) (joined ▸ read)
        rw [split shut alone] at read
        obtain ⟨each, apart⟩ := (ih (forall_mem_cons.1 starts).2).1 (cons.inj read).2
        exact ⟨⟨alone, each⟩, fun _ _ => shut, apart⟩
      · rintro ⟨⟨alone, each⟩, shut, apart⟩
        rw [split (shut next (by simp)) alone, (ih (forall_mem_cons.1 starts).2).2 ⟨each, apart⟩]

/-- The statements of a handler, joined with `;` and split again, are the same where every line
before another is closed; the code behind a line comment or an open string would get lost. They are
the same exactly if each statement is read as one and a `;` ends each that another follows. -/
theorem statements_rejoined (code : Text) :
    ((codeLines code).Pairwise (fun line _ => Parts line [';']) →
      statements (List.intercalate "; " (statements code)) = statements code) ∧
    (statements (List.intercalate "; " (statements code)) = statements code ↔
      (∀ s ∈ statements code, statements s = [s]) ∧
        (statements code).Pairwise fun s _ => IsShut s) := by
  have reads := statements_intercalate_iff fun s (member : s ∈ statements code) =>
    startsStatement_of_mem member
  refine ⟨fun closed => reads.2 ?_, reads⟩
  have shut : (codeLines code).Pairwise fun s _ => IsShut s :=
    (closed.and (pairwise_codeLines code)).imp fun ends => ⟨ends.1, ends.2⟩
  obtain ⟨each, apart⟩ := pairwise_statements (fun s line => line.trimmed.ne)
    (fun s t left shut right => isLine_spaced left shut right)
    (fun s member => isLine_of_mem_codeLines member) shut
  exact ⟨fun s member => (each s member).statements_eq, apart⟩

def chainedCode : Text := "count++\nlog('a; b')\n  .then(f) // done"

theorem statements_rejoined_chained :
    (codeLines chainedCode).Pairwise (fun line _ => Parts line [';']) ∧
    statements chainedCode = (["count++", "log('a; b').then(f) // done"] : List Text) ∧
    statements (List.intercalate "; " (statements chainedCode)) = statements chainedCode := by
  have closed : (codeLines chainedCode).Pairwise fun line _ => Parts line [';'] := by
    decide +kernel
  exact ⟨closed, by decide +kernel, (statements_rejoined chainedCode).1 closed⟩

/-- The comment at the end of the first line swallows the second statement. -/
theorem statements_line_comment :
    statements "a() // first\nb()" = (["a() // first", "b()"] : List Text) ∧
    statements (List.intercalate "; " (statements "a() // first\nb()")) =
      (["a() // first; b()"] : List Text) := by
  decide +kernel

end Jsx

end SfcJsx
