import Mathlib.Data.List.TakeWhile
import SfcJsx.Script.Local
import SfcJsx.Proofs.NameOccurrences
import SfcJsx.Proofs.SettledCode

/-!
The scan for declarations by the words of a text outside of brackets: where none of them starts a
variable, the scan reads word for word what each of them declares, and goes on behind the text.
-/

namespace SfcJsx

open List Text Code Piece

variable {s u x t : Text} {c : Char} {n m : Nat} {before : Option Char}

namespace Text

theorem leadingIdentifier_append (stops : u.head?.any isIdentChar = false) (t : Text) :
    leadingIdentifier (t ++ u) = leadingIdentifier t := by
  cases t with
  | nil =>
    cases u with
    | nil => rfl
    | cons c u =>
      rw [nil_append, leadingIdentifier.eq_2, isIdentStart_eq_false stops]
      rfl
  | cons c t =>
    rw [cons_append, leadingIdentifier, takeWhile_append_of_head? stops, leadingIdentifier]

theorem leadingIdentifier_self (named : x.isIdentifier) : x.leadingIdentifier = x := by
  obtain ⟨c, w, rfl, starts⟩ := exists_start named
  rw [leadingIdentifier, if_pos starts, takeWhile_eq_self_iff.2]
  exact fun d member => isIdentChar_of_mem named d (mem_cons_of_mem c member)

theorem exists_of_leadingIdentifier (word : t.leadingIdentifier.isEmpty = false) :
    t.leadingIdentifier.isIdentifier ∧ ∃ rest, t = t.leadingIdentifier ++ rest ∧
      rest.head?.any isIdentChar = false := by
  cases t with
  | nil => cases word
  | cons c t =>
    rw [leadingIdentifier] at word ⊢
    split
    · next starts =>
      refine ⟨?_, _, congrArg (c :: ·) takeWhile_append_dropWhile.symm, head?_dropWhile _ t⟩
      rw [isIdentifier, starts, all_takeWhile]
      rfl
    · next starts =>
      rw [if_neg starts] at word
      cases word

end Text

namespace Script.Local

def topWords (before : Option Char) (depth : Int) : Text → List Bool → List (Text × Text)
  | [], _ => []
  | c :: rest, flags =>
    if !flags.headD false then topWords (some c) depth rest flags.tail
    else
      let depth := depth + bracketStep c
      let word := leadingIdentifier (c :: rest)
      if depth ≠ 0 || before.any isIdentChar || word.isEmpty then
        topWords (some c) depth rest flags.tail
      else (word, rest.drop (word.length - 1)) :: topWords (some c) depth rest flags.tail

def isVariableWord (word : Text) : Bool :=
  decide (word = "const" ∨ word = "let" ∨ word = "var")

def isFunctionWord (word : Text) : Bool := decide (word = "function" ∨ word = "class")

def declared (tail : Text) (words : List (Text × Text)) : List Local :=
  words.filterMap fun word => (declare? word.1 (word.2 ++ tail)).map Prod.fst

theorem bracketStep_of_any {p : Char → Bool} (inClass : p c)
    (apart : ['{', '(', '[', '}', ')', ']'].any p = false) : bracketStep c = 0 := by
  have other := not_mem_of_any inClass apart
  simp only [mem_cons, not_mem_nil, or_false, not_or] at other
  simp [bracketStep, other]

theorem bracketStep_of_isIdentChar (inWord : isIdentChar c) :
    bracketStep c = 0 := bracketStep_of_any inWord (by decide)

theorem declare?_of_not_isVariableWord {word : Text} (other : isVariableWord word = false)
    (after : Text) : ∃ found : Option Local, declare? word after = found.map (·, 0) := by
  rw [declare?, if_neg (of_decide_eq_false other)]
  split
  · dsimp only
    split
    · exact ⟨none, rfl⟩
    · exact ⟨some _, rfl⟩
  · exact ⟨none, rfl⟩

theorem declared_cons (tail : Text) (word : Text × Text) (words : List (Text × Text)) :
    declared tail (word :: words) =
      ((declare? word.1 (word.2 ++ tail)).map Prod.fst).toList ++ declared tail words := by
  rw [declared, filterMap_cons]
  cases (declare? word.1 (word.2 ++ tail)).map Prod.fst <;> rfl

theorem topWords_letter (letter : isIdentChar c) (inWord : before.any isIdentChar)
    (depth : Int) (s : Text) (flag : Bool) (flags : List Bool) :
    topWords before depth (c :: s) (flag :: flags) = topWords (some c) depth s flags := by
  rw [topWords]
  cases flag <;> simp [bracketStep_of_isIdentChar letter, inWord]

theorem depthAfter_letter (letter : isIdentChar c) (depth : Int)
    (flag : Bool) (ms : Marked) : depthAfter depth ((c, flag) :: ms) = depthAfter depth ms := by
  cases flag <;> simp [depthAfter, bracketStep_of_isIdentChar letter]

theorem getLast?_cons_or (c : Char) (s : Text) (before : Option Char) :
    (c :: s).getLast?.or before = s.getLast?.or (some c) := by
  rw [getLast?_cons]
  cases s.getLast? <;> rfl

variable {depth : Int} {p : Piece} {ps : List Piece}

theorem scan_append (stops : u.head?.any isIdentChar = false) (gs : List Bool) {fs : List Bool}
    (long : fs.length = s.length) {skip : Nat} (short : skip ≤ s.length)
    (inWord : ∀ c ∈ s.take skip, isIdentChar c)
    (goesOn : 0 < skip → before.any isIdentChar)
    (calm : ∀ word ∈ topWords before depth s fs, isVariableWord word.1 = false) :
    scan before depth skip (s ++ u) (fs ++ gs) =
      declared u (topWords before depth s fs) ++
        scan (s.getLast?.or before) (depthAfter depth (s.zip fs)) 0 u gs := by
  induction s generalizing fs before depth skip with
  | nil =>
    obtain rfl : fs = [] := eq_nil_of_length_eq_zero long
    obtain rfl : skip = 0 := Nat.le_zero.1 short
    rfl
  | cons c s ih =>
    cases fs with
    | nil => cases long
    | cons flag fs =>
      have rest : fs.length = s.length := Nat.succ.inj long
      rw [getLast?_cons_or]
      cases skip with
      | succ skip =>
        have letter := inWord c (by simp)
        rw [topWords_letter letter (goesOn (Nat.succ_pos skip))] at calm ⊢
        rw [zip_cons_cons, depthAfter_letter letter]
        exact ih rest (Nat.le_of_succ_le_succ short) (forall_mem_cons.1 inWord).2
          (fun _ => letter) calm
      | zero =>
        cases flag with
        | false => exact ih rest (Nat.zero_le _) (by simp) (by simp) calm
        | true =>
          have word := leadingIdentifier_append stops (c :: s)
          rw [cons_append] at word
          simp only [cons_append, scan, topWords, headD_cons, tail_cons, word,
            Bool.not_true, Bool.false_eq_true, if_false] at calm ⊢
          split at calm
          · next passes =>
            rw [if_pos passes, if_pos passes]
            exact ih rest (Nat.zero_le _) (by simp) (by simp) calm
          · next starts =>
            rw [if_neg starts, if_neg starts]
            obtain ⟨named, t, whole, -⟩ := exists_of_leadingIdentifier
              (Bool.eq_false_iff.2 fun empty => starts (by rw [empty, Bool.or_true]))
            have letters := isIdentChar_of_mem named
            generalize leadingIdentifier (c :: s) = x at *
            obtain ⟨d, w, rfl, -⟩ := exists_start named
            obtain ⟨rfl, rfl⟩ : c = d ∧ s = w ++ t := cons.inj whole
            have later := @ih (some c) (depth + bracketStep c) fs rest w.length (by simp)
              (fun d member =>
                letters d (mem_cons_of_mem c (by rwa [take_left] at member)))
              (fun _ => letters c mem_cons_self)
              (forall_mem_cons.1 calm).2
            obtain ⟨found, read⟩ := declare?_of_not_isVariableWord (calm _ mem_cons_self) (t ++ u)
            rw [declared_cons]
            simp only [length_cons, Nat.add_sub_cancel, append_assoc, drop_left, read] at later ⊢
            cases found with
            | none => exact later
            | some found => exact congrArg (found :: ·) later

def pieceStep (p : Piece) : Int := p.code?.elim 0 bracketStep

theorem add_pieceStep (goesOn : ¬ (p.isCloser false before ∧ n = 0)) :
    (n : Int) + pieceStep p = nextDepth false n before p := by
  cases p with
  | code c =>
    have opens : (c = '{' ∨ c = '(' ∨ c = '[') ↔ isOpening false c := by
      simp only [isOpening, Bool.false_and, Bool.or_false, Bool.or_eq_true, beq_iff_eq]
      grind
    have closes : (c = '}' ∨ c = ')' ∨ c = ']') ↔ isClosing false before c := by
      simp only [isClosing, Bool.false_and, Bool.or_false, Bool.or_eq_true, beq_iff_eq]
      grind
    simp only [pieceStep, nextDepth, Piece.isCloser, code?, Option.elim_some,
      Option.any_some, bracketStep, opens, closes] at goesOn ⊢
    grind
  | literal | comment => exact Int.add_zero _

theorem depthAfter_piece (depth : Int) (p : Piece) (ps : List Piece) :
    depthAfter depth ((p :: ps).flatMap marks) =
      depthAfter (depth + pieceStep p) (ps.flatMap marks) := by
  have passes (t : Text) (ms : Marked) :
      depthAfter depth (t.map (·, false) ++ ms) = depthAfter depth ms := by
    induction t with
    | nil => rfl
    | cons c t ih => exact ih
  cases p with
  | code c => rfl
  | literal text | comment text =>
    exact (passes text _).trans (congrArg (depthAfter · _) (Int.add_zero depth).symm)

theorem depthAfter_marks (reached : Code.depthAfter false n before ps = some m) :
    depthAfter n (ps.flatMap marks) = m := by
  induction ps generalizing n before with
  | nil =>
    cases reached
    rfl
  | cons p ps ih =>
    obtain ⟨goesOn, later⟩ := of_depthAfter_cons reached
    rw [depthAfter_piece, add_pieceStep goesOn, ih later]

theorem depthAfter_mask (level : IsLevel false s) : depthAfter 0 (s.zip (mask s)) = 0 := by
  have chars : s.zip (mask s) = marked s := by
    have whole := map_fst_marked s
    rw [mask]
    nth_rewrite 1 [← whole]
    rw [zip_map']
    simp
  rw [chars]
  exact depthAfter_marks level

theorem topWords_unflagged (before : Option Char) (depth : Int) (t rest : Text)
    (flags : List Bool) : topWords before depth (t ++ rest) (t.map (fun _ => false) ++ flags) =
      topWords (t.getLast?.or before) depth rest flags := by
  induction t generalizing before with
  | nil => rfl
  | cons c t ih =>
    rw [getLast?_cons_or, ← ih]
    rfl

theorem topWords_piece (inside : depth + pieceStep p ≠ 0) (before : Option Char) (ps : List Piece)
    (rest : Text) (flags : List Bool) :
    topWords before depth (flatten (p :: ps) ++ rest)
        (((p :: ps).flatMap Piece.marks).map (·.2) ++ flags) =
      topWords (p.text.getLast?.or before) (depth + pieceStep p) (flatten ps ++ rest)
        ((ps.flatMap Piece.marks).map (·.2) ++ flags) := by
  cases other : p.isCode with
  | true =>
    cases p with
    | code c =>
      have deep : depth + bracketStep c ≠ 0 := inside
      simp [topWords, deep, pieceStep, Piece.code?, Piece.marks, Piece.text, Piece.isCode]
    | literal | comment => cases other
  | false =>
    have level : depth + pieceStep p = depth := by
      cases p with
      | code => cases other
      | literal | comment => exact Int.add_zero _
    rw [level, ← topWords_unflagged, Code.flatten_cons, append_assoc, flatMap_cons,
      Piece.marks, other, map_append, map_map, append_assoc]
    rfl

theorem topWords_inside {last : Option Char}
    (reached : Code.depthAfter false n last ps = some m) (before : Option Char) (rest : Text)
    (flags : List Bool) : ∃ before', topWords before (n + 1) (flatten ps ++ rest)
        ((ps.flatMap marks).map (·.2) ++ flags) =
      topWords before' (m + 1) rest flags := by
  induction ps generalizing n last before with
  | nil =>
    cases reached
    exact ⟨before, rfl⟩
  | cons p ps ih =>
    obtain ⟨goesOn, later⟩ := of_depthAfter_cons reached
    have next : (n : Int) + 1 + pieceStep p = nextDepth false n last p + 1 := by
      rw [← add_pieceStep goesOn]
      omega
    rw [topWords_piece (by omega), next]
    exact ih later _

def wordsOf (t : Text) : List (Text × Text) := topWords none 0 t (mask t)

theorem topWords_before (apart : before.any isIdentChar = false) (depth : Int) (t : Text)
    (flags : List Bool) : topWords before depth t flags = topWords none depth t flags := by
  cases t with
  | nil => rfl
  | cons c t => rw [topWords, apart]; rfl

theorem scan_code (code : IsCode s) (parts : Parts s u)
    (stops : u.head?.any isIdentChar = false) (apart : before.any isIdentChar = false)
    (calm : ∀ word ∈ wordsOf s, isVariableWord word.1 = false) :
    scan before 0 0 (s ++ u) (mask (s ++ u)) =
      declared u (wordsOf s) ++ scan (s.getLast?.or before) 0 0 u (mask u) := by
  rw [parts.mask_append, scan_append stops (mask u) (length_mask s) (Nat.zero_le _)
    (by simp) (by simp), depthAfter_mask code.level, topWords_before apart, wordsOf]
  rwa [topWords_before apart]

theorem ofBody_code (code : IsCode s) (calm : ∀ word ∈ wordsOf s, isVariableWord word.1 = false) :
    ofBody s = declared [] (wordsOf s) := by
  have parts : Parts s [] := by simp [Parts, pieces]
  have read : scan none 0 0 (s ++ []) _ = _ := scan_code code parts rfl rfl calm
  rwa [append_nil, scan, append_nil] at read

def isMark (c : Char) : Bool :=
  isPlain c && !isIdentStart c && decide (bracketStep c = 0)

theorem isMark_of_isBlank (blank : isBlank c) : isMark c := by
  rw [isMark, isPlain_of_isBlank blank, bracketStep_of_any blank (by decide),
    isIdentStart_eq_false (isIdentChar_of_isBlank blank)]
  rfl

theorem scan_marks (marks : s.all isMark = true) (before : Option Char) (u : Text) :
    scan before 0 0 (s ++ u) (mask (s ++ u)) =
      scan (s.getLast?.or before) 0 0 u (mask u) := by
  induction s generalizing before with
  | nil => rfl
  | cons c s ih =>
    rw [all_cons, Bool.and_eq_true] at marks
    obtain ⟨mark, later⟩ := marks
    simp only [isMark, Bool.and_eq_true, Bool.not_eq_true', decide_eq_true_eq] at mark
    obtain ⟨⟨plain, start⟩, level⟩ := mark
    have flags : mask (c :: (s ++ u)) = true :: mask (s ++ u) := by
      rw [mask, marked, pieces_cons_of_isPlain plain]
      rfl
    rw [getLast?_cons_or, ← ih later, cons_append, flags]
    simp [scan, leadingIdentifier, start, level]

theorem scan_skip (before : Option Char) (depth : Int) (skip : Nat) (t : Text) (flags : List Bool) :
    scan before depth skip t flags =
      scan ((t.take skip).getLast?.or before) depth 0 (t.drop skip) (flags.drop skip) := by
  induction skip generalizing before t flags with
  | zero => rfl
  | succ skip ih =>
    cases t with
    | nil => simp [scan]
    | cons c t =>
      rw [take_succ_cons, getLast?_cons_or, drop_succ_cons, ← drop_tail, ← ih]
      rfl

theorem scan_word (named : x.isIdentifier)
    (stops : t.head?.any isIdentChar = false) (apart : before.any isIdentChar = false)
    {flags : List Bool} (code : flags.headD false) : scan before 0 0 (x ++ t) flags =
      ((declare? x t).map Prod.fst).toList ++
        scan before 0 (x.length + (declare? x t).elim 0 Prod.snd) (x ++ t) flags := by
  have word := leadingIdentifier_append stops x
  rw [leadingIdentifier_self named] at word
  obtain ⟨c, w, rfl, starts⟩ := exists_start named
  have level := bracketStep_of_isIdentChar (isIdentChar_of_isIdentStart starts)
  rw [cons_append] at word
  rw [cons_append, length_cons, Nat.add_right_comm, scan, scan]
  simp only [code, level, word, apart, Bool.not_true, Bool.false_eq_true, if_false, Int.add_zero,
    ne_eq, not_true_eq_false, decide_false, Bool.or_false, isEmpty_cons, length_cons,
    Nat.add_sub_cancel, drop_left]
  rcases declare? (c :: w) t with _ | ⟨found, length⟩ <;> rfl

theorem scan_passed (parts : Parts s u) (before : Option Char) :
    scan before 0 s.length (s ++ u) (mask (s ++ u)) =
      scan (s.getLast?.or before) 0 0 u (mask u) := by
  rw [scan_skip, take_left, drop_left, parts.mask_append, drop_mask_append]

theorem headD_mask (named : x.isIdentifier) (u : Text) : (mask (x ++ u)).headD false := by
  obtain ⟨c, w, rfl, starts⟩ := exists_start named
  rw [cons_append, mask, marked, pieces_cons_of_isPlain
    (isPlain_of_isIdentChar (isIdentChar_of_isIdentStart starts))]
  rfl

theorem scan_declaration {found : Local} (named : x.isIdentifier)
    (declares : declare? x (s ++ u) = some (found, s.length))
    (stops : (s ++ u).head?.any isIdentChar = false) (ends : EndsPlain (x ++ s))
    (apart : before.any isIdentChar = false) :
    scan before 0 0 (x ++ (s ++ u)) (mask (x ++ (s ++ u))) =
      found :: scan ((x ++ s).getLast?.or before) 0 0 u (mask u) := by
  rw [scan_word named stops apart (headD_mask named _), declares, Option.elim_some,
    ← append_assoc, ← length_append, scan_passed (ends.parts u)]
  rfl

theorem scan_name (named : x.isIdentifier) (none : declare? x u = none)
    (stops : u.head?.any isIdentChar = false) (apart : before.any isIdentChar = false) :
    scan before 0 0 (x ++ u) (mask (x ++ u)) =
      scan (x.getLast?.or before) 0 0 u (mask u) := by
  have ends := endsPlain_of_isIdentChar (isIdentChar_of_mem named)
  rw [scan_word named stops apart (headD_mask named _), none, Option.elim_none, Nat.add_zero,
    scan_passed (ends.parts u)]
  rfl

end Script.Local

end SfcJsx
