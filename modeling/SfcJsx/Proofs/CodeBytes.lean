import SfcJsx.Proofs.CalleeContext
import SfcJsx.Proofs.LineStarts

/-!
Code read by its bytes. The scans look only at characters of a single byte, and no byte of a longer
character is one of these. So a scan of bytes passes over the bytes of such a character one by one,
also behind a backslash, and ends where the scan of the characters ends.
-/

namespace SfcJsx

open List Text

variable {c quote : Char} {t w e sought : Text}

namespace Text

/-- The bytes of a text, each as the character of its number. -/
def encoded (t : Text) : Text := t.bytes.map Char.ofUInt8

def IsWide (c : Char) : Prop := 128 ≤ c.toNat

instance (c : Char) : Decidable (IsWide c) := inferInstanceAs (Decidable (128 ≤ c.toNat))

@[simp] theorem encoded_nil : encoded [] = [] := rfl

theorem encoded_append (s t : Text) : encoded (s ++ t) = encoded s ++ encoded t := by
  simp [encoded, bytes]

theorem length_encoded (t : Text) : (encoded t).length = t.width := by
  rw [encoded, length_map, length_bytes]

theorem encoded_cases (c : Char) : ¬ IsWide c ∧ encoded [c] = [c] ∨
    IsWide c ∧ encoded [c] ≠ [] ∧ ∀ d ∈ encoded [c], IsWide d := by
  have single : encoded [c] = (String.utf8EncodeChar c).map Char.ofUInt8 := by
    simp [encoded, bytes]
  by_cases wide : IsWide c
  · refine .inr ⟨wide, fun none => ?_, fun d member => ?_⟩
    · have := congrArg length none
      have := c.utf8Size_pos
      simp [length_encoded] at *
      omega
    · rw [single, mem_map] at member
      obtain ⟨b, member, rfl⟩ := member
      show 128 ≤ b.toNat
      rcases LineIndex.toNat_of_mem_utf8EncodeChar member with same | high
      · rwa [same]
      · exact high
  · refine .inl ⟨wide, ?_⟩
    rw [IsWide, Nat.not_le] at wide
    have size : c.utf8Size = 1 := by
      rw [Char.utf8Size_eq_one_iff, UInt32.le_iff_toNat_le]
      exact Nat.le_of_lt_succ wide
    have byte : Char.ofUInt8 c.val.toUInt8 = c := by
      apply Char.toNat_inj.1
      show c.val.toUInt8.toUInt32.toNat = c.toNat
      simp only [UInt8.toNat_toUInt32, UInt32.toNat_toUInt8, Char.toNat_val]
      omega
    rw [single, String.utf8EncodeChar_eq_singleton size, map_singleton, byte]

theorem encoded_induction {motive : Text → Text → Prop} (nil : motive [] [])
    (narrow : ∀ c t, ¬ IsWide c → motive t (encoded t) → motive (c :: t) (c :: encoded t))
    (wide : ∀ c t w, IsWide c → w ≠ [] → (∀ d ∈ w, IsWide d) → encoded [c] = w →
      motive t (encoded t) → motive (c :: t) (w ++ encoded t)) (t : Text) :
    motive t (encoded t) := by
  induction t with
  | nil => exact nil
  | cons c t ih =>
    rw [show encoded (c :: t) = encoded [c] ++ encoded t from encoded_append [c] t]
    rcases encoded_cases c with ⟨single, same⟩ | ⟨long, ne, inside⟩
    · rw [same]
      exact narrow c t single ih
    · exact wide c t _ long ne inside rfl ih

theorem encoded_cons (narrow : ¬ IsWide c) (t : Text) : encoded (c :: t) = c :: encoded t := by
  rw [show encoded (c :: t) = encoded [c] ++ encoded t from encoded_append [c] t,
    ((encoded_cases c).resolve_right fun long => narrow long.1).2]
  rfl

theorem ne_of_isWide {d : Char} (wide : IsWide c) (narrow : ¬ IsWide d) : c ≠ d := by
  rintro rfl
  exact narrow wide

theorem not_mem_of_isWide {cs : List Char} (wide : IsWide c)
    (narrow : cs.any (fun a => decide (IsWide a)) = false) : c ∉ cs :=
  not_mem_of_any (decide_eq_true wide) narrow

theorem head?_encoded {a : Char} (narrow : ¬ IsWide a) (t : Text) :
    (encoded t).head? = some a ↔ t.head? = some a := by
  induction t using encoded_induction with
  | nil => rfl
  | narrow c t => rfl
  | wide c t w wide ne inside =>
    obtain ⟨d, w, rfl⟩ := exists_cons_of_ne_nil ne
    simp [ne_of_isWide wide narrow, ne_of_isWide (inside d mem_cons_self) narrow]

theorem dropWhile_encoded {p : Char → Bool} (alike : ∀ c d, IsWide c → IsWide d → p c = p d)
    (t : Text) : (encoded t).dropWhile p = encoded (t.dropWhile p) := by
  induction t using encoded_induction with
  | nil => rfl
  | narrow c t narrow ih =>
    rw [dropWhile_cons, dropWhile_cons, ih]
    split
    · rfl
    · exact (encoded_cons narrow t).symm
  | wide c t w wide ne inside single ih =>
    rw [dropWhile_cons]
    split
    · next holds =>
      rw [dropWhile_append_of_pos, ih]
      exact fun d member => (alike d c (inside d member) wide).trans holds
    · next fails =>
      obtain ⟨d, w, rfl⟩ := exists_cons_of_ne_nil ne
      rw [cons_append, dropWhile_cons_of_neg, ← cons_append, ← single, ← encoded_append]
      · rfl
      · rwa [alike d c (inside d mem_cons_self) wide]

theorem after?_encoded (narrow : ∀ c ∈ sought, ¬ IsWide c) (t : Text) :
    after? sought (encoded t) = (after? sought t).map encoded := by
  induction sought generalizing t with
  | nil => cases t <;> rfl
  | cons a sought ih =>
    obtain ⟨here, later⟩ := forall_mem_cons.1 narrow
    induction t using encoded_induction with
    | nil => rfl
    | narrow c t =>
      rw [after?, after?, ih later]
      split <;> rfl
    | wide c t w wide ne inside =>
      obtain ⟨d, w, rfl⟩ := exists_cons_of_ne_nil ne
      rw [cons_append, after?, after?, if_neg (ne_of_isWide wide here).symm,
        if_neg (ne_of_isWide (inside d mem_cons_self) here).symm]
      rfl

theorem cut?_wide (ne : sought ≠ []) (narrow : ∀ c ∈ sought, ¬ IsWide c)
    (inside : ∀ d ∈ w, IsWide d) (e : Text) :
    (cut? sought (w ++ e)).map Prod.snd = (cut? sought e).map Prod.snd := by
  induction w with
  | nil => rfl
  | cons d w ih =>
    obtain ⟨here, later⟩ := forall_mem_cons.1 inside
    obtain ⟨a, tail, rfl⟩ := exists_cons_of_ne_nil ne
    rw [← ih later, cons_append, cut?, after?,
      if_neg (ne_of_isWide here (narrow a mem_cons_self)).symm, Option.map_map]
    rfl

theorem cut?_encoded (ne : sought ≠ []) (narrow : ∀ c ∈ sought, ¬ IsWide c) (t : Text) :
    (cut? sought (encoded t)).map Prod.snd = (cut? sought t).map fun found => encoded found.2 := by
  induction t using encoded_induction with
  | nil =>
    obtain ⟨a, tail, rfl⟩ := exists_cons_of_ne_nil ne
    rfl
  | narrow c t single ih =>
    have first := after?_encoded narrow (c :: t)
    rw [encoded_cons single] at first
    rw [cut?, cut?, first]
    cases after? sought (c :: t) with
    | some => rfl
    | none =>
      simp only [Option.map_none, Option.map_map]
      exact ih
  | wide c t w wide some inside single ih =>
    have alone : ∀ d ∈ [c], IsWide d := by simpa using wide
    rw [cut?_wide ne narrow inside, ih]
    have := congrArg (Option.map encoded) (cut?_wide ne narrow alone t)
    simpa [Function.comp_def] using this.symm

end Text

namespace Code

theorem literalTail_wide (narrow : ¬ IsWide quote) (inside : ∀ d ∈ w, IsWide d) (e : Text) :
    (literalTail quote (w ++ e)).2 = (literalTail quote e).2 := by
  induction w with
  | nil => rfl
  | cons d w ih =>
    obtain ⟨here, later⟩ := forall_mem_cons.1 inside
    have other {a : Char} (single : ¬ IsWide a) : d ≠ a := ne_of_isWide here single
    rw [cons_append, literalTail_cons (other (by decide)), if_neg (other narrow),
      if_neg fun both => other (by decide) both.1, ih later]

theorem eq_encoded_of_snd {read found : Text × Text} (whole : read.1 ++ read.2 = encoded t)
    (split : found.1 ++ found.2 = t) (same : read.2 = encoded found.2) :
    read = (encoded found.1, encoded found.2) := by
  rw [← split, encoded_append, same] at whole
  exact Prod.ext (append_cancel_right whole) same

theorem not_isWide_of_isQuote (quoted : isQuote quote) : ¬ IsWide quote ∧ quote ≠ '\\' := by
  simp only [isQuote, Bool.or_eq_true, beq_iff_eq] at quoted
  rcases quoted with (rfl | rfl) | rfl <;> decide

theorem literalTail_encoded (quoted : isQuote quote) (t : Text) : literalTail quote (encoded t) =
    (encoded (literalTail quote t).1, encoded (literalTail quote t).2) := by
  obtain ⟨narrow, plain⟩ := not_isWide_of_isQuote quoted
  have split (c : Char) (rest : Text) : encoded (c :: rest) = encoded [c] ++ encoded rest :=
    encoded_append [c] rest
  refine eq_encoded_of_snd (literalTail_append _ _) (literalTail_append _ t) ?_
  fun_induction literalTail quote t with
  | case1 => rfl
  | case2 c rest body after read ih =>
    rw [read] at ih
    rw [encoded_cons (by decide), ← ih]
    rcases encoded_cases c with ⟨single, -⟩ | ⟨-, ne, inside⟩
    · rw [encoded_cons single]
      rfl
    · obtain ⟨d, w, first⟩ := exists_cons_of_ne_nil ne
      rw [first] at inside
      rw [split, first]
      exact literalTail_wide narrow (forall_mem_cons.1 inside).2 _
  | case3 rest => rw [encoded_cons narrow, literalTail_cons plain, if_pos rfl]
  | case4 c rest escaped other broken =>
    obtain ⟨rfl, template⟩ := broken
    rw [encoded_cons (by decide), literalTail_cons (by decide), if_neg other,
      if_pos ⟨rfl, template⟩]
  | case5 c rest escaped other broken body after read ih =>
    rw [read] at ih
    rw [← ih]
    by_cases escape : c = '\\'
    · subst escape
      cases rest with
      | cons d rest => exact (escaped d rest rfl rfl).elim
      | nil =>
        rw [encoded_cons (by decide)]
        simp [literalTail, other]
    rcases encoded_cases c with ⟨single, -⟩ | ⟨-, -, inside⟩
    · rw [encoded_cons single, literalTail_cons escape, if_neg other, if_neg broken]
    · rw [split, literalTail_wide narrow inside]

theorem blockTail_encoded (t : Text) :
    blockTail (encoded t) = (encoded (blockTail t).1, encoded (blockTail t).2) := by
  refine eq_encoded_of_snd (blockTail_append _) (blockTail_append t) ?_
  have found := @cut?_encoded "*/".toList (by decide) (by simp [IsWide]) t
  unfold blockTail
  cases read : cut? "*/".toList t <;> cases read' : cut? "*/".toList (encoded t) <;>
    simp_all

theorem line_encoded (t : Text) :
    (encoded t).takeWhile (· != '\n') = encoded (t.takeWhile (· != '\n')) ∧
      (encoded t).dropWhile (· != '\n') = encoded (t.dropWhile (· != '\n')) := by
  have wide {c : Char} (wide : IsWide c) : (c != '\n') = true :=
    bne_iff_ne.2 (ne_of_isWide wide (by decide))
  have rest := dropWhile_encoded (p := (· != '\n'))
    (fun c d left right => (wide left).trans (wide right).symm) t
  exact Prod.mk.inj (@eq_encoded_of_snd t (_, _) (_, _) takeWhile_append_dropWhile
    takeWhile_append_dropWhile rest)

def Piece.encode : Piece → List Piece
  | code c => (encoded [c]).map code
  | literal text => [literal (encoded text)]
  | comment text => [comment (encoded text)]

theorem lead_encoded (narrow : ¬ IsWide c) (rest : Text) : ∃ p, (lead c rest).1.encode = [p] ∧
    lead c (encoded rest) = (p, encoded (lead c rest).2) := by
  have slash := head?_encoded (a := '/') (by decide) rest
  have star := head?_encoded (a := '*') (by decide) rest
  unfold lead
  simp only [slash, star]
  split
  · next quoted =>
    rw [literalTail_encoded quoted]
    exact ⟨_, rfl, by rw [encoded_cons narrow]⟩
  · split
    · rw [(line_encoded rest).1, (line_encoded rest).2]
      exact ⟨_, rfl, by rw [encoded_cons narrow]⟩
    · split
      · next block =>
        obtain ⟨rest, rfl⟩ := head?_eq_some_iff.1 block.2
        rw [encoded_cons (c := '*') (by decide), tail_cons, tail_cons, blockTail_encoded]
        exact ⟨_, rfl, by rw [encoded_cons narrow, encoded_cons (by decide)]⟩
      · exact ⟨_, by rw [Piece.encode, encoded_cons narrow]; rfl, rfl⟩

theorem isPlain_of_isWide (wide : IsWide c) : isPlain c ∧ isUnbracketed c :=
  have inClass : decide (IsWide c) = true := decide_eq_true wide
  ⟨isPlain_of_any (p := (IsWide ·)) inClass (by decide),
    isUnbracketed_of_any (p := (IsWide ·)) inClass (by decide)⟩

theorem pieces_encoded (t : Text) : pieces (encoded t) = (pieces t).flatMap Piece.encode := by
  fun_induction pieces t with
  | case1 => simp [pieces]
  | case2 c rest ih =>
    rw [flatMap_cons, ← ih]
    rcases encoded_cases c with ⟨narrow, -⟩ | ⟨wide, -, inside⟩
    · obtain ⟨p, encode, read⟩ := lead_encoded narrow rest
      rw [encoded_cons narrow, pieces, read, encode]
      rfl
    · have alone := lead_of_isPlain (isPlain_of_isWide wide).1 rest
      rw [alone, show encoded (c :: rest) = encoded [c] ++ encoded rest from
        encoded_append [c] rest]
      exact pieces_append_of_isPlain (fun d member => (isPlain_of_isWide (inside d member)).1) _

theorem flatten_encode (ps : List Piece) :
    flatten (ps.flatMap Piece.encode) = encoded (flatten ps) := by
  induction ps with
  | nil => rfl
  | cons p ps ih =>
    rw [flatMap_cons, flatten_append, ih, flatten_cons, encoded_append]
    cases p with
    | code c => simp [Piece.encode, Piece.text, flatten, flatMap_map]
    | literal | comment => simp [Piece.encode, Piece.text]

theorem Piece.encode_cases (p : Piece) : (∃ q, p.encode = [q] ∧ q.code? = p.code?) ∨
    ∃ c, p = .code c ∧ IsWide c := by
  cases p with
  | literal | comment => exact .inl ⟨_, rfl, rfl⟩
  | code c =>
    rcases encoded_cases c with ⟨-, single⟩ | ⟨wide, -⟩
    · exact .inl ⟨.code c, by rw [Piece.encode, single]; rfl, rfl⟩
    · exact .inr ⟨c, rfl, wide⟩

theorem closeAt_encode {angles : Bool} {closing : Char} {before before' : Option Char}
    (alike : before = some '=' ↔ before' = some '=') (depth : Nat) (ps : List Piece) :
    closeAt angles closing (depth + 1) before' (ps.flatMap Piece.encode) =
      (closeAt angles closing (depth + 1) before ps).map fun found =>
        (found.1.flatMap Piece.encode, found.2.flatMap Piece.encode) := by
  induction ps generalizing depth before before' with
  | nil => rfl
  | cons p ps ih =>
    rw [flatMap_cons, closeAt_succ_cons]
    rcases p.encode_cases with ⟨q, encode, code⟩ | ⟨c, rfl, wide⟩
    · have arrow : (before' != some '=') = (before != some '=') := by
        rw [Bool.eq_iff_iff, bne_iff_ne, bne_iff_ne]
        exact not_congr alike.symm
      have closes : q.isCloser angles before' = p.isCloser angles before := by
        simp only [Piece.isCloser, code, isClosing, arrow]
      rw [encode, singleton_append, closeAt_succ_cons, nextDepth, closes, code, ← nextDepth]
      split
      · split <;> rfl
      · rw [ih Iff.rfl, Option.map_map, Option.map_map]
        simp [Function.comp_def, encode]
    · obtain ⟨-, ne, inside⟩ := (encoded_cases c).resolve_left fun narrow => narrow.1 wide
      have levels {w : Text} (inside : ∀ d ∈ w, IsWide d) (before : Option Char) :
          depthAfter angles depth before (w.map .code) = some depth :=
        depthAfter_map_code (fun d member => (isPlain_of_isWide (inside d member)).2) depth before
      have other : some c = some '=' ↔ (encoded [c]).getLast? = some '=' := by
        refine iff_of_false (fun same => ?_) fun last => ?_
        · exact ne_of_isWide wide (by decide) (Option.some.inj same)
        · exact ne_of_isWide (inside _ (mem_of_getLast? last)) (by decide) rfl
      rw [← closeAt_succ_cons, ← singleton_append, ← map_singleton,
        closeAt_append (levels (by simpa using wide) _), Piece.encode,
        closeAt_append (levels inside _), codeAfter_map_code ne, ih other, Option.map_map,
        Option.map_map]
      simp [Function.comp_def, Piece.encode, codeAfter]

theorem balanced?_encoded {opening closing : Char} (pair : IsEnclosing opening closing) (t : Text) :
    balanced? opening closing (encoded t) =
      (balanced? opening closing t).map fun found => (encoded found.1, encoded found.2) := by
  have narrow : ¬ IsWide opening := Nat.not_le.2 pair.1.1
  have differs {d : Char} (e : Text) (other : d ≠ opening) :
      balanced? opening closing (d :: e) = none := by
    rw [balanced?, if_neg (mt (isDelimiter_iff_of_ascii pair.1.1).1 other)]
  induction t using encoded_induction with
  | nil => rfl
  | narrow c t =>
    by_cases same : c = opening
    · subst same
      rw [balanced?_cons pair, balanced?_cons pair, pieces_encoded, closeAt_encode Iff.rfl,
        Option.map_map, Option.map_map]
      simp only [Function.comp_def, flatten_encode]
    · rw [differs _ same, differs _ same]
      rfl
  | wide c t w wide ne inside =>
    obtain ⟨d, w, rfl⟩ := exists_cons_of_ne_nil ne
    rw [cons_append, differs _ (ne_of_isWide wide narrow),
      differs _ (ne_of_isWide (inside d mem_cons_self) narrow)]
    rfl

theorem afterStatement_encoded (t : Text) :
    afterStatement (encoded t) = encoded (afterStatement t) := by
  have runs {p : Char → Bool} (wide : ∀ c, IsWide c → p c = false) (t : Text) :=
    dropWhile_encoded (p := p) (fun c d left right => (wide c left).trans (wide d right).symm) t
  have marks {mark : Char} (narrow : ¬ IsWide mark) (t : Text) :
      (after? [mark] (encoded t)).getD (encoded t) = encoded ((after? [mark] t).getD t) := by
    rw [after?_encoded (by simpa using narrow)]
    cases after? [mark] t <;> rfl
  have other {c a : Char} (wide : IsWide c) (narrow : ¬ IsWide a) : (c == a) = false :=
    beq_false_of_ne (ne_of_isWide wide narrow)
  simp only [afterStatement]
  rw [runs, marks (by decide), runs, marks (by decide)]
  all_goals
    intro c wide
    simp only [other wide (a := ' ') (by decide), other wide (a := '\t') (by decide),
      other wide (a := '\r') (by decide), Bool.or_false]

end Code

end SfcJsx
