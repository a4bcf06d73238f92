import SfcJsx.Code.Mask
import SfcJsx.Proofs.TextSearch

/-!
Cutting code between its pieces. A piece is read the same whatever follows it, as long as the next
character stays or the text ends there. So a text may be cut between two pieces, and what comes
before the cut may be joined to other code wherever its last piece cannot grow.
-/

namespace SfcJsx

open List Text

variable {rest s after' : Text} {c d : Char} {p : Code.Piece} {ps qs : List Code.Piece}
  {a b : List (Char × Bool)}

theorem Text.cut?_swap {sought t before tail : Text} (ne : sought ≠ [])
    (found : cut? sought t = some (before, tail)) (tail' : Text) :
    cut? sought (before ++ sought ++ tail') = some (before, tail') :=
  cut?_append ne (not_infix_of_cut? ne found) tail'

namespace Code

def StartsAs (s t : Text) : Prop := ∀ c, t.head? = some c → s.head? = some c

theorem startsAs_nil (s : Text) : StartsAs s [] := fun _ h => by simp at h

theorem StartsAs.append {t : Text} (h : StartsAs s t) (lead : Text) :
    StartsAs (lead ++ s) (lead ++ t) := by
  cases lead with
  | nil => exact h
  | cons c lead => exact fun _ same => same

theorem literalTail_cons (escape : c ≠ '\\') (quote : Char) (rest : Text) :
    literalTail quote (c :: rest) =
      if c = quote then ([c], rest)
      else if c = '\n' ∧ quote ≠ '`' then ([], c :: rest)
      else (c :: (literalTail quote rest).1, (literalTail quote rest).2) := by
  rw [literalTail]
  rintro d rest' rfl
  exact absurd rfl escape

section Literals

variable {quote : Char} {t body after : Text}

/-- The rest of a literal that its quote ends: anything may follow it. -/
structure EndsClosed (quote : Char) (body : Text) : Prop where
  last : body.getLast? = some quote
  again : ∀ u, literalTail quote (body ++ u) = (body, u)

/-- The rest of a literal that ends at a line break, or with the text. Then it goes on over the next
character. -/
structure EndsOpen (quote : Char) (body after : Text) : Prop where
  ends : after = [] ∨ after.head? = some '\n'
  again : ∀ u, StartsAs after u → literalTail quote (body ++ u) = (body, u)
  goesOn : after = [] → ∀ c u, c ≠ quote → c ≠ '\n' → c ≠ '\\' →
    ∃ more after', literalTail quote (body ++ c :: u) = (body ++ c :: more, after')

theorem ends_append {x : Text} (passes : ∀ u, literalTail quote (x ++ u) =
      (x ++ (literalTail quote u).1, (literalTail quote u).2))
    (h : EndsClosed quote body ∨ EndsOpen quote body after) :
    EndsClosed quote (x ++ body) ∨ EndsOpen quote (x ++ body) after := by
  have longer {u b a : Text} (read : literalTail quote (body ++ u) = (b, a)) :
      literalTail quote (x ++ body ++ u) = (x ++ b, a) := by
    rw [append_assoc, passes, read]
  refine h.imp (fun closed => ⟨?_, fun u => longer (closed.again u)⟩) fun opens =>
    ⟨opens.ends, fun u next => longer (opens.again u next), fun none c u other line escape => ?_⟩
  · rw [getLast?_append, closed.last]
    rfl
  · obtain ⟨more, after', read⟩ := opens.goesOn none c u other line escape
    exact ⟨more, after', by rw [longer read, append_assoc]⟩

theorem endsOpen_whole (whole : literalTail quote body = (body, []))
    (goesOn : ∀ c u, c ≠ quote → c ≠ '\n' → c ≠ '\\' →
      ∃ more after', literalTail quote (body ++ c :: u) = (body ++ c :: more, after')) :
    EndsOpen quote body [] := by
  refine ⟨.inl rfl, fun u next => ?_, fun _ => goesOn⟩
  cases u with
  | nil => rwa [append_nil]
  | cons c u => cases next c rfl

theorem literalTail_ends (quote : Char) (t : Text) : EndsClosed quote (literalTail quote t).1 ∨
    EndsOpen quote (literalTail quote t).1 (literalTail quote t).2 := by
  -- A backslash that escapes nothing is the last character.
  have last (whole : literalTail quote ['\\'] = (['\\'], [])) : EndsOpen quote ['\\'] [] :=
    endsOpen_whole whole fun c u _ _ _ => ⟨_, _, rfl⟩
  fun_induction literalTail quote t with
  | case1 =>
    refine .inr (endsOpen_whole rfl fun c u other line escape => ?_)
    rw [nil_append, literalTail_cons escape, if_neg other, if_neg fun both => line both.1]
    exact ⟨_, _, rfl⟩
  | case2 c rest body after same ih =>
    rw [same] at ih
    exact ends_append (x := ['\\', c]) (fun u => rfl) ih
  | case3 rest escaped =>
    by_cases backslash : quote = '\\'
    · cases rest with
      | cons d rest => exact (escaped d rest backslash rfl).elim
      | nil =>
        subst backslash
        exact .inr (last (by simp [literalTail]))
    · refine .inl ⟨rfl, fun u => ?_⟩
      rw [singleton_append, literalTail_cons backslash, if_pos rfl]
  | case4 c rest escaped other broken =>
    obtain ⟨rfl, template⟩ := broken
    refine .inr ⟨.inr rfl, fun u next => ?_, nofun⟩
    cases u with
    | nil => rfl
    | cons d u =>
      obtain rfl : '\n' = d := by simpa using next d rfl
      rw [nil_append, literalTail_cons (by decide), if_neg other, if_pos ⟨rfl, template⟩]
  | case5 c rest escaped other broken body after same ih =>
    by_cases backslash : c = '\\'
    · subst backslash
      cases rest with
      | cons d rest => exact (escaped d rest rfl rfl).elim
      | nil =>
        cases same
        exact .inr (last (by simp [literalTail, other]))
    · rw [same] at ih
      refine ends_append (x := [c]) (fun u => ?_) ih
      rw [singleton_append, literalTail_cons backslash, if_neg other, if_neg broken]
      rfl

theorem literalTail_swap (next : StartsAs (literalTail quote t).2 after') :
    literalTail quote ((literalTail quote t).1 ++ after') = ((literalTail quote t).1, after') :=
  (literalTail_ends quote t).elim (·.again after') (·.again after' next)

theorem endsClosed_of_literalTail (read : literalTail quote t = (body, d :: after))
    (goes : d ≠ '\n') : EndsClosed quote body := by
  have ends := literalTail_ends quote t
  rw [read] at ends
  refine ends.resolve_right fun opens => ?_
  rcases opens.ends with none | line
  · cases none
  · exact goes (Option.some.inj line)

end Literals

theorem blockTail_swap {t body after : Text} (read : blockTail t = (body, after))
    (next : StartsAs after after') : blockTail (body ++ after') = (body, after') := by
  unfold blockTail at read
  split at read
  · next before tail found =>
    cases read
    simp only [blockTail, cut?_swap (by decide) found]
  · next absent =>
    cases read
    cases after' with
    | nil => simp only [blockTail, append_nil, absent]
    | cons c => simpa using next c rfl

theorem restOfLine_swap {t : Text} (next : StartsAs (t.dropWhile (· != '\n')) after') :
    (t.takeWhile (· != '\n') ++ after').takeWhile (· != '\n') = t.takeWhile (· != '\n') ∧
      (t.takeWhile (· != '\n') ++ after').dropWhile (· != '\n') = after' := by
  have inside : ∀ c ∈ t.takeWhile (· != '\n'), c != '\n' := all_eq_true.1 all_takeWhile
  have stops : after'.takeWhile (· != '\n') = [] ∧ after'.dropWhile (· != '\n') = after' := by
    cases after' with
    | nil => exact ⟨rfl, rfl⟩
    | cons c tail =>
      have := head?_dropWhile_not (· != '\n') t
      rw [next c rfl] at this
      simp_all
  rw [takeWhile_append_of_pos inside, dropWhile_append_of_pos inside, stops.1, stops.2]
  simp

theorem lead_swap {after : Text} (read : lead c rest = (p, after)) (next : StartsAs after after') :
    ∃ body, p.text = c :: body ∧ lead c (body ++ after') = (p, after') := by
  unfold lead at read
  split at read
  · next quote =>
    cases read
    refine ⟨_, rfl, ?_⟩
    rw [lead, if_pos quote, literalTail_swap next]
  · next quote =>
    split at read
    · next line =>
      cases read
      obtain ⟨rest, rfl⟩ := head?_eq_some_iff.1 line.2
      have swapped := restOfLine_swap next
      have head : (('/' :: rest).takeWhile (· != '\n') ++ after').head? = some '/' := by simp
      exact ⟨_, rfl, by rw [lead, if_neg quote, if_pos ⟨line.1, head⟩, swapped.1, swapped.2]⟩
    · next line =>
      split at read
      · next block =>
        obtain ⟨inner, after₁, tail⟩ : ∃ inner after₁, blockTail rest.tail = (inner, after₁) :=
          ⟨_, _, rfl⟩
        rw [tail] at read
        cases read
        refine ⟨'*' :: inner, rfl, ?_⟩
        rw [lead, if_neg quote, if_neg (by simp), if_pos ⟨block.1, rfl⟩, cons_append,
          tail_cons, blockTail_swap tail next]
      · next block =>
        cases read
        refine ⟨[], rfl, ?_⟩
        rw [nil_append, lead, if_neg quote, if_neg fun h => line ⟨h.1, next _ h.2⟩,
          if_neg fun h => block ⟨h.1, next _ h.2⟩]

theorem lead_of_pieces_eq_cons {t : Text} (read : pieces t = p :: ps) :
    ∃ c rest after, t = c :: rest ∧ lead c rest = (p, after) ∧ pieces after = ps := by
  cases t with
  | nil => simp [pieces] at read
  | cons c rest =>
    rw [pieces] at read
    cases read
    exact ⟨c, rest, _, rfl, rfl, rfl⟩

theorem pieces_swap {t : Text} (read : pieces t = ps ++ qs) (next : StartsAs (flatten qs) after') :
    pieces (flatten ps ++ after') = ps ++ pieces after' := by
  induction ps generalizing t with
  | nil => rfl
  | cons p ps ih =>
    rw [cons_append] at read
    obtain ⟨c, rest, after, rfl, first, later⟩ := lead_of_pieces_eq_cons read
    have whole : after = flatten ps ++ flatten qs := by
      rw [← flatten_append, ← later, flatten_pieces]
    obtain ⟨body, text, again⟩ := lead_swap (whole ▸ first) (next.append (flatten ps))
    rw [flatten_cons, text, append_assoc, cons_append, pieces, again, ih later]
    rfl

/-- Two texts that are read one after the other as each is read alone. -/
def Parts (s t : Text) : Prop := pieces (s ++ t) = pieces s ++ pieces t

instance (s t : Text) : Decidable (Parts s t) :=
  inferInstanceAs (Decidable (pieces (s ++ t) = pieces s ++ pieces t))

theorem pieces_flatten_left {t : Text} (read : pieces t = ps ++ qs) : pieces (flatten ps) = ps := by
  simpa [pieces] using pieces_swap read (startsAs_nil _)

theorem pieces_flatten_right {t : Text} (read : pieces t = ps ++ qs) :
    pieces (flatten qs) = qs := by
  have swapped := pieces_swap read (fun _ same => same)
  rw [← flatten_append, ← read, flatten_pieces, read] at swapped
  exact (append_cancel_left swapped).symm

def isPlain (c : Char) : Bool := !isQuote c && c != '/'

theorem lead_of_isPlain (plain : isPlain c) (rest : Text) : lead c rest = (.code c, rest) := by
  have : isQuote c = false ∧ c ≠ '/' := by simpa [isPlain] using plain
  simp [lead, this]

theorem pieces_cons_of_isPlain (plain : isPlain c) (rest : Text) :
    pieces (c :: rest) = .code c :: pieces rest := by
  rw [pieces, lead_of_isPlain plain]

theorem pieces_append_of_isPlain (plain : ∀ c ∈ s, isPlain c) (t : Text) :
    pieces (s ++ t) = s.map .code ++ pieces t := by
  induction s with
  | nil => rfl
  | cons c s ih =>
    rw [cons_append, pieces_cons_of_isPlain (plain c (by simp)), ih (forall_mem_cons.1 plain).2]
    rfl

/-- Code that may be followed by anything: what follows does not become part of its last piece. -/
def EndsPlain (s : Text) : Prop :=
  s = [] ∨ ∃ ps c, pieces s = ps ++ [.code c] ∧ isPlain c

theorem EndsPlain.parts (ends : EndsPlain s) (t : Text) : Parts s t := by
  rcases ends with rfl | ⟨ps, c, read, plain⟩
  · simp [Parts, pieces]
  · have next : StartsAs (flatten [.code c]) (c :: t) := fun _ same => same
    have swapped := pieces_swap read next
    have whole : s = flatten ps ++ [c] := by
      rw [← flatten_pieces s, read]
      simp [Piece.text]
    rw [Parts, read, whole, append_assoc, singleton_append, swapped, pieces_cons_of_isPlain plain]
    simp

def Piece.marks (p : Piece) : List (Char × Bool) := p.text.map (·, p.isCode)

theorem marked_eq_flatMap (t : Text) : marked t = (pieces t).flatMap Piece.marks := rfl

theorem marked_cons (c : Char) (rest : Text) :
    marked (c :: rest) = (lead c rest).1.marks ++ marked (lead c rest).2 := by
  rw [marked_eq_flatMap, pieces]
  rfl

theorem exists_text_lead (c : Char) (rest : Text) : ∃ body, (lead c rest).1.text = c :: body := by
  obtain ⟨body, text, -⟩ := lead_swap (p := (lead c rest).1) rfl (startsAs_nil _)
  exact ⟨body, text⟩

theorem Parts.marked_append {t : Text} (parts : Parts s t) :
    marked (s ++ t) = marked s ++ marked t := by
  rw [marked_eq_flatMap, show pieces (s ++ t) = pieces s ++ pieces t from parts, flatMap_append]
  rfl

theorem marked_append_of_isPlain (plain : ∀ c ∈ s, isPlain c) (t : Text) :
    marked (s ++ t) = s.map (·, true) ++ marked t := by
  rw [marked_eq_flatMap, pieces_append_of_isPlain plain, flatMap_append, flatMap_map,
    map_eq_flatMap]
  rfl

theorem flatMap_marks_eq_append (whole : ps.flatMap Piece.marks = a ++ (c, true) :: b) :
    ∃ qs rs, ps = qs ++ .code c :: rs ∧ qs.flatMap Piece.marks = a ∧
      rs.flatMap Piece.marks = b := by
  induction ps generalizing a with
  | nil => simp at whole
  | cons p ps ih =>
    rcases append_eq_append_iff.1 whole with ⟨a', rfl, later⟩ | ⟨b', inside, same⟩
    · obtain ⟨qs, rs, rfl, rfl, rfl⟩ := ih later
      exact ⟨p :: qs, rs, rfl, rfl, rfl⟩
    · cases b' with
      | nil =>
        obtain ⟨qs, rs, rfl, none, rfl⟩ := ih (a := []) same.symm
        exact ⟨p :: qs, rs, rfl, by simp [none, inside], rfl⟩
      | cons m b' =>
        -- The character lies in the first piece, which has others only if it is not code.
        cases same
        have mem : (c, true) ∈ p.marks := by simp [inside]
        cases p with
        | code d =>
          obtain ⟨rfl, same⟩ | ⟨-, none⟩ := singleton_eq_append_iff.1 inside
          · obtain ⟨here, rfl⟩ := cons.inj same
            cases here
            exact ⟨[], ps, rfl, rfl, rfl⟩
          · simp at none
        | literal | comment => simp [Piece.marks, Piece.isCode] at mem

theorem exists_of_marked_eq {t : Text} (whole : marked t = a ++ (c, true) :: b) :
    ∃ s u, t = s ++ c :: u ∧ marked s = a ∧ marked u = b ∧
      pieces t = pieces s ++ .code c :: pieces u := by
  obtain ⟨qs, rs, read, rfl, rfl⟩ := flatMap_marks_eq_append whole
  have left := pieces_flatten_left read
  have right : pieces (flatten rs) = rs := by
    rw [append_cons] at read
    exact pieces_flatten_right read
  refine ⟨flatten qs, flatten rs, ?_, by rw [marked_eq_flatMap, left],
    by rw [marked_eq_flatMap, right], by rw [left, right, read]⟩
  rw [← flatten_pieces t, read]
  simp [Piece.text]

theorem lead_closed {after : Text}
    (read : lead c rest = (p, d :: after)) (other : p.isCode = false) (goes : d ≠ '\n') :
    (∃ e, p.text.getLast? = some e ∧ isPlain e = false) ∧
      ∃ body, p.text = c :: body ∧ ∀ after', lead c (body ++ after') = (p, after') := by
  unfold lead at read
  split at read
  · next quote =>
    obtain ⟨rfl, tail⟩ := Prod.mk.inj read
    have closed := endsClosed_of_literalTail (Prod.ext rfl tail) goes
    refine ⟨⟨c, by simp [Piece.text, getLast?_cons, closed.last], by simp [isPlain, quote]⟩,
      _, rfl, fun after' => ?_⟩
    rw [lead, if_pos quote, closed.again]
  · next quote =>
    split at read
    · obtain ⟨-, tail⟩ := Prod.mk.inj read
      have stop := head?_dropWhile_not (· != '\n') rest
      rw [tail] at stop
      exact absurd (by simpa using stop) goes
    · split at read
      · next block =>
        obtain ⟨body, after₁, tail⟩ : ∃ body after₁, blockTail rest.tail = (body, after₁) :=
          ⟨_, _, rfl⟩
        rw [tail] at read
        cases read
        unfold blockTail at tail
        split at tail
        · next before _ found =>
          cases tail
          refine ⟨⟨'/', by simp [Piece.text, getLast?_cons], by decide⟩, _, rfl, fun after' => ?_⟩
          rw [lead, if_neg quote, if_neg (by simp), if_pos ⟨block.1, rfl⟩, cons_append,
            tail_cons, blockTail, cut?_swap (by decide) found]
        · simp at tail
      · cases read
        simp [Piece.isCode] at other

theorem isQuote_of_lead {after : Text} (read : lead c rest = (.code d, after)) :
    isQuote d = false := by
  unfold lead at read
  split at read
  · simp at read
  · next quote =>
    split at read
    · simp at read
    · split at read
      · simp at read
      · obtain ⟨same, -⟩ := Prod.mk.inj read
        obtain rfl := Piece.code.inj same
        simpa using quote

theorem Parts.swap (parts : Parts s (c :: rest)) (goes : c ≠ '\n')
    (noSlash : (marked s).getLast? ≠ some ('/', true)) (t : Text) : Parts s t := by
  rcases eq_nil_or_concat (pieces s) with empty | ⟨ps, p, split⟩
  · have : s = [] := by rw [← flatten_pieces s, empty, flatten_nil]
    exact EndsPlain.parts (.inl this) t
  · rw [concat_eq_append] at split
    have whole : s = flatten ps ++ p.text := by
      rw [← flatten_pieces s, split]
      simp
    have read : pieces (s ++ c :: rest) = ps ++ (p :: pieces (c :: rest)) := by
      rw [show pieces (s ++ c :: rest) = pieces s ++ pieces (c :: rest) from parts, split]
      simp
    obtain ⟨d, tail, after, -, first, later⟩ := lead_of_pieces_eq_cons (pieces_flatten_right read)
    have follows : after = c :: rest := by
      rw [← flatten_pieces after, later, flatten_pieces]
    rw [follows] at first
    cases isCode : p.isCode with
    | true =>
      cases p with
      | literal | comment => simp [Piece.isCode] at isCode
      | code e =>
        have notSlash : e ≠ '/' := by
          rintro rfl
          simp [marked_eq_flatMap, split, Piece.marks, Piece.text, Piece.isCode] at noSlash
        have plain : isPlain e := by simp [isPlain, isQuote_of_lead first, notSlash]
        exact EndsPlain.parts (.inr ⟨ps, e, split, plain⟩) t
    | false =>
      obtain ⟨-, body, text, again⟩ := lead_closed first isCode goes
      have next : StartsAs (flatten (p :: pieces (c :: rest))) (p.text ++ t) := by
        simp [StartsAs, text]
      rw [Parts, split, whole, append_assoc, pieces_swap read next, text, cons_append,
        pieces, again, append_assoc]
      rfl

theorem isCode_of_isPlain_before {t : Text} {flag : Bool}
    (whole : marked t = a ++ (d, flag) :: (c, true) :: b) (plain : isPlain d)
    (goes : c ≠ '\n') : flag := by
  obtain ⟨s, u, -, left, -, read⟩ := exists_of_marked_eq (a := a ++ [(d, flag)]) (b := b) (c := c)
    (by simpa using whole)
  rcases eq_nil_or_concat (pieces s) with empty | ⟨ps, p, split⟩
  · simp [marked_eq_flatMap, empty] at left
  · rw [concat_eq_append] at split
    have last : ps.flatMap Piece.marks ++ p.marks = a ++ [(d, flag)] := by
      simpa [marked_eq_flatMap, split] using left
    rw [split, append_assoc] at read
    obtain ⟨x, rest, after, -, first, later⟩ := lead_of_pieces_eq_cons (pieces_flatten_right read)
    have follows : after = c :: u := by
      rw [← flatten_pieces after, later]
      simp [Piece.text]
    cases isCode : p.isCode with
    | true =>
      cases p with
      | code e =>
        have same := append_inj_right' last rfl
        exact (Prod.mk.inj (singleton_inj.1 same)).2.symm
      | literal | comment => simp [Piece.isCode] at isCode
    | false =>
      obtain ⟨⟨e, ends, notPlain⟩, -⟩ := lead_closed (follows ▸ first) isCode goes
      obtain ⟨init, text⟩ := getLast?_eq_some_iff.1 ends
      have marks : p.marks = init.map (·, false) ++ [(e, false)] := by
        simp [Piece.marks, text, isCode]
      rw [marks, ← append_assoc] at last
      have same := append_inj_right' last rfl
      obtain ⟨rfl, -⟩ := Prod.mk.inj (singleton_inj.1 same)
      simp [plain] at notPlain

end Code

end SfcJsx
