import SfcJsx.Proofs.EnclosedCode

/-!
Matching brackets and the mask of a text. The search for a closing bracket reads the text from the
opening one on, the mask is made for the whole text; both agree on what is code. Main statement: the
region ends where the brackets that the mask marks as code first balance.
-/

namespace SfcJsx.Code

open List

variable {angles : Bool} {opening closing : Char} {depth : Int} {before previous : Option Char}
  {found : Option (Text × Text)} {t : Text} {w marks : List (Char × Bool)}

/-- What a character of code adds to the depth. -/
def sign (angles : Bool) (previous : Option Char) (c : Char) : Int :=
  if isOpening angles c then 1 else if isClosing angles previous c then -1 else 0

/-- The opening brackets less the closing ones among the characters of code. An angle bracket right
behind `=` does not close, whether the sign is code or not. -/
def net (angles : Bool) (previous : Option Char) : List (Char × Bool) → Int
  | [] => 0
  | (c, isCode) :: rest =>
    (if isCode then sign angles previous c else 0) + net angles (some c) rest

def lastChar (previous : Option Char) (marks : List (Char × Bool)) : Option Char :=
  (marks.getLast?.map Prod.fst).or previous

theorem net_append (previous : Option Char) (v w : List (Char × Bool)) :
    net angles previous (v ++ w) = net angles previous v + net angles (lastChar previous v) w := by
  induction v generalizing previous with
  | nil => simp [net, lastChar]
  | cons m v ih =>
    have last : lastChar (some m.1) v = lastChar previous (m :: v) := by
      cases v <;> simp [lastChar, getLast?_cons]
    rw [cons_append, net, net, ih, last, Int.add_assoc]

theorem net_of_not_isCode (text : Text) (previous : Option Char) :
    net angles previous (text.map (·, false)) = 0 := by
  induction text generalizing previous with
  | nil => rfl
  | cons c text ih => simpa [net] using ih (some c)

/-- `found` is what stands around the character at which the depth is zero for the first time, if
that is the closing bracket. -/
def FirstZero (angles : Bool) (closing : Char) (depth : Int) (previous : Option Char)
    (marks : List (Char × Bool)) (found : Option (Text × Text)) : Prop :=
  (∃ m c n, marks = m ++ c :: n ∧ (∀ p q, m = p ++ q → depth + net angles previous p ≠ 0) ∧
    depth + net angles previous (m ++ [c]) = 0 ∧
    found = if isDelimiter closing c.1 then some (m.map Prod.fst, n.map Prod.fst) else none) ∨
  ((∀ p q, marks = p ++ q → depth + net angles previous p ≠ 0) ∧ found = none)

theorem FirstZero.append (inside : ∀ p q, w = p ++ q → depth + net angles previous p ≠ 0)
    (h : FirstZero angles closing (depth + net angles previous w) (lastChar previous w) marks
      found) :
    FirstZero angles closing depth previous (w ++ marks)
      (found.map fun f => (w.map Prod.fst ++ f.1, f.2)) := by
  have longer {x : List (Char × Bool)}
      (later : ∀ p q, x = p ++ q → depth + net angles previous w +
        net angles (lastChar previous w) p ≠ 0) :
      ∀ p q, w ++ x = p ++ q → depth + net angles previous p ≠ 0 := by
    intro p q split
    rcases append_eq_append_iff.1 split with ⟨p', rfl, rest⟩ | ⟨q', rfl, -⟩
    · rw [net_append, ← Int.add_assoc]
      exact later p' q rest
    · exact inside p q' rfl
  rcases h with ⟨m, c, n, rfl, above, zero, rfl⟩ | ⟨above, rfl⟩
  · refine .inl ⟨w ++ m, c, n, by simp, longer above, ?_, ?_⟩
    · rw [append_assoc, net_append, ← Int.add_assoc, zero]
    · split <;> simp
  · exact .inr ⟨longer above, rfl⟩

theorem isClosing_lastChar {text : Text} {c : Char} {rest : List (Char × Bool)} (ne : text ≠ [])
    (whole : marked t = text.map (·, false) ++ (c, true) :: rest) (previous : Option Char) :
    isClosing angles none c =
      isClosing angles (lastChar previous (text.map (·, false))) c := by
  obtain ⟨init, e, rfl⟩ := (eq_nil_or_concat text).resolve_left ne
  have last : lastChar previous ((init.concat e).map (·, false)) = some e := by simp [lastChar]
  rw [last]
  by_cases plain : isPlain e
  · by_cases line : c = '\n'
    · subst line
      simp [isClosing]
    · have := isCode_of_isPlain_before (by simpa using whole) plain line
      cases this
  · refine (isClosing_of_ne ?_ c).symm
    rintro same
    exact plain (by rw [Option.some.inj same]; decide)

theorem not_isCloser_of_isCode {p : Piece} (other : p.isCode = false) (angles : Bool)
    (before : Option Char) (d : Nat) :
    p.isCloser angles before = false ∧ p.code? = none ∧ nextDepth angles d before p = d := by
  cases p with
  | code => cases other
  | literal | comment => exact ⟨rfl, rfl, rfl⟩

theorem net_code (d : Nat) (c : Char)
    (goesOn : ¬ (Piece.isCloser angles previous (.code c) ∧ d = 0)) :
    (d : Int) + 1 + net angles previous [(c, true)] =
      nextDepth angles d previous (.code c) + 1 := by
  simp only [Piece.isCloser, Piece.code?, Option.any_some] at goesOn
  simp only [net, sign, nextDepth, Piece.isCloser, Piece.code?, Option.any_some]
  by_cases opens : isOpening angles c
  · simp [opens]
  · by_cases closes : isClosing angles previous c
    · simp only [opens, closes, Bool.not_false, Bool.and_self, true_and, if_true,
        Bool.false_eq_true, if_false] at goesOn ⊢
      omega
    · simp [opens, closes]

theorem firstZero_closeAt (d : Nat) (agree : ∀ c rest, marked t = (c, true) :: rest →
      isClosing angles before c = isClosing angles previous c) :
    FirstZero angles closing (d + 1) previous (marked t)
      ((closeAt angles closing (d + 1) before (pieces t)).map fun f =>
        (flatten f.1, flatten f.2)) := by
  fun_induction pieces t generalizing d before previous with
  | case1 =>
    refine .inr ⟨fun p q split => ?_, rfl⟩
    rw [marked_eq_flatMap, pieces] at split
    obtain ⟨rfl, -⟩ := append_eq_nil_iff.1 split.symm
    simp [net]
    omega
  | case2 c rest ih =>
    have whole := marked_cons c rest
    have ne := text_lead_ne_nil c rest
    generalize lead c rest = read at *
    obtain ⟨p, after⟩ := read
    rw [closeAt_succ_cons, whole]
    cases isCode : p.isCode with
    | true =>
      cases p with
      | literal | comment => cases isCode
      | code e =>
        have same : Piece.isCloser angles before (.code e) =
            Piece.isCloser angles previous (.code e) := by
          simp only [Piece.isCloser, Piece.code?, Option.any_some, agree e _ whole]
        have marks : Piece.marks (.code e) = [(e, true)] := rfl
        rw [nextDepth, same, ← nextDepth, marks]
        split
        · next stray =>
          obtain ⟨closes, rfl⟩ := stray
          obtain ⟨shut, closes⟩ := Bool.and_eq_true_iff.1 closes
          refine .inl ⟨[], (e, true), marked after, rfl, fun p q none => ?_, ?_, ?_⟩
          · obtain ⟨rfl, -⟩ := append_eq_nil_iff.1 none.symm
            simp [net]
          · simp_all [net, sign]
          · rw [map_fst_marked]
            split <;> simp_all [Piece.code?]
        · next goesOn =>
          have later := @ih (some e) (some e) (nextDepth angles d previous (.code e))
            fun _ _ _ => rfl
          have step := net_code d e goesOn
          have longer := FirstZero.append (w := [(e, true)]) (fun v q split => ?_) (step ▸ later)
          · simpa [Function.comp_def, Piece.text, Piece.code?] using longer
          · rcases append_eq_singleton_iff.1 split.symm with ⟨rfl, -⟩ | ⟨rfl, -⟩
            · simp only [net]
              omega
            · omega
    | false =>
      have marks : p.marks = p.text.map (·, false) := by rw [Piece.marks, isCode]
      obtain ⟨flat, none, level⟩ := not_isCloser_of_isCode isCode angles before d
      rw [if_neg (by simp [flat]), level, none, marks]
      rw [marks] at whole
      have later := ih d fun c rest first => isClosing_lastChar ne (first ▸ whole) previous
      have inside (v q) (split : p.text.map (·, false) = v ++ q) :
          (d : Int) + 1 + net angles previous v ≠ 0 := by
        obtain ⟨v', q', -, rfl, -⟩ := map_eq_append_iff.1 split
        rw [net_of_not_isCode]
        omega
      have longer := FirstZero.append inside (by rwa [net_of_not_isCode])
      simpa [Function.comp_def] using longer

/-- The depth behind a character, counted from the first one on. -/
def depthAt (angles : Bool) (marks : List (Char × Bool)) (i : Nat) : Int :=
  net angles none (marks.take (i + 1))

theorem depthAt_cons (opens : isOpening angles opening) (i : Nat) :
    depthAt angles ((opening, true) :: marks) i = 1 + net angles (some opening) (marks.take i) := by
  simp [depthAt, net, sign, opens]

theorem FirstZero.eq_find? (h : FirstZero angles closing 1 (some opening) marks found)
    (opens : isOpening angles opening) (ascii : closing.toNat < 0x80) {w : Text}
    (text : w = opening :: marks.map Prod.fst) :
    found = ((range w.length).find? fun i =>
        decide (depthAt angles ((opening, true) :: marks) i = 0)).bind fun i =>
      if w[i]? = some closing then some ((w.take i).drop 1, w.drop (i + 1)) else none := by
  subst text
  simp only [depthAt_cons opens]
  rcases h with ⟨m, c, n, rfl, above, zero, rfl⟩ | ⟨above, rfl⟩
  · have first : ((range (opening :: (m ++ c :: n).map Prod.fst).length).find? fun i =>
        decide (1 + net angles (some opening) ((m ++ c :: n).take i) = 0)) =
          some (m.length + 1) := by
      rw [find?_range_eq_some]
      refine ⟨by simpa [take_length_add_append] using zero, by simp, fun i early => ?_⟩
      have inside := above (m.take i) (m.drop i) (take_append_drop i m).symm
      rw [take_append_of_le_length (by omega)]
      simpa using inside
    rw [first]
    simp [isDelimiter_iff_of_ascii ascii, drop_append, drop_of_length_le]
  · have never : ((range (opening :: marks.map Prod.fst).length).find? fun i =>
        decide (1 + net angles (some opening) (marks.take i) = 0)) = none := by
      rw [find?_range_eq_none]
      intro i _
      simpa using above (marks.take i) (marks.drop i) (take_append_drop i marks).symm
    rw [never]
    rfl

/-- A region ends where the depth that the mask of the whole text gives is zero for the first time,
and there is none if another bracket stands there. -/
theorem balanced?_at_first_zero (t : Text) (start : Nat)
    (pair : (opening, closing) ∈ [('(', ')'), ('[', ']'), ('\x7b', '\x7d'), ('<', '>')])
    (place : (marked t)[start]? = some (opening, true)) :
    balanced? opening closing (t.drop start) =
      ((range (t.length - start)).find? fun i =>
        decide (depthAt (opening == '<') ((marked t).drop start) i = 0)).bind fun i =>
      if t[start + i]? = some closing then
        some ((t.take (start + i)).drop (start + 1), t.drop (start + i + 1))
      else none := by
  have enclosing : IsEnclosing opening closing := by
    simp only [mem_cons, Prod.mk.injEq, not_mem_nil, or_false] at pair
    rcases pair with ⟨rfl, rfl⟩ | ⟨rfl, rfl⟩ | ⟨rfl, rfl⟩ | ⟨rfl, rfl⟩ <;> decide
  obtain ⟨inside, here⟩ := List.getElem?_eq_some_iff.1 place
  have split := take_append_drop start (marked t)
  rw [drop_eq_getElem_cons inside, here] at split
  obtain ⟨s, u, rfl, before, behind, -⟩ := exists_of_marked_eq split.symm
  obtain rfl : s.length = start := by
    have := congrArg (fun marks => (marks.map Prod.fst).length) before
    rw [map_fst_marked] at this
    simp at this
    omega
  have ahead : (marked (s ++ opening :: u)).drop s.length = (opening, true) :: marked u := by
    rw [drop_eq_getElem_cons inside, here, behind]
  have found : FirstZero (opening == '<') closing 1 (some opening) (marked u) _ :=
    firstZero_closeAt 0 fun _ _ _ => rfl
  have text : opening :: u = opening :: (marked u).map Prod.fst := by rw [map_fst_marked]
  have result := found.eq_find? enclosing.2.2 enclosing.1.2.1 text
  have size : (s ++ opening :: u).length - s.length = (opening :: u).length := by simp
  have place (i : Nat) : (s ++ opening :: u)[s.length + i]? = (opening :: u)[i]? := by
    rw [getElem?_append_right (by omega), Nat.add_sub_cancel_left]
  have after (i : Nat) : (s ++ opening :: u).drop (s.length + i) = (opening :: u).drop i := by
    rw [drop_append]
    simp
  simp only [drop_left, balanced?_cons enclosing, ahead, size, place, after, Nat.add_assoc,
    take_length_add_append]
  refine result.trans ?_
  simp

theorem balanced?_at_first_zero_call :
    (marked "f(')', [b])+1")[1]? = some ('(', true) ∧
      balanced? '(' ')' (List.drop 1 "f(')', [b])+1".toList) =
        some (("')', [b]" : Text), ("+1" : Text)) := by
  have place : (marked "f(')', [b])+1")[1]? = some ('(', true) := by decide +kernel
  exact ⟨place, (balanced?_at_first_zero "f(')', [b])+1" 1 (by decide) place).trans
    (by decide +kernel)⟩

end SfcJsx.Code
