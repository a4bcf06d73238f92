import SfcJsx.Text.Blank

/-!
Loose script code as pieces: single characters of code, string and template literals, comments. This
is no grammar of the language; it is what is needed to tell brackets and names in code from those in
literals and comments. The pieces put together give the text again.
-/

namespace SfcJsx.Code

inductive Piece where
  | code (c : Char)
  | literal (text : Text)
  | comment (text : Text)
  deriving DecidableEq, Repr

namespace Piece

def text : Piece → Text
  | code c => [c]
  | literal text => text
  | comment text => text

def isCode : Piece → Bool
  | code _ => true
  | _ => false

end Piece

def isQuote (c : Char) : Bool := c == '"' || c == '\'' || c == '`'

/-- The rest of a literal after its opening quote, and what follows it. A backslash takes the next
character along; a line break ends a literal that is not in backticks. -/
def literalTail (quote : Char) : Text → Text × Text
  | [] => ([], [])
  | '\\' :: c :: rest =>
    let (body, after) := literalTail quote rest
    ('\\' :: c :: body, after)
  | c :: rest =>
    if c = quote then ([c], rest)
    else if c = '\n' ∧ quote ≠ '`' then ([], c :: rest)
    else
      let (body, after) := literalTail quote rest
      (c :: body, after)

theorem literalTail_append (quote : Char) (t : Text) :
    (literalTail quote t).1 ++ (literalTail quote t).2 = t := by
  fun_induction literalTail quote t with
  | case1 => rfl
  | case2 c rest body after h ih => simp_all
  | case3 => simp
  | case4 => simp
  | case5 c rest _ _ _ body after h ih => simp_all

def blockTail (t : Text) : Text × Text :=
  match Text.cut? "*/" t with
  | some (body, after) => (body ++ "*/", after)
  | none => (t, [])

theorem blockTail_append (t : Text) : (blockTail t).1 ++ (blockTail t).2 = t := by
  unfold blockTail
  split
  · next h => simpa using (Text.eq_append_of_cut? h).symm
  · simp

def lead (c : Char) (rest : Text) : Piece × Text :=
  if isQuote c then
    let (body, after) := literalTail c rest
    (.literal (c :: body), after)
  else if c = '/' ∧ rest.head? = some '/' then
    (.comment (c :: rest.takeWhile (· != '\n')), rest.dropWhile (· != '\n'))
  else if c = '/' ∧ rest.head? = some '*' then
    let (body, after) := blockTail rest.tail
    (.comment (c :: '*' :: body), after)
  else (.code c, rest)

theorem lead_append (c : Char) (rest : Text) :
    (lead c rest).1.text ++ (lead c rest).2 = c :: rest := by
  unfold lead
  split
  · simp [Piece.text, literalTail_append]
  · split
    · simp [Piece.text]
    · split
      · next h =>
        obtain ⟨rest, rfl⟩ : ∃ tail, rest = '*' :: tail := by
          cases rest with
          | nil => simp at h
          | cons d tail => exact ⟨tail, by simpa using h.2⟩
        simp [Piece.text, blockTail_append]
      · simp [Piece.text]

theorem text_lead_ne_nil (c : Char) (rest : Text) : (lead c rest).1.text ≠ [] := by
  unfold lead
  split
  · simp [Piece.text]
  · split
    · simp [Piece.text]
    · split <;> simp [Piece.text]

theorem length_lead_lt (c : Char) (rest : Text) : (lead c rest).2.length < (c :: rest).length := by
  have whole := congrArg List.length (lead_append c rest)
  have := List.length_pos_iff.2 (text_lead_ne_nil c rest)
  simp only [List.length_append] at whole
  omega

def pieces : Text → List Piece
  | [] => []
  | c :: rest => (lead c rest).1 :: pieces (lead c rest).2
termination_by t => t.length
decreasing_by exact length_lead_lt c rest

def flatten (ps : List Piece) : Text := ps.flatMap Piece.text

@[simp] theorem flatten_nil : flatten [] = [] := rfl

@[simp] theorem flatten_cons (p : Piece) (ps : List Piece) :
    flatten (p :: ps) = p.text ++ flatten ps := rfl

@[simp] theorem flatten_append (ps qs : List Piece) :
    flatten (ps ++ qs) = flatten ps ++ flatten qs := by
  simp [flatten]

@[simp] theorem flatten_pieces (t : Text) : flatten (pieces t) = t := by
  fun_induction pieces t with
  | case1 => rfl
  | case2 c rest ih => rw [flatten_cons, ih, lead_append]

end SfcJsx.Code
