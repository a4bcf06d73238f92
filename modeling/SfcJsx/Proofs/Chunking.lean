import SfcJsx.Script.Statement
import SfcJsx.Proofs.StatementTail

/-!
Cutting a script into chunks, as a relation: which lines stay, which statements are taken out, and
that a statement which starts between two pieces of code ends between two pieces.
-/

namespace SfcJsx.Script

open List Code Marked

def isIndent : Char × Bool → Bool := fun (c, _) => c == ' ' || c == '\t'

/-- Whether the first word of a line is the keyword of a statement that is taken out. -/
def startsStatement (hoist : Bool) (depth : Int) (ms : Marked) : Bool :=
  let rest := ms.dropWhile isIndent
  depth == 0 && rest.head?.any (·.2) &&
    (startsImport (Marked.text rest) || hoist && startsWithKeyword (Marked.text rest) "export")

/-- The statement that a chunk takes out of the body. -/
def Chunk.cut? : Chunk → Option Cut
  | line _ => none
  | importing cut => some cut
  | exporting cut => some cut

/-- A statement with its surroundings. Where it starts between two pieces of code, it ends between
two pieces. -/
structure Taken (lead statement tail more : Marked) : Prop where
  indent : ∀ m ∈ lead, isIndent m
  keyword : "import".toList <+: Marked.text statement ∨ "export".toList <+: Marked.text statement
  isCode : statement.head?.any (·.2)
  ends : IsStatementTail (Marked.text tail)
  parts : ∀ t, marked t = statement ++ (tail ++ more) → ∃ u, marked u = tail ++ more

def IsLine (line more : Marked) : Prop :=
  ∃ init : Marked, (∀ m ∈ init, m.1 ≠ '\n') ∧
    ((∃ flag, line = init ++ [('\n', flag)]) ∨ line = init ∧ init ≠ [] ∧ more = [])

/-- The chunks of a script, and the characters of its lines. -/
inductive Chunked (hoist : Bool) : Int → Marked → List Chunk → Marked → Prop where
  | nil (depth : Int) : Chunked hoist depth [] [] []
  | taken {depth : Int} {lead statement tail more kept : Marked} {chunk : Chunk}
      {cs : List Chunk}
      (starts : startsStatement hoist depth (lead ++ (statement ++ (tail ++ more))))
      (taken : Taken lead statement tail more)
      (cut : chunk.cut? = some ⟨Marked.text lead, Marked.text statement, Marked.text tail⟩)
      (later : Chunked hoist depth more cs kept) :
      Chunked hoist depth (lead ++ (statement ++ (tail ++ more))) (chunk :: cs) kept
  | line {depth : Int} {line more kept : Marked} {cs : List Chunk} (isLine : IsLine line more)
      (stays : startsStatement hoist depth (line ++ more) = false)
      (later : Chunked hoist (depthAfter depth line) more cs kept) :
      Chunked hoist depth (line ++ more) (.line (Marked.text line) :: cs) (line ++ kept)

namespace Marked

@[simp] theorem text_append (a b : Marked) : text (a ++ b) = text a ++ text b := map_append

theorem text_marked (t : Text) : text (marked t) = t := map_fst_marked t

end Marked

theorem sourceLength_skip (body : Text) (more : Marked) :
    sourceLength false (body.map (·, false) ++ more) = body.length + sourceLength false more := by
  induction body with
  | nil => simp
  | cons c body ih =>
    simp only [map_cons, cons_append, sourceLength, Bool.and_false, Bool.false_and,
      Bool.false_eq_true, ↓reduceIte, ih, length_cons]
    omega

theorem exists_marked_drop_sourceLength (afterCode : Bool) (t : Text) :
    ∃ u, marked u = (marked t).drop (sourceLength afterCode (marked t)) := by
  fun_induction pieces t generalizing afterCode with
  | case1 => exact ⟨[], by simp [marked, pieces]⟩
  | case2 c rest ih =>
    obtain ⟨body, text⟩ := exists_text_lead c rest
    rw [marked_cons]
    cases isCode : (lead c rest).1.isCode with
    | true =>
      obtain ⟨u, same⟩ := ih true
      have marks : (lead c rest).1.marks = [(c, true)] := by
        cases piece : (lead c rest).1 with
        | code d =>
          rw [piece] at text
          cases text
          rfl
        | literal | comment => simp [piece, Piece.isCode] at isCode
      exact ⟨u, by simp [marks, sourceLength, same]⟩
    | false =>
      have marks : (lead c rest).1.marks = (c, false) :: body.map (·, false) := by
        simp [Piece.marks, text, isCode]
      rw [marks, cons_append, sourceLength]
      split
      · next string =>
        -- The literal that is read here is the piece that starts here.
        have quote : isQuote c := by
          simp only [Bool.and_eq_true, Bool.or_eq_true, beq_iff_eq] at string
          rcases string.1.1 with rfl | rfl <;> decide
        have literal : (literalTail c rest).1 = body := by
          rw [lead, if_pos quote] at text
          exact (cons.inj text).2
        have whole :
            Marked.text (body.map (·, false) ++ marked (lead c rest).2) = rest := by
          have := lead_append c rest
          rw [text] at this
          rw [Marked.text_append, Marked.text_marked]
          simpa [Marked.text, Function.comp_def] using this
        exact ⟨(lead c rest).2, by simp [whole, literal]⟩
      · obtain ⟨u, same⟩ := ih false
        exact ⟨u, by simp [sourceLength_skip, same, drop_append]⟩

theorem exportLength_cases (depth : Int) (line : Text) (ms : Marked) :
    ms.length ≤ exportLength depth line ms ∨ ∃ a c b, ms = a ++ (c, true) :: b ∧
      (exportLength depth line ms = a.length ∨ exportLength depth line ms = a.length + 1) := by
  induction ms generalizing depth line with
  | nil => exact .inl (Nat.le_refl _)
  | cons m rest ih =>
    obtain ⟨c, isCode⟩ := m
    have goes (depth : Int) (line : Text) (n : Nat) (same : n = exportLength depth line rest + 1) :
        ((c, isCode) :: rest).length ≤ n ∨ ∃ a d b, (c, isCode) :: rest = a ++ (d, true) :: b ∧
          (n = a.length ∨ n = a.length + 1) := by
      subst same
      rcases ih depth line with all | ⟨a, d, b, rfl, ends⟩
      · exact .inl (Nat.succ_le_succ all)
      · exact .inr ⟨(c, isCode) :: a, d, b, rfl, by simpa using ends⟩
    rw [exportLength]
    split
    · next code =>
      obtain rfl : isCode := code
      split
      · exact .inr ⟨[], c, rest, rfl, .inr rfl⟩
      · split
        · exact .inr ⟨[], c, rest, rfl, .inl rfl⟩
        · exact goes _ _ _ rfl
    · exact goes _ _ _ rfl

theorem exists_marked_drop_exportLength (depth : Int) (line t : Text) :
    ∃ u, marked u = (marked t).drop (exportLength depth line (marked t)) := by
  rcases exportLength_cases depth line (marked t) with all | ⟨a, c, b, whole, ends⟩
  · exact ⟨[], by rw [drop_eq_nil_of_le all]; simp [marked, Code.pieces]⟩
  · obtain ⟨s, u, rfl, left, right, read⟩ := exists_of_marked_eq whole
    rcases ends with before | behind
    · have alone := pieces_flatten_right read
      rw [Code.flatten_cons, flatten_pieces] at alone
      refine ⟨c :: u, ?_⟩
      rw [before, whole, drop_left, ← right]
      exact congrArg (flatMap Piece.marks) alone
    · exact ⟨u, by rw [behind, whole, right]; simp⟩

theorem drop_length_indent (ms : Marked) :
    ms.drop (ms.takeWhile isIndent).length = ms.dropWhile isIndent := by
  have whole := congrArg (drop (ms.takeWhile isIndent).length)
    (takeWhile_append_dropWhile (p := isIndent) (l := ms))
  rw [drop_left] at whole
  exact whole.symm

variable {keyword : Text} {n : Nat}

theorem exists_of_startsWithKeyword {t : Text} (starts : startsWithKeyword t keyword) :
    ∃ rest, t = keyword ++ rest := by
  unfold startsWithKeyword at starts
  split at starts
  · next found => exact ⟨_, Text.after?_eq_some_iff.1 found⟩
  · simp at starts

theorem exists_cutStatement (ms : Marked) (n : Nat) :
    ∃ tail more, (ms.dropWhile isIndent).drop n = tail ++ more ∧
      IsStatementTail (text tail) ∧
      cutStatement ms (ms.takeWhile isIndent).length n =
        (⟨text (ms.takeWhile isIndent), text ((ms.dropWhile isIndent).take n),
          text tail⟩, more) := by
  have lead : ms.take (ms.takeWhile isIndent).length = ms.takeWhile isIndent :=
    (prefix_iff_eq_take.1 (List.takeWhile_prefix isIndent)).symm
  simp only [cutStatement, ← drop_drop, drop_length_indent, lead]
  generalize (ms.dropWhile isIndent).drop n = rest
  obtain ⟨tail, ends, whole⟩ := exists_isStatementTail (text rest)
  have length := congrArg length whole
  simp only [text, length_map, length_append] at length
  have count : rest.length - (afterStatement (text rest)).length = tail.length := by
    simp only [text]
    omega
  have text : text (rest.take tail.length) = tail := by
    rw [text, map_take]
    exact (congrArg (take tail.length) whole).trans take_left
  refine ⟨_, _, (take_append_drop tail.length rest).symm, ?_, ?_⟩
  · rwa [text]
  · rw [count]

theorem taken_of_keyword {lead rest tail more : Marked}
    (known : keyword = "import".toList ∨ keyword = "export".toList)
    (indent : ∀ m ∈ lead, isIndent m) (starts : startsWithKeyword (Marked.text rest) keyword)
    (isCode : rest.head?.any (·.2)) (whole : rest.drop (n + 6) = tail ++ more)
    (ends : IsStatementTail (Marked.text tail))
    (parts : ∀ t, marked t = rest.drop 6 → ∃ u, marked u = (rest.drop 6).drop n) :
    Taken lead (rest.take (n + 6)) tail more where
  indent := indent
  keyword := by
    obtain ⟨t, text⟩ := exists_of_startsWithKeyword starts
    have long : keyword.length = 6 := by rcases known with rfl | rfl <;> rfl
    have lead : keyword <+: Marked.text (rest.take (n + 6)) := by
      rw [Marked.text, map_take]
      exact prefix_take_iff.2 ⟨⟨t, text.symm⟩, by omega⟩
    rcases known with rfl | rfl
    · exact .inl lead
    · exact .inr lead
  isCode := by
    cases rest with
    | nil => simp at isCode
    | cons m rest => exact isCode
  ends := ends
  parts := by
    intro t same
    rw [← whole, take_append_drop] at same
    obtain ⟨u, text⟩ := exists_of_startsWithKeyword starts
    have six : keyword.length = 6 ∧ keyword.all isPlain := by
      rcases known with rfl | rfl <;> decide
    rw [← same, Marked.text_marked] at text
    subst text
    rw [marked_append_of_isPlain (all_eq_true.1 six.2)] at same
    have later : rest.drop 6 = marked u := by
      rw [← same, drop_left' (by simp [six.1])]
    obtain ⟨v, found⟩ := parts u later.symm
    exact ⟨v, by rw [← whole, found, drop_drop, Nat.add_comm]⟩

theorem isLine_take {ms : Marked} (ne : ms ≠ []) :
    IsLine (ms.take (lineLength ms)) (ms.drop (lineLength ms)) := by
  induction ms with
  | nil => exact absurd rfl ne
  | cons m rest ih =>
    obtain ⟨c, flag⟩ := m
    by_cases breaks : c = '\n'
    · subst breaks
      exact ⟨[], by simp, .inl ⟨flag, by simp [lineLength]⟩⟩
    · simp only [lineLength, if_neg breaks, take_succ_cons, drop_succ_cons]
      cases rest with
      | nil => exact ⟨[(c, flag)], by simpa using breaks, .inr ⟨rfl, by simp, rfl⟩⟩
      | cons m rest =>
        obtain ⟨init, inside, ends⟩ := ih (by simp)
        refine ⟨(c, flag) :: init, ?_, ?_⟩
        · simpa [breaks] using inside
        · rcases ends with ⟨last, same⟩ | ⟨same, -, none⟩
          · exact .inl ⟨last, by rw [same]; rfl⟩
          · exact .inr ⟨by rw [same], by simp, none⟩

theorem Chunked.statement {hoist : Bool} {depth : Int} {ms kept : Marked} {cs : List Chunk}
    {wrap : Cut → Chunk} (cuts : ∀ cut, (wrap cut).cut? = some cut)
    (known : keyword = "import".toList ∨ keyword = "export".toList)
    (begins : startsStatement hoist depth ms)
    (isCode : (ms.dropWhile isIndent).head?.any (·.2))
    (starts : startsWithKeyword (text (ms.dropWhile isIndent)) keyword)
    (parts : ∀ t, marked t = (ms.dropWhile isIndent).drop 6 →
      ∃ u, marked u = ((ms.dropWhile isIndent).drop 6).drop n) (later : Chunked hoist depth
      (cutStatement ms (ms.takeWhile isIndent).length (n + 6)).2 cs kept) :
    Chunked hoist depth ms
      (wrap (cutStatement ms (ms.takeWhile isIndent).length (n + 6)).1 :: cs) kept := by
  obtain ⟨tail, more, whole, ends, same⟩ := exists_cutStatement ms (n + 6)
  have indent : ∀ m ∈ ms.takeWhile isIndent, isIndent m := all_eq_true.1 all_takeWhile
  have taken := taken_of_keyword known indent starts isCode whole ends parts
  have joined : ms.takeWhile isIndent ++ ((ms.dropWhile isIndent).take (n + 6) ++
      (tail ++ more)) = ms := by
    rw [← whole, take_append_drop, takeWhile_append_dropWhile]
  rw [same] at later ⊢
  have chunked := Chunked.taken (by rwa [joined]) taken (cuts _) later
  rwa [joined] at chunked

theorem exists_chunked (hoist : Bool) (depth : Int) (ms : Marked) :
    ∃ kept, Chunked hoist depth ms (chunks hoist depth ms) kept := by
  fun_induction chunks hoist depth ms with
  | case1 depth => exact ⟨[], .nil depth⟩
  | case2 depth ms ne lead rest isStatement starts cut ih =>
    obtain ⟨kept, later⟩ := ih
    have same : rest = ms.dropWhile isIndent := drop_length_indent ms
    simp only [isStatement, Bool.and_eq_true] at starts
    have begins : startsStatement hoist depth ms := by
      simp [startsStatement, ← same, starts]
    simp only [startsImport, Bool.and_eq_true] at starts
    refine ⟨kept, .statement (fun _ => rfl) (.inl rfl) begins (same ▸ starts.1.2)
      (same ▸ starts.2.1) ?_ later⟩
    intro t marked
    rw [← same] at marked ⊢
    exact marked ▸ exists_marked_drop_sourceLength true t
  | case3 depth ms ne lead rest isStatement _ starts cut ih =>
    obtain ⟨kept, later⟩ := ih
    have same : rest = ms.dropWhile isIndent := drop_length_indent ms
    simp only [isStatement, Bool.and_eq_true] at starts
    have begins : startsStatement hoist depth ms := by
      simp only [startsStatement, ← same, starts, Bool.and_self, Bool.or_true]
    refine ⟨kept, .statement (fun _ => rfl) (.inr rfl) begins (same ▸ starts.1.1.2)
      (same ▸ starts.2) ?_ later⟩
    intro t marked
    rw [← same] at marked ⊢
    exact marked ▸ exists_marked_drop_exportLength 0 [] t
  | case4 depth ms ne lead rest isStatement notImport notExport line ih =>
    obtain ⟨kept, later⟩ := ih
    have same : rest = ms.dropWhile isIndent := drop_length_indent ms
    have stays : startsStatement hoist depth ms = false := by
      simp only [startsStatement, ← same]
      rw [Bool.and_or_distrib_left, Bool.or_eq_false_iff, ← Bool.and_assoc]
      exact ⟨eq_false_of_ne_true notImport, eq_false_of_ne_true notExport⟩
    have chunked := Chunked.line (isLine_take ne) (by rwa [take_append_drop]) later
    rw [take_append_drop] at chunked
    exact ⟨line ++ kept, chunked⟩

end SfcJsx.Script
