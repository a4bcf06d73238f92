import SfcJsx.Code.Bracket
import SfcJsx.Proofs.PieceCut

/-!
Template literals with substitutions, and what the mask makes of the code behind them. The scan has
no stack: a literal ends at the next backtick. So a nested literal is read with code and literal
exchanged, which comes right again where its text has no quotes and comments. Main statement: the
code behind a literal is read as it stands exactly if a letter behind it is, and it is so behind
every literal that is in step.
-/

namespace SfcJsx.Code

open List

inductive Nest where
  | template
  | string (quote : Char)
  | code

/-- A character of code where it stands: no quote, and no slash that starts a comment. -/
def Passes (c : Char) (rest : Text) : Prop :=
  isQuote c = false ∧ (c = '/' → ∃ d, rest.head? = some d ∧ d ≠ '/' ∧ d ≠ '*')

def brackets : Text := ['(', ')', '[', ']', '{', '}']

/-- The rest of a template literal or string behind its opening quote, and code with matching
brackets. `inside` tells whether the scan takes the template for a literal, as it does at every
second depth. Those that are `strict` are in step with the scan: no backticks in strings that it
takes for text, no quotes and comments in text that it takes for code. -/
inductive Written (strict : Bool) : Bool → Nest → Text → Prop
  | close {inside} : Written strict inside .template ['`']
  | text {inside c rest} (other : c ≠ '`' ∧ c ≠ '\\') (opens : c = '$' → rest.head? ≠ some '{')
      (step : strict = true → inside = false → Passes c rest)
      (later : Written strict inside .template rest) : Written strict inside .template (c :: rest)
  | escape {inside c rest} (step : strict = true → inside = false → isPlain c = true)
      (later : Written strict inside .template rest) :
      Written strict inside .template ('\\' :: c :: rest)
  | substitution {inside code rest} (content : Written strict inside .code code)
      (later : Written strict inside .template rest) :
      Written strict inside .template ('$' :: '{' :: (code ++ '}' :: rest))
  | last {inside q} (quote : q = '"' ∨ q = '\'') : Written strict inside (.string q) [q]
  | letter {inside q c rest} (other : c ≠ q ∧ c ≠ '\\' ∧ c ≠ '\n')
      (step : strict = true → inside = true → c ≠ '`')
      (later : Written strict inside (.string q) rest) :
      Written strict inside (.string q) (c :: rest)
  | escaped {inside q c rest} (later : Written strict inside (.string q) rest) :
      Written strict inside (.string q) ('\\' :: c :: rest)
  | nil {inside} : Written strict inside .code []
  | char {inside c rest} (other : isQuote c = false ∧ c ∉ brackets)
      (step : strict = true → if inside then c ≠ '\\' else Passes c rest)
      (later : Written strict inside .code rest) : Written strict inside .code (c :: rest)
  | group {inside opening closing code rest}
      (pair : (opening, closing) ∈ [('(', ')'), ('[', ']'), ('{', '}')])
      (content : Written strict inside .code code) (later : Written strict inside .code rest) :
      Written strict inside .code (opening :: (code ++ closing :: rest))
  | quoted {inside q body rest} (quote : q = '"' ∨ q = '\'')
      (content : Written strict inside (.string q) body)
      (later : Written strict inside .code rest) : Written strict inside .code (q :: (body ++ rest))
  | nested {inside body rest} (content : Written strict (!inside) .template body)
      (later : Written strict inside .code rest) :
      Written strict inside .code ('`' :: (body ++ rest))

variable {inside inside' : Bool} {c q : Char} {r s t : Text} {nest : Nest}

def scanIn (inside : Bool) (t : Text) : List (Char × Bool) :=
  if inside then (literalTail '`' t).1.map (·, false) ++ marked (literalTail '`' t).2 else marked t

def Leads (inside : Bool) (r : Text) (inside' : Bool) : Prop :=
  ∀ s, (scanIn inside (r ++ s)).drop r.length = scanIn inside' s

theorem Leads.append {inside'' : Bool} (first : Leads inside r inside')
    (second : Leads inside' s inside'') : Leads inside (r ++ s) inside'' := by
  intro u
  rw [append_assoc, length_append, ← drop_drop, first, second]

theorem leads_cons (mark : Char × Bool)
    (h : ∀ u, scanIn inside (c :: u) = mark :: scanIn inside' u) : Leads inside [c] inside' := by
  intro u
  rw [singleton_append, h]
  rfl

theorem leads_inside (other : c ≠ '`' ∧ c ≠ '\\') : Leads true [c] true := by
  refine leads_cons (c, false) fun u => ?_
  simp [scanIn, literalTail_cons other.2, other.1]

theorem leads_escape (c : Char) : Leads true ['\\', c] true := by
  intro u
  simp [scanIn, literalTail]

theorem leads_closing : Leads true ['`'] false := by
  refine leads_cons ('`', false) fun u => ?_
  simp [scanIn, literalTail_cons]

theorem leads_opening : Leads false ['`'] true := by
  refine leads_cons ('`', false) fun u => ?_
  rw [scanIn, marked_cons]
  simp [lead, isQuote, Piece.marks, Piece.text, Piece.isCode, scanIn]

theorem leads_passes (passes : Passes c r) (later : Leads false r inside) :
    Leads false (c :: r) inside := by
  intro u
  have code : lead c (r ++ u) = (.code c, r ++ u) := by
    unfold lead
    have head (d : Char) (first : d = '/' ∨ d = '*') : ¬ (c = '/' ∧ (r ++ u).head? = some d) := by
      rintro ⟨slash, next⟩
      obtain ⟨e, starts, line, block⟩ := passes.2 slash
      rw [head?_append, starts] at next
      obtain rfl : e = d := Option.some.inj next
      exact first.elim line block
    rw [if_neg (by simp [passes.1]), if_neg (head '/' (.inl rfl)), if_neg (head '*' (.inr rfl))]
  have := later u
  rw [scanIn] at this ⊢
  rw [cons_append, marked_cons, code]
  simpa [Piece.marks, Piece.text] using this

theorem leads_plain (plain : isPlain c) : Leads false [c] false := by
  refine leads_passes ?_ fun u => by simp
  have : isQuote c = false ∧ c ≠ '/' := by simpa [isPlain] using plain
  exact ⟨this.1, fun slash => absurd slash this.2⟩

/-- A character that is read the same in code and in a literal. -/
abbrev IsMark (c : Char) : Prop := isPlain c ∧ c ≠ '\\'

theorem IsMark.leads (h : IsMark c) (inside : Bool) : Leads inside [c] inside := by
  cases inside with
  | true =>
    refine leads_inside ⟨?_, h.2⟩
    rintro rfl
    cases h.1
  | false => exact leads_plain h.1

theorem leads_quoted (quote : isQuote q) (ends : ∀ u, literalTail q (r ++ u) = (r, u)) :
    Leads false (q :: r) false := by
  intro u
  rw [scanIn, cons_append, marked_cons, lead, if_pos quote, ends]
  simp [Piece.marks, Piece.text, scanIn]

/-- What the scan makes of the parts of a literal that is in step. -/
def Reads : Bool → Nest → Text → Prop
  | inside, .template, r => Leads inside r (!inside)
  | inside, .code, r => Leads inside r inside
  | true, .string _, r => Leads true r true
  | false, .string q, r => ∀ u, literalTail q (r ++ u) = (r, u)

theorem ne_of_quote (quote : q = '"' ∨ q = '\'') : q ≠ '`' ∧ q ≠ '\\' := by
  rcases quote with rfl | rfl <;> decide

theorem Written.reads (h : Written true inside nest r) : Reads inside nest r := by
  induction h with
  | @close inside =>
    cases inside with
    | true => exact leads_closing
    | false => exact leads_opening
  | @text inside c rest other opens step later ih =>
    cases inside with
    | true => exact (leads_inside other).append ih
    | false => exact leads_passes (step rfl rfl) ih
  | @escape inside c rest step later ih =>
    cases inside with
    | true => exact (leads_escape c).append ih
    | false => exact ((leads_plain (by decide)).append (leads_plain (step rfl rfl))).append ih
  | @substitution inside code rest content later ih ih' =>
    have mark {c : Char} (h : IsMark c) := h.leads inside
    exact (mark (by decide)).append <| (mark (by decide)).append <|
      ih.append ((mark (by decide)).append ih')
  | @last inside q quote =>
    have other := ne_of_quote quote
    cases inside with
    | true => exact leads_inside other
    | false => exact fun u => by rw [singleton_append, literalTail_cons other.2, if_pos rfl]
  | @letter inside q c rest other step later ih =>
    cases inside with
    | true => exact (leads_inside ⟨step rfl rfl, other.2.1⟩).append ih
    | false =>
      intro u
      have := ih u
      simp [literalTail_cons other.2.1, other, this]
  | @escaped inside q c rest later ih =>
    cases inside with
    | true => exact (leads_escape c).append ih
    | false =>
      intro u
      have := ih u
      simp [literalTail, this]
  | nil => exact fun u => rfl
  | @char inside c rest other step later ih =>
    cases inside with
    | true =>
      refine (leads_inside ⟨?_, step rfl⟩).append ih
      rintro rfl
      cases other.1
    | false => exact leads_passes (step rfl) ih
  | @group inside opening closing code rest pair content later ih ih' =>
    have marks : IsMark opening ∧ IsMark closing := by
      simp only [mem_cons, Prod.mk.injEq, not_mem_nil, or_false] at pair
      rcases pair with ⟨rfl, rfl⟩ | ⟨rfl, rfl⟩ | ⟨rfl, rfl⟩ <;> decide
    exact (marks.1.leads _).append (ih.append ((marks.2.leads _).append ih'))
  | @quoted inside q body rest quote content later ih ih' =>
    cases inside with
    | true => exact (leads_inside (ne_of_quote quote)).append (ih.append ih')
    | false => exact (leads_quoted (by rcases quote with rfl | rfl <;> rfl) ih).append ih'
  | @nested inside body rest content later ih ih' =>
    cases inside with
    | true => exact leads_closing.append (ih.append ih')
    | false => exact leads_opening.append (ih.append ih')

theorem drop_byteMask (t s : Text) : (byteMask (t ++ s)).drop t.width =
    ((marked (t ++ s)).drop t.length).flatMap fun m => replicate m.1.utf8Size m.2 := by
  have bytes (marks : List (Char × Bool)) :
      (marks.flatMap fun m => replicate m.1.utf8Size m.2).length =
        Text.width (marks.map Prod.fst) := by
    induction marks with
    | nil => rfl
    | cons m marks ih => simp [ih]
  have front : Text.width (((marked (t ++ s)).take t.length).map Prod.fst) = t.width := by
    rw [map_take, map_fst_marked, take_left]
  have split := take_append_drop t.length (marked (t ++ s))
  have whole : byteMask (t ++ s) = ((marked (t ++ s)).take t.length).flatMap
      (fun m => replicate m.1.utf8Size m.2) ++ ((marked (t ++ s)).drop t.length).flatMap
      (fun m => replicate m.1.utf8Size m.2) := by
    rw [← flatMap_append, split]
    rfl
  rw [whole, ← front, ← bytes, drop_left]

theorem drop_byteMask_of_marked (h : (marked (t ++ s)).drop t.length = marked s) :
    (byteMask (t ++ s)).drop t.width = byteMask s := by
  rw [drop_byteMask, h]
  rfl

theorem parts_of_letter (letter : (byteMask (t ++ ['a'])).getLast? = some true) :
    Parts t ['a'] := by
  obtain ⟨flag, last⟩ : ∃ flag, (marked (t ++ ['a'])).drop t.length = [('a', flag)] := by
    have texts : ((marked (t ++ ['a'])).drop t.length).map Prod.fst = ['a'] := by
      rw [map_drop, map_fst_marked, drop_left]
    obtain ⟨m, single, first⟩ := map_eq_singleton_iff.1 texts
    exact ⟨m.2, by rw [single, ← first]⟩
  have bytes := drop_byteMask t ['a']
  rw [last] at bytes
  have whole := take_append_drop t.width (byteMask (t ++ ['a']))
  rw [bytes] at whole
  obtain rfl : flag := by
    rw [← whole] at letter
    simpa [show 'a'.utf8Size = 1 from rfl] using letter
  have split := take_append_drop t.length (marked (t ++ ['a']))
  rw [last] at split
  obtain ⟨u, v, same, -, empty, read⟩ := exists_of_marked_eq split.symm
  obtain rfl : v = [] := by rw [← map_fst_marked v, empty, map_nil]
  obtain rfl := append_cancel_right same
  rw [Parts, read, pieces_cons_of_isPlain (by decide)]

theorem byteMask_behind_iff (ends : t.getLast? = some '`') :
    (∀ s, (byteMask (t ++ s)).drop t.width = byteMask s) ↔
      (byteMask (t ++ ['a'])).getLast? = some true := by
  constructor
  · intro all
    have letter : byteMask ['a'] = [true] := by decide +kernel
    rw [← take_append_drop t.width (byteMask (t ++ ['a'])), all, letter, getLast?_append]
    rfl
  · intro letter s
    have noSlash : (marked t).getLast? ≠ some ('/', true) := by
      intro slash
      have := congrArg (Option.map Prod.fst) slash
      rw [← getLast?_map, map_fst_marked, ends] at this
      simp at this
    have parts := (parts_of_letter letter).swap (by decide) noSlash s
    have length : (marked t).length = t.length := by
      rw [← length_map (f := Prod.fst), map_fst_marked]
    apply drop_byteMask_of_marked
    rw [parts.marked_append, ← length, drop_left]

theorem Written.getLast? {strict : Bool} (h : Written strict inside nest r)
    (isTemplate : nest = .template) : r.getLast? = some '`' := by
  induction h with
  | close => rfl
  | text _ _ _ _ ih => rw [getLast?_cons, ih rfl]; rfl
  | escape _ _ ih => rw [getLast?_cons, getLast?_cons, ih rfl]; rfl
  | substitution _ _ _ ih => simp [getLast?_cons, getLast?_append, ih rfl]
  | _ => cases isTemplate

/-- The code behind a template literal is read as it stands exactly if a letter behind it is, and
it is behind every literal that is in step. -/
theorem template_ends (literal : Written false true .template r) :
    ((∀ s, (byteMask ('`' :: r ++ s)).drop (Text.width ('`' :: r)) = byteMask s) ↔
      (byteMask ('`' :: r ++ ['a'])).getLast? = some true) ∧
    (Written true true .template r →
      ∀ s, (byteMask ('`' :: r ++ s)).drop (Text.width ('`' :: r)) = byteMask s) := by
  constructor
  · refine byteMask_behind_iff ?_
    rw [getLast?_cons, literal.getLast? rfl]
    rfl
  · intro step s
    exact drop_byteMask_of_marked (leads_opening.append step.reads s)

theorem written_nested (strict : Bool) : Written strict true .template ("a$\x7b`b`\x7dc`" : Text) :=
  .text (by decide) (by decide) nofun <| .substitution
    (.nested (.text (by decide) (by decide) (fun _ _ => ⟨rfl, by decide⟩) .close) .nil) <|
    .text (by decide) (by decide) nofun .close

theorem template_ends_nested : Written false true .template ("a$\x7b`b`\x7dc`" : Text) ∧
    (byteMask ("`a$\x7b`b`\x7dc`(x)" : Text)).drop 10 = byteMask ("(x)" : Text) :=
  ⟨written_nested false, (template_ends (written_nested false)).2 (written_nested true) "(x)"⟩

/-- An apostrophe in the text of a nested literal starts a string, which goes on behind. -/
theorem template_leaks : Written false true .template ("$\x7b`it's`\x7d`" : Text) ∧
    (byteMask ("`$\x7b`it's`\x7d`(x)" : Text)).drop 11 ≠ byteMask ("(x)" : Text) := by
  have text : Written false false .template ("it's`" : Text) := by
    iterate 4 refine .text (by decide) (by decide) nofun ?_
    exact .close
  have code : Written false true .code ("`it's`" : Text) :=
    @Written.nested false true "it's`" [] text .nil
  exact ⟨@Written.substitution false true "`it's`" ['`'] code .close, by decide +kernel⟩

end SfcJsx.Code
