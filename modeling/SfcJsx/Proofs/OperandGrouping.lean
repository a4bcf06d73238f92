import Mathlib.Data.List.TakeWhile
import SfcJsx.Proofs.OperandSigns

/-!
How an expression groups. Outside brackets and literals an expression is operands with signs between
them; a conditional has an operand as its test and reaches as far to the right as it can. So there
is at most one grouping, and a text is a single operand only if it has no sign.
-/

namespace SfcJsx.Expression

open List Text

variable {t run : Text} {c : Char} {rest : List Lexeme}

theorem openStep_append_cons (opened : List Level) (c : Char) (t : Text) {d : Char}
    (other : d ≠ '{') (rest : Text) :
    openStep opened c (t ++ d :: rest).head? = openStep opened c t.head? := by
  have same : (t ++ d :: rest).head? = some '{' ↔ t.head? = some '{' := by
    cases t <;> simp [other]
  unfold openStep
  simp only [same]

theorem lexemesFrom_blank (run rest : Text) :
    lexemesFrom [] run (' ' :: rest) = punctuate false 0 run ++ lexemes rest := by
  exact congrArg (· ++ lexemes rest) (append_nil _)

theorem lexemesFrom_append_blank {opened : List Level}
    (closes : openAfter opened t = some []) (run rest : Text) :
    lexemesFrom opened run (t ++ ' ' :: rest) = lexemesFrom opened run t ++ lexemes rest := by
  induction t generalizing opened run with
  | nil =>
    obtain rfl : opened = [] := Option.some.inj closes
    exact lexemesFrom_blank run rest
  | cons c t ih =>
    obtain ⟨next, stepped, closes⟩ := Option.bind_eq_some_iff.1 closes
    have longer := stepped
    rw [← @openStep_append_cons opened c t ' ' (by decide) rest] at longer
    by_cases sign : opened = [] ∧ c ∈ signChars
    · obtain ⟨rfl, sign⟩ := sign
      obtain rfl : [] = next := by
        have plain : c ∉ delimiters := fun delimiter => (not_sign_of_delimiter delimiter).1 sign
        have stays : openStep [] c t.head? = some [] := @openStep_of_not_mem [] c plain _
        exact Option.some.inj (stays.symm.trans stepped)
      rw [cons_append, lexemesFrom_sign sign, lexemesFrom_sign sign, ih closes]
    · have inner (none : opened = []) : c ∉ signChars := fun listed => sign ⟨none, listed⟩
      rw [cons_append, lexemesFrom_step inner longer, lexemesFrom_step inner stepped, ih closes,
        append_assoc, append_assoc, append_assoc]

theorem lexemes_between (sign : c ∈ signChars) (balanced : IsBalanced t)
    (rest : Text) : lexemes (t ++ ' ' :: c :: ' ' :: rest) =
      lexemes t ++ (punctuate false 0 [c] ++ lexemes rest) := by
  calc lexemes (t ++ ' ' :: c :: ' ' :: rest)
      = lexemes t ++ lexemes (c :: ' ' :: rest) := lexemesFrom_append_blank balanced [] _
    _ = lexemes t ++ lexemesFrom [] [c] (' ' :: rest) :=
      congrArg (lexemes t ++ ·) (lexemesFrom_sign sign [] _)

def questionMark : Lexeme := ⟨['?'], some .question⟩

def colonMark : Lexeme := ⟨[':'], some .colon⟩

theorem lexemes_question (balanced : IsBalanced t) (rest : Text) :
    lexemes (t ++ " ? " ++ rest) = lexemes t ++ questionMark :: lexemes rest := by
  rw [append_assoc]
  exact lexemes_between (by decide) balanced rest

theorem lexemes_colon (balanced : IsBalanced t) (rest : Text) :
    lexemes (t ++ " : " ++ rest) = lexemes t ++ colonMark :: lexemes rest := by
  rw [append_assoc]
  exact lexemes_between (by decide) balanced rest

section Operands

/-- Signs that bind no tighter than a conditional. -/
def looseSigns : List Sign := [.question, .comma, .assignment, .arrow]

def IsWrapped (t : Text) : Prop := ∃ inner, t = '(' :: (inner ++ [')']) ∧ IsBalanced inner

/-- A text that is wrapped as a whole, or that no sign takes apart. -/
def StaysOperand (t : Text) : Prop := IsWrapped t ∨ ∀ sign ∈ signs t, sign ∉ looseSigns

variable {opened next : List Level}

theorem openInCode_append (stepped : openInCode opened c = some next)
    (outer : List Level) : openInCode (opened ++ outer) c = some (next ++ outer) := by
  unfold openInCode at stepped ⊢
  cases opened <;> grind

theorem openStep_append {following : Option Char}
    (stepped : openStep opened c following = some next) (closing : Char) :
    openStep (opened ++ [.bracket closing]) c following = some (next ++ [.bracket closing]) := by
  cases opened with
  | nil => exact openInCode_append stepped _
  | cons level opened =>
    cases level with
    | bracket => exact openInCode_append stepped _
    | quote | template | escape =>
      simp only [openStep, cons_append] at stepped ⊢
      grind

theorem signsFrom_wrapped (closes : openAfter opened t = some []) :
    signsFrom (opened ++ [.bracket ')']) [] (t ++ [')']) = [] := by
  induction t generalizing opened with
  | nil =>
    obtain rfl : opened = [] := Option.some.inj closes
    rfl
  | cons c t ih =>
    obtain ⟨next, stepped, closes⟩ := Option.bind_eq_some_iff.1 closes
    rw [← @openStep_append_cons opened c t ')' (by decide) []] at stepped
    rw [cons_append, signsFrom_step (by simp) (openStep_append stepped ')'), ih closes]
    rfl

theorem signs_of_isWrapped (wrapped : IsWrapped t) : signs t = [] := by
  obtain ⟨inner, rfl, balanced⟩ := wrapped
  calc signs ('(' :: (inner ++ [')']))
    _ = [] := signsFrom_wrapped balanced

theorem staysOperand_iff : StaysOperand t ↔ ∀ sign ∈ signs t, sign ∉ looseSigns := by
  constructor
  · rintro (wrapped | free)
    · simp [signs_of_isWrapped wrapped]
    · exact free
  · exact .inr

end Operands

/-- Lexemes that stand for one operand. -/
structure IsOperand (items : List Lexeme) : Prop where
  some : items ≠ []
  free : ∀ item ∈ items, item.sign = none

instance (items : List Lexeme) : Decidable (IsOperand items) :=
  decidable_of_iff (items ≠ [] ∧ ∀ item ∈ items, item.sign = none)
    ⟨fun parts => ⟨parts.1, parts.2⟩, fun h => ⟨h.some, h.free⟩⟩

/-- An expression without a comma outside brackets and literals. -/
inductive Tree where
  | operand (items : List Lexeme)
  | conditional (test : List Lexeme) (yes no : Tree)
  /-- An assignment or an arrow function. -/
  | binding (target : List Lexeme) (sign : Lexeme) (value : Tree)
  deriving DecidableEq, Repr

namespace Tree

def lexemes : Tree → List Lexeme
  | operand items => items
  | conditional test yes no => test ++ questionMark :: (yes.lexemes ++ colonMark :: no.lexemes)
  | binding target sign value => target ++ sign :: value.lexemes

def IsValid : Tree → Prop
  | operand items => IsOperand items
  | conditional test yes no => IsOperand test ∧ yes.IsValid ∧ no.IsValid
  | binding target sign value =>
    IsOperand target ∧ (sign.sign = some .assignment ∨ sign.sign = some .arrow) ∧ value.IsValid

instance decidableIsValid : (tree : Tree) → Decidable tree.IsValid
  | operand items => inferInstanceAs (Decidable (IsOperand items))
  | conditional test yes no =>
    have := decidableIsValid yes
    have := decidableIsValid no
    inferInstanceAs (Decidable (IsOperand test ∧ yes.IsValid ∧ no.IsValid))
  | binding target sign value =>
    have := decidableIsValid value
    inferInstanceAs (Decidable (IsOperand target ∧
      (sign.sign = some .assignment ∨ sign.sign = some .arrow) ∧ value.IsValid))

structure Spells (tree : Tree) (t : Text) : Prop where
  valid : tree.IsValid
  items : tree.lexemes = Expression.lexemes t

def Ends (items : List Lexeme) : Prop :=
  ∀ item ∈ items.head?, item.sign ∈ [some .colon, some .comma, some .semicolon]

variable {tree other : Tree} {items rest' : List Lexeme} {sign : Lexeme}

theorem operand_unique {items' : List Lexeme} (plain : IsOperand items) (plain' : IsOperand items')
    (signed : ∀ item ∈ rest.head?, item.sign.isSome)
    (signed' : ∀ item ∈ rest'.head?, item.sign.isSome)
    (same : items ++ rest = items' ++ rest') : items = items' ∧ rest = rest' := by
  have stops {items rest : List Lexeme} (plain : IsOperand items)
      (signed : ∀ item ∈ rest.head?, item.sign.isSome) :
      (items ++ rest).takeWhile (·.sign.isNone) = items := by
    rw [takeWhile_append_of_pos (fun item member => by simp [plain.free item member])]
    cases rest with
    | nil => simp
    | cons item rest => simp [Option.isSome_iff_ne_none.1 (signed item rfl)]
  have equal : items = items' := by rw [← stops plain signed, same, stops plain' signed']
  subst equal
  exact ⟨rfl, append_cancel_left same⟩

theorem Ends.signed (h : Ends items) : ∀ item ∈ items.head?, item.sign.isSome := by
  intro item first
  have listed := h item first
  revert listed
  cases item.sign <;> simp

def first : Tree → List Lexeme
  | operand items => items
  | conditional test _ _ => test
  | binding target _ _ => target

def tail : Tree → List Lexeme
  | operand _ => []
  | conditional _ yes no => questionMark :: (yes.lexemes ++ colonMark :: no.lexemes)
  | binding _ sign value => sign :: value.lexemes

theorem first_append_tail (tree : Tree) : tree.first ++ tree.tail = tree.lexemes := by
  cases tree <;> simp [first, tail, lexemes]

theorem IsValid.first (valid : tree.IsValid) : IsOperand tree.first := by
  cases tree with
  | operand => exact valid
  | conditional => exact valid.1
  | binding => exact valid.1

theorem IsValid.signed (valid : tree.IsValid) (ends : Ends rest) :
    ∀ item ∈ (tree.tail ++ rest).head?, item.sign.isSome := by
  cases tree with
  | operand => exact ends.signed
  | conditional => simp [tail, questionMark]
  | binding target sign value =>
    have signed : sign.sign.isSome := by
      rcases valid.2.1 with assigned | arrow <;> simp [*]
    simpa [tail] using signed

theorem first_unique (valid : tree.IsValid) (valid' : other.IsValid)
    (ends : Ends rest) (ends' : Ends rest') (same : tree.lexemes ++ rest = other.lexemes ++ rest') :
    tree.first = other.first ∧ tree.tail ++ rest = other.tail ++ rest' := by
  rw [← first_append_tail, ← other.first_append_tail, append_assoc, append_assoc] at same
  exact operand_unique valid.first valid'.first (valid.signed ends) (valid'.signed ends') same

theorem Ends.not_cons (ends : Ends (sign :: items))
    (goesOn : sign.sign ∈ [some .question, some .assignment, some .arrow]) : False := by
  have listed := ends sign rfl
  simp only [mem_cons, not_mem_nil, or_false] at goesOn listed
  rcases goesOn with same | same | same <;> simp [same] at listed

theorem IsValid.goesOn {target : List Lexeme} {value : Tree}
    (valid : (binding target sign value).IsValid) :
    sign.sign ∈ [some .question, some .assignment, some .arrow] := by
  rcases valid.2.1 with same | same <;> simp [same]

theorem unique_of_append (valid : tree.IsValid) (valid' : other.IsValid)
    (ends : Ends rest) (ends' : Ends rest') (same : tree.lexemes ++ rest = other.lexemes ++ rest') :
    tree = other ∧ rest = rest' := by
  have colon (items : List Lexeme) : Ends (colonMark :: items) := by simp [Ends, colonMark]
  -- Behind the first operand the next sign tells which kind of tree it is.
  induction tree generalizing other rest rest' with
  | operand items =>
    obtain ⟨starts, onward⟩ := first_unique valid valid' ends ends' same
    have onward : rest = other.tail ++ rest' := onward
    cases other with
    | operand => exact ⟨congrArg operand starts, onward⟩
    | conditional =>
      rw [onward] at ends
      exact (ends.not_cons (by decide)).elim
    | binding =>
      rw [onward] at ends
      exact (ends.not_cons valid'.goesOn).elim
  | conditional test yes no ihYes ihNo =>
    obtain ⟨starts, onward⟩ := first_unique valid valid' ends ends' same
    cases other with
    | operand =>
      have onward : _ = rest' := onward
      rw [← onward] at ends'
      exact (ends'.not_cons (by decide)).elim
    | conditional test' yes' no' =>
      obtain ⟨-, validYes, validNo⟩ := valid
      obtain ⟨-, validYes', validNo'⟩ := valid'
      simp only [tail, cons_append, append_assoc] at onward
      obtain ⟨rfl, later⟩ := ihYes validYes validYes' (colon _) (colon _) (cons.inj onward).2
      obtain ⟨rfl, behind⟩ := ihNo validNo validNo' ends ends' (cons.inj later).2
      obtain rfl : test = test' := starts
      exact ⟨rfl, behind⟩
    | binding target sign value =>
      obtain ⟨rfl, -⟩ := cons.inj onward
      rcases valid'.2.1 with same | same <;> cases same
  | binding target sign value ih =>
    obtain ⟨starts, onward⟩ := first_unique valid valid' ends ends' same
    cases other with
    | operand =>
      have onward : _ = rest' := onward
      rw [← onward] at ends'
      exact (ends'.not_cons valid.goesOn).elim
    | conditional =>
      obtain ⟨rfl, -⟩ := cons.inj onward
      rcases valid.2.1 with same | same <;> cases same
    | binding target' sign' value' =>
      obtain ⟨rfl, later⟩ := cons.inj onward
      obtain ⟨rfl, behind⟩ := ih valid.2.2 valid'.2.2 ends ends' later
      obtain rfl : target = target' := starts
      exact ⟨rfl, behind⟩

theorem Spells.unique (h : tree.Spells t) (h' : other.Spells t) : tree = other := by
  have ends : Ends [] := by simp [Ends]
  have same : tree.lexemes ++ [] = other.lexemes ++ [] := by rw [h.items, h'.items]
  exact (unique_of_append h.valid h'.valid ends ends same).1

end Tree

/-- The tree is the only one that the text spells. -/
def GroupsAs (t : Text) (tree : Tree) : Prop := ∀ other : Tree, other.Spells t ↔ other = tree

theorem groupsAs_iff {tree : Tree} : GroupsAs t tree ↔ tree.Spells t := by
  constructor
  · exact fun groups => (groups tree).2 rfl
  · intro spells other
    constructor
    · exact fun h => h.unique spells
    · rintro rfl
      exact spells

section Blank

theorem punctuate_ne_nil (digit : Bool) (some : run ≠ []) : punctuate digit 0 run ≠ [] := by
  cases run with
  | nil => exact absurd rfl some
  | cons c run => simp [punctuate]

theorem lexemesFrom_ne_nil (some : run ≠ []) (opened : List Level) (t : Text) :
    lexemesFrom opened run t ≠ [] := by
  induction t generalizing run with
  | nil => exact punctuate_ne_nil false some
  | cons c t ih =>
    rw [lexemesFrom]
    split
    · exact ih (by simp)
    · simp [punctuate_ne_nil _ some]

theorem lexemes_eq_nil_iff : lexemes t = [] ↔ t.isBlankText := by
  induction t with
  | nil => exact iff_of_true rfl rfl
  | cons c t ih =>
    cases blank : isBlank c with
    | true =>
      have plain : c ∉ delimiters := not_mem_of_any blank (by decide)
      have stepped := @lexemesFrom_step [] [] c t (fun _ => not_mem_of_any blank (by decide))
        (@openStep_of_not_mem [] c plain _) []
      have same : lexemes (c :: t) = lexemes t := by
        rw [lexemes, stepped]
        simp [otherLexeme, blank, punctuate, lexemes]
      rw [same, ih]
      simp [isBlankText, blank]
    | false =>
      apply iff_of_false
      · rw [lexemes, lexemesFrom]
        split
        · exact lexemesFrom_ne_nil (by simp) [] t
        · simp [otherLexeme, blank]
      · simp [isBlankText, blank]

variable {env : Environment}
theorem qualifiedFrom_eq_nil_iff (s : Scan) (t : Text) : qualifiedFrom env s t = [] ↔ t = [] := by
  cases t with
  | nil => simp
  | cons c rest =>
    refine iff_of_false (fun none => ?_) (by simp)
    cases start : isIdentStart c with
    | false =>
      have first := @head?_qualifiedFrom env c start s rest
      rw [none] at first
      cases first
    | true =>
      obtain ⟨d, first, -⟩ := @start_qualifiedFrom env c start s rest
      rw [none] at first
      cases first

theorem isBlankText_qualifiedFrom (s : Scan) (t : Text) :
    (qualifiedFrom env s t).isBlankText = t.isBlankText := by
  have trimmed (t : Text) : t.isBlankText ↔ t.trimStart = [] := by
    rw [isBlankText, all_eq_true, trimStart, dropWhile_eq_nil_iff]
  obtain ⟨next, same⟩ := @trimStart_qualifiedFrom env s t
  rw [Bool.eq_iff_iff, trimmed, trimmed, same, qualifiedFrom_eq_nil_iff]

theorem isOperand_lexemes_iff : IsOperand (lexemes t) ↔ signs t = [] ∧ t.isBlankText = false := by
  rw [signs, filterMap_eq_nil_iff, ← Bool.not_eq_true, ← lexemes_eq_nil_iff]
  exact ⟨fun h => ⟨h.free, h.some⟩, fun h => ⟨h.2, h.1⟩⟩

example : IsOperand (lexemes "a ?? b?.c == d >= (e ? f : g) && 'h, i' <= 1") ∧
    signs "a ?.5:b" = [.question, .colon] ∧
    signs "x => x, y ??= z" = [.arrow, .comma, .assignment] := by decide +kernel

theorem isOperand_qualifiedFrom_iff (balanced : IsBalanced t) :
    IsOperand (lexemes (qualifiedFrom env {} t)) ↔ signs t = [] ∧ t.isBlankText = false := by
  rw [isOperand_lexemes_iff, signs_qualifiedFrom balanced, isBlankText_qualifiedFrom]

end Blank

end SfcJsx.Expression
