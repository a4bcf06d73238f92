import SfcJsx.Proofs.NameOccurrences
import SfcJsx.Proofs.QualifiedText
import SfcJsx.Proofs.StatementStart

/-!
Handlers are passed on as they are or wrapped in a function. A handler that is neither a chain of
names nor a function literal is wrapped, unless it is taken for one of them.
-/

namespace SfcJsx.Jsx

open List Text Code

variable {e after : Text}

/-- A handler behind the word `async`, or all of it. -/
def afterAsync (e : Text) : Text :=
  match after? "async" e with
  | some rest => if rest.head? = some ' ' ∨ rest.head? = some '(' then rest.trimStart else e
  | none => e

/-- Names with `.` or `?.` between them. -/
def IsChain (e : Text) : Prop := isMemberChain e ∧ e.getLast? ≠ some '?'

/-- The keyword `function`, or an arrow behind a name or behind parameters in parentheses, which may
have a return type. -/
inductive IsFunctionLiteral : Text → Prop
  | keyword {rest : Text} (ended : rest.head?.any isIdentChar = false) :
      IsFunctionLiteral ("function" ++ rest)
  | arrow {name after body : Text} (named : isIdentifier name)
      (arrow : after.trimStart = '=' :: '>' :: body) : IsFunctionLiteral (name ++ after)
  | parameters {t content after : Text} (list : balanced? '(' ')' t = some (content, after))
      (arrow : startsArrow after) : IsFunctionLiteral t

/-- What is taken for a chain or for a function: a chain with `?` at its end, a name that starts
with `function`, and a label before code with an arrow in it. -/
inductive IsMistaken (e : Text) : Prop
  | chain (links : isMemberChain e) (mark : e.getLast? = some '?')
  | keyword {rest : Text} (word : afterAsync e = "function" ++ rest)
      (goesOn : rest.head?.any isIdentChar)
  | label {name after code : Text} (word : afterAsync e = name ++ after)
      (named : isIdentifier name) (colon : after.trimStart = ':' :: code)
      (arrow : ['=', '>'] <:+: code)

theorem isFunction_eq (trimmed : e.trim = e) :
    isFunction e = if (afterAsync e).startsWith "function" then true
      else match afterAsync e with
        | '(' :: _ =>
          match balanced? '(' ')' (afterAsync e) with
          | some (_, after) => startsArrow after
          | none => false
        | c :: rest => isIdentStart c && startsArrow (rest.dropWhile isIdentChar)
        | [] => false := by
  rw [isFunction, trimmed]
  rfl

theorem startsArrow_iff :
    startsArrow after ↔ (∃ body, after.trimStart = '=' :: '>' :: body) ∨
      ∃ code, after.trimStart = ':' :: code ∧ ['=', '>'] <:+: code := by
  unfold startsArrow
  split
  · next code read => simp [read, ← containsText_iff]
  · next other =>
    rw [startsWith_eq_true_iff]
    exact ⟨.inl, fun arrow => arrow.resolve_right fun ⟨code, colon, _⟩ => other code colon⟩

section

variable (trimmed : e.trim = e)

include trimmed

theorem of_isFunction (function : isFunction e) :
    IsFunctionLiteral (afterAsync e) ∨ IsMistaken e := by
  rw [isFunction_eq trimmed] at function
  split at function
  · next starts =>
    obtain ⟨rest, word⟩ := startsWith_eq_true_iff.1 starts
    cases ended : rest.head?.any isIdentChar with
    | false => exact .inl (word ▸ .keyword ended)
    | true => exact .inr (.keyword word ended)
  · split at function
    · split at function
      · next list => exact .inl (.parameters list function)
      · cases function
    · next c rest _ read =>
      obtain ⟨start, arrow⟩ := Bool.and_eq_true_iff.1 function
      have named : isIdentifier (c :: rest.takeWhile isIdentChar) := by
        rw [isIdentifier, start, all_takeWhile]
        rfl
      have word : afterAsync e =
          c :: rest.takeWhile isIdentChar ++ rest.dropWhile isIdentChar := by
        rw [read, cons_append, takeWhile_append_dropWhile]
      rcases startsArrow_iff.1 arrow with ⟨body, arrow⟩ | ⟨code, colon, arrow⟩
      · exact .inl (word ▸ .arrow named arrow)
      · exact .inr (.label word named colon arrow)
    · cases function

theorem isFunction_of_name {name : Text} (word : afterAsync e = name ++ after)
    (named : isIdentifier name) (arrow : startsArrow after) : isFunction e := by
  have ended : after.head?.any isIdentChar = false := by
    cases after with
    | nil => rfl
    | cons d after =>
      cases blank : isBlank d with
      | true => exact isIdentChar_of_isBlank blank
      | false =>
        have kept : trimStart (d :: after) = d :: after := dropWhile_of_head? blank
        rw [startsArrow_iff, kept] at arrow
        rcases arrow with ⟨body, same⟩ | ⟨code, same, -⟩
        · rw [same]; rfl
        · rw [same]; rfl
  obtain ⟨c, tail, rfl, start⟩ := exists_start named
  have inside := isIdentChar_of_mem named
  have rest : (tail ++ after).dropWhile isIdentChar = after := by
    rw [dropWhile_append_of_pos (forall_mem_cons.1 inside).2, dropWhile_of_head? ended]
  rw [isFunction_eq trimmed, word, cons_append]
  split
  · rfl
  · split
    · next bracket =>
      cases bracket
      cases start
    · next same =>
      cases same
      rw [start, rest, arrow]
      rfl
    · next empty => cases empty

theorem isFunction_of_keyword {rest : Text}
    (word : afterAsync e = "function" ++ rest) : isFunction e := by
  rw [isFunction_eq trimmed, if_pos (startsWith_eq_true_iff.2 ⟨rest, word⟩)]

theorem IsMistaken.passed (mistaken : IsMistaken e) : (isMemberChain e || isFunction e) := by
  rw [Bool.or_eq_true]
  cases mistaken with
  | chain links => exact .inl links
  | keyword word => exact .inr (isFunction_of_keyword trimmed word)
  | label word named colon arrow =>
    exact .inr (isFunction_of_name trimmed word named (startsArrow_iff.2 (.inr ⟨_, colon, arrow⟩)))

theorem IsFunctionLiteral.passed (literal : IsFunctionLiteral (afterAsync e)) : isFunction e := by
  generalize word : afterAsync e = t at literal
  cases literal with
  | keyword => exact isFunction_of_keyword trimmed word
  | arrow named arrow =>
    exact isFunction_of_name trimmed word named (startsArrow_iff.2 (.inl ⟨_, arrow⟩))
  | parameters list arrow =>
    rw [isFunction_eq trimmed, word]
    split
    · rfl
    · cases t with
      | nil => cases list
      | cons c t =>
        obtain rfl : c = '(' := by
          rw [balanced?] at list
          split at list
          · next opens => exact (isDelimiter_iff_of_ascii (by decide)).1 opens
          · cases list
        rw [list]
        exact arrow

end

theorem start_of_isMemberChain (links : isMemberChain e) : e.head?.any isIdentStart := by
  cases e with
  | nil => cases links
  | cons c t =>
    obtain ⟨piece, pieces, read⟩ := @exists_fields_cons (· == '.') t
    rw [isMemberChain, fields, read] at links
    dsimp only at links
    split at links
    · cases links
    · rw [all_cons, Bool.and_eq_true] at links
      obtain ⟨d, tail, name, start⟩ := exists_start links.1
      cases found : before? ['?'] (c :: piece) with
      | none =>
        rw [found] at name
        exact (cons.inj name).1 ▸ start
      | some front =>
        have whole := eq_append_of_before? found
        rw [found, Option.getD_some] at name
        rw [name] at whole
        exact (cons.inj whole).1 ▸ start

theorem IsMistaken.start (mistaken : IsMistaken e) : e.head?.any isIdentStart := by
  have async {t : Text} (word : afterAsync e = t) (start : t.head?.any isIdentStart) :
      e.head?.any isIdentStart := by
    rw [afterAsync] at word
    split at word
    · next found =>
      rw [after?_eq_some_iff.1 found]
      rfl
    · rwa [word]
  cases mistaken with
  | chain links => exact start_of_isMemberChain links
  | keyword word => exact async word rfl
  | label word named =>
    obtain ⟨c, tail, rfl, start⟩ := exists_start named
    exact async word start

theorem wrapHandler_eq (e qualified : Text) : ∃ body, wrapHandler e qualified =
    (if mentionsEvent e then "($event) => ".toList else "() => ") ++ body := by
  unfold wrapHandler
  cases mentionsEvent e <;> dsimp only <;> split <;> exact ⟨_, rfl⟩

theorem mentionsEvent_iff : mentionsEvent e ↔
    ∃ before after, e = before ++ ("$event" ++ after) ∧
      isStandalone before.getLast? after := by
  rw [mentionsEvent, findIdentifier?, occurrences_zero, isSome_head?]
  constructor
  · intro some
    obtain ⟨i, mem⟩ := exists_mem_of_ne_nil _ some
    obtain ⟨s, after, whole, -, -, standalone, -⟩ := exists_of_mem_occurrencesFrom mem
    rw [Option.or_none] at standalone
    exact ⟨s, after, whole, standalone⟩
  · rintro ⟨s, after, whole, standalone⟩
    refine ne_nil_of_mem (mem_occurrencesFrom_of_isStandalone (by decide) (by decide) (.inl rfl)
      whole (by rwa [Option.or_none]) ?_)
    simp [whole, drop_replicate, replicate_succ]

theorem handler_apply (trimmed : e.trim = e) (ne : e ≠ []) (env : Environment)
    (found : Findings) : (handler (some e) env found).1 =
      if isMemberChain e || isFunction e then (Expression.qualify e env found).1
      else wrapHandler e (Expression.qualify e env found).1 := by
  obtain ⟨c, rest, rfl⟩ := exists_cons_of_ne_nil ne
  rw [handler, Option.getD_some, trimmed]
  dsimp only
  cases isMemberChain (c :: rest) || isFunction (c :: rest) <;> rfl

/-- For every handler that is neither a chain nor a function literal: its listener is a function of
nothing or of the event exactly if it is not taken for one of them, and then it is a function of the
event exactly if `$event` occurs in it as a name. -/
theorem handler_wraps_iff {e : Text} (trimmed : e.trim = e) (ne : e ≠ []) (chain : ¬ IsChain e)
    (literal : ¬ IsFunctionLiteral (afterAsync e)) (env : Environment) (found : Findings) :
    let listener := (handler (some e) env found).1
    ("() => ".toList <+: listener ∨ "($event) => ".toList <+: listener ↔ ¬ IsMistaken e) ∧
      (¬ IsMistaken e → ("($event) => ".toList <+: listener ↔
        ∃ before after, e = before ++ ("$event" ++ after) ∧
          Code.isStandalone before.getLast? after = true)) := by
  intro listener
  have value : listener = _ := handler_apply trimmed ne env found
  by_cases mistaken : IsMistaken e
  · -- What is passed on starts with a name.
    have start := mistaken.start
    obtain ⟨c, rest, rfl⟩ := exists_cons_of_ne_nil ne
    obtain ⟨d, first, start⟩ := @Expression.start_qualifiedFrom env c start {} rest
    rw [mistaken.passed trimmed, if_pos rfl, Expression.qualify_text] at value
    have other {lead : Text} (opens : lead.head? = some '(') : ¬ lead <+: listener := by
      rintro ⟨body, whole⟩
      rw [← value, ← whole, head?_append, opens] at first
      cases first
      cases start
    exact ⟨iff_of_false (not_or.2 ⟨other rfl, other rfl⟩) (· mistaken), (absurd mistaken ·)⟩
  · have passed : (isMemberChain e || isFunction e) = false := by
      rw [Bool.or_eq_false_iff, ← Bool.not_eq_true, ← Bool.not_eq_true]
      refine ⟨fun links => chain ⟨links, fun mark => mistaken (.chain links mark)⟩,
        fun function => ?_⟩
      exact (of_isFunction trimmed function).elim literal mistaken
    obtain ⟨body, wrapped⟩ := wrapHandler_eq e (Expression.qualify e env found).1
    rw [passed, if_neg Bool.false_ne_true, wrapped] at value
    rw [← mentionsEvent_iff, value]
    cases mentionsEvent e with
    | true => simp [mistaken]
    | false => simp [mistaken]

theorem handler_wraps_call :
    "($event) => ".toList <+: (handler (some "go($event)") ⟨[], {}, {}, [], []⟩ {}).1 := by
  have trimmed : trim "go($event)" = "go($event)".toList := by decide +kernel
  have links : isMemberChain "go($event)" ≠ true := by decide +kernel
  have function : isFunction "go($event)" ≠ true := by decide +kernel
  have wraps := handler_wraps_iff trimmed (by decide) (fun chain => links chain.1)
    (fun literal => function (literal.passed trimmed)) ⟨[], {}, {}, [], []⟩ {}
  have other : ¬ IsMistaken "go($event)" := fun mistaken =>
    (Bool.or_eq_true_iff.1 (mistaken.passed trimmed)).elim links function
  exact (wraps.2 other).2 ⟨"go(".toList, ")".toList, rfl, by decide +kernel⟩

/-- A call of a function whose name starts with `function` is passed on. -/
theorem handler_passes_call : isMemberChain "functional()" = false ∧ IsMistaken "functional()" ∧
    (handler (some "functional()") ⟨[], {}, {}, [], []⟩ {}).1 = "functional()".toList :=
  ⟨by decide +kernel, @IsMistaken.keyword _ "al()" rfl rfl, by decide +kernel⟩

end SfcJsx.Jsx
