import SfcJsx.Proofs.TextSearch
import SfcJsx.Session.Placeholder

/-!
Where a replacement goes. A placeholder is found by its text, so a replacement reaches its own item
unless an earlier one has the same placeholder; two items with the same reason have that exactly if
their snippets read the same inside a comment.
-/

namespace SfcJsx

open List Text

variable {old : Text}

namespace Text

theorem replace_nil (ne : old ≠ []) (new : Text) : replace old new [] = [] := by
  rw [replace, dif_neg ne, cut?, if_neg (by simpa using ne)]

theorem replace_cons (ne : old ≠ []) (new : Text) (c : Char) (t : Text) :
    replace old new (c :: t) = match after? old (c :: t) with
      | some rest => new ++ replace old new rest
      | none => c :: replace old new t := by
  rw [replace, dif_neg ne, cut?]
  cases after? old (c :: t) with
  | some rest => rfl
  | none =>
    rw [replace, dif_neg ne]
    cases cut? old t <;> rfl

theorem lines_append {last : Text} (ne : last ≠ []) (single : '\n' ∉ last) (t : Text) :
    lines (t ++ '\n' :: last) = (t.fields (· == '\n')).map dropCarriageReturn ++ [last] := by
  rw [lines, fields_append rfl, fields_of_forall (beq_of_not_mem single)]
  cases last with
  | nil => exact absurd rfl ne
  | cons c last => simp

end Text

namespace Placeholder

/-- The text of a snippet inside a comment. -/
def shown : Text → Text
  | [] => []
  | '*' :: '/' :: t => '*' :: '\\' :: '/' :: shown t
  | c :: t => (if c = '\n' then ' ' else c) :: shown t

theorem replace_line (t : Text) :
    replace "\n" " " t = t.map fun c => if c = '\n' then ' ' else c := by
  have ne : ("\n" : Text) ≠ [] := by decide
  induction t with
  | nil => exact replace_nil ne _
  | cons c t ih =>
    rw [replace_cons ne, map_cons, ← ih]
    by_cases line : c = '\n'
    · simp [after?, line]
    · simp [after?, line, Ne.symm line]

theorem commentSafe_eq_shown (t : Text) : commentSafe t = shown t := by
  have ne : ("*/" : Text) ≠ [] := by decide
  rw [commentSafe, replace_line]
  fun_induction shown t with
  | case1 =>
    rw [replace_nil ne]
    rfl
  | case2 t ih =>
    rw [replace_cons ne, ← ih]
    rfl
  | case3 c t other ih =>
    have absent : after? "*/" (c :: t) = none := by
      rw [after?_eq_none_iff]
      rintro ⟨rest, whole⟩
      cases whole
      exact other rest rfl rfl
    rw [replace_cons ne, absent, ← ih]
    rfl

theorem exists_of_shown {t rest : Text} {d : Char} (starts : shown t = d :: rest) (other : d ≠ '*')
    (solid : d ≠ ' ') : ∃ more, t = d :: more ∧ shown more = rest := by
  revert starts
  fun_cases shown t with
  | case1 => exact nofun
  | case2 => exact fun starts => absurd (cons.inj starts).1.symm other
  | case3 c t =>
    intro starts
    obtain ⟨first, rfl⟩ := cons.inj starts
    split at first
    · exact absurd first.symm solid
    · exact ⟨t, by rw [first], rfl⟩

theorem not_infix_shown (t : Text) : ¬ ['*', '/'] <:+: shown t := by
  fun_induction shown t with
  | case1 => decide
  | case2 t ih => simpa [infix_cons_iff] using ih
  | case3 c t other ih =>
    rw [infix_cons_iff]
    rintro (⟨rest, start⟩ | later)
    · obtain ⟨first, second⟩ := cons.inj start
      obtain ⟨more, rfl, -⟩ := exists_of_shown second.symm (by decide) (by decide)
      split at first
      · cases first
      · exact other more first.symm rfl
    · exact ih later

theorem shown_eq_of_append {s t u v : Text}
    (same : shown s ++ ' ' :: '*' :: '/' :: u = shown t ++ ' ' :: '*' :: '/' :: v) :
    shown s = shown t := by
  have cut (s u : Text) : cut? ['*', '/'] (shown s ++ ' ' :: '*' :: '/' :: u) =
      some (shown s ++ [' '], u) := by
    have first : ¬ ['*'] ++ ['/'] <:+: (shown s ++ [' ']) ++ ['*'] := by
      rw [infix_concat_iff_of_ne (by decide), infix_concat_iff_of_ne (by decide)]
      exact not_infix_shown s
    simpa using cut?_append (by simp) first u
  have both := cut s u
  rw [same, cut t v] at both
  exact (append_cancel_right (Prod.mk.inj (Option.some.inj both)).1).symm

/-- Text that can be read back from a comment that shows it. -/
def IsPlain (t : Text) : Prop := '\n' ∉ t ∧ ¬ ['*', '\\', '/'] <:+: t

theorem replace_shown {t : Text} (plain : IsPlain t) :
    replace ['*', '\\', '/'] ['*', '/'] (shown t) = t := by
  have ne : ['*', '\\', '/'] ≠ [] := by simp
  fun_induction shown t with
  | case1 => exact replace_nil ne _
  | case2 t ih =>
    have rest : IsPlain t := ⟨fun line => plain.1 (by simp [line]), fun inside =>
      plain.2 (inside.trans (suffix_append ['*', '/'] t).isInfix)⟩
    rw [replace_cons ne]
    exact congrArg ('*' :: '/' :: ·) (ih rest)
  | case3 c t _ ih =>
    have rest : IsPlain t := ⟨fun line => plain.1 (by simp [line]), fun inside =>
      plain.2 (infix_cons inside)⟩
    have line : c ≠ '\n' := fun line => plain.1 (by simp [line])
    have absent : after? ['*', '\\', '/'] (c :: shown t) = none := by
      rw [after?_eq_none_iff]
      rintro ⟨after, whole⟩
      obtain ⟨rfl, later⟩ := cons.inj whole
      obtain ⟨more, rfl, slash⟩ := exists_of_shown later.symm (by decide) (by decide)
      obtain ⟨more, rfl, -⟩ := exists_of_shown slash (by decide) (by decide)
      exact plain.2 (prefix_append ['*', '\\', '/'] more).isInfix
    rw [if_neg line, replace_cons ne, absent]
    exact congrArg (c :: ·) (ih rest)

theorem not_mem_shown (t : Text) : '\n' ∉ shown t := by
  rw [← commentSafe_eq_shown, commentSafe, replace_line, mem_map]
  rintro ⟨c, -, same⟩
  split at same
  · cases same
  · contradiction

def comment (body : Text) : Text := ['/', '*', ' '] ++ (body ++ [' ', '*', '/'])

def reasonLine (tool reason : Text) : Text := comment ("TODO: " ++ tool ++ " - " ++ shown reason)

def snippetLine (snippet : Text) : Text := comment ("Original: " ++ shown snippet)

theorem inTag_eq (tool reason snippet : Text) :
    inTag tool reason snippet = reasonLine tool reason ++ '\n' :: snippetLine snippet := by
  show ("/* TODO: " : Text) ++ tool ++ " - " ++ commentSafe reason ++
    (" */\n/* Original: " : Text) ++ commentSafe snippet ++ " */" = _
  rw [commentSafe_eq_shown, commentSafe_eq_shown]
  simp only [reasonLine, snippetLine, comment, append_assoc, cons_append]
  rfl

theorem not_mem_comment {body : Text} (single : '\n' ∉ body) : '\n' ∉ comment body := by
  simpa [comment] using single

theorem not_mem_snippetLine (snippet : Text) : '\n' ∉ snippetLine snippet := by
  refine not_mem_comment fun line => ?_
  rcases mem_append.1 line with lead | line
  · exact absurd lead (by decide)
  · exact not_mem_shown snippet line

theorem lines_inTag (tool reason snippet : Text) :
    (inTag tool reason snippet).lines =
      ((reasonLine tool reason).fields (· == '\n')).map dropCarriageReturn ++
        [snippetLine snippet] := by
  rw [inTag_eq, lines_append (by simp [snippetLine, comment]) (not_mem_snippetLine snippet)]

theorem exists_frame {tool reason : Text} {placeholder : Text → Text}
    (kind : placeholder = inTag tool reason ∨ placeholder = asChild tool reason) :
    ∃ lead tail, ∀ s, placeholder s = lead ++ (shown s ++ ' ' :: '*' :: '/' :: tail) := by
  rcases kind with rfl | rfl
  · refine ⟨reasonLine tool reason ++ '\n' :: (['/', '*', ' '] ++ "Original: "), [], fun s => ?_⟩
    rw [inTag_eq]
    simp only [snippetLine, comment, append_assoc, cons_append]
  · let rows : List Text := (((reasonLine tool reason).fields (· == '\n')).map
      dropCarriageReturn).map fun row => "\x7b" ++ row ++ "\x7d"
    refine ⟨intercalate "\n" rows ++ '\n' :: '{' :: (['/', '*', ' '] ++ "Original: "), ['}'],
      fun s => ?_⟩
    have some : rows ≠ [] := by
      obtain ⟨first, rest, read⟩ := @exists_fields_cons (· == '\n') (reasonLine tool reason)
      simp [rows, read]
    rw [asChild, lines_inTag, map_append, map_singleton, intercalate_concat some]
    simp only [snippetLine, comment, append_assoc]
    rfl

theorem placeholder_eq_iff {tool reason : Text} {placeholder : Text → Text}
    (kind : placeholder = inTag tool reason ∨ placeholder = asChild tool reason) {s t u v : Text} :
    (placeholder s ++ u = placeholder t ++ v → commentSafe s = commentSafe t) ∧
      (commentSafe s = commentSafe t → placeholder s = placeholder t) ∧ placeholder s ≠ [] := by
  obtain ⟨lead, tail, whole⟩ := exists_frame kind
  simp only [whole, commentSafe_eq_shown, append_assoc, cons_append, append_cancel_left_eq]
  exact ⟨shown_eq_of_append, fun same => by rw [same], by simp⟩

/-- For every two items with different snippets and the same reason, both as attributes or both as
children, and every code in which the placeholder of the second stands only at their two places:
the replacement of the second goes to its own place if the snippets do not read the same inside a
comment, and to the place of the first if they do. -/
theorem resolve_second {tool reason : Text} {placeholder : Text → Text}
    (kind : placeholder = inTag tool reason ∨ placeholder = asChild tool reason)
    {a b : FallbackItem} (first : a.placeholder = placeholder a.snippet)
    (second : b.placeholder = placeholder b.snippet) (differ : a.snippet ≠ b.snippet)
    {x y z code : Text} (written : code = x ++ a.placeholder ++ y ++ b.placeholder ++ z)
    (only : ∀ n ≤ code.length, b.placeholder <+: code.drop n →
      n = x.length ∨ n = (x ++ a.placeholder ++ y).length) (new : Text) :
    resolve code [a, b] ⟨[(b.snippet, new)]⟩ =
        (if commentSafe a.snippet = commentSafe b.snippet then x ++ new ++ y ++ b.placeholder ++ z
          else x ++ a.placeholder ++ y ++ new ++ z) ∧
      (a.placeholder = b.placeholder ↔ commentSafe a.snippet = commentSafe b.snippet) ∧
      (IsPlain a.snippet → IsPlain b.snippet → a.placeholder ≠ b.placeholder) := by
  have apart {u v : Text} (same : a.placeholder ++ u = b.placeholder ++ v) :
      commentSafe a.snippet = commentSafe b.snippet :=
    (placeholder_eq_iff kind).1 (by rwa [← first, ← second])
  have equal (same : commentSafe a.snippet = commentSafe b.snippet) :
      a.placeholder = b.placeholder := by
    rw [first, second]
    exact (@placeholder_eq_iff _ _ _ kind _ _ [] []).2.1 same
  refine ⟨?_, ⟨fun same => @apart [] [] (by rw [same]), equal⟩, fun plain plain' same => differ ?_⟩
  · have inside : b.placeholder <:+: code := ⟨x ++ a.placeholder ++ y, z, written.symm⟩
    obtain ⟨⟨before, after⟩, found⟩ := Option.isSome_iff_exists.1 (isSome_cut?_iff.2 inside)
    have whole := eq_append_of_cut? found
    have put : resolve code [a, b] ⟨[(b.snippet, new)]⟩ = before ++ new ++ after := by
      simp [resolve, OrderedMap.find?, differ, found]
    have place := only before.length (by simp [whole]) (by simp [whole])
    rw [whole, append_assoc] at written
    rw [put]
    rcases place with here | later
    · simp only [append_assoc] at written
      obtain ⟨rfl, rest⟩ := append_inj written here
      have same := apart rest.symm
      rw [equal same, append_cancel_left_eq] at rest
      rw [if_pos same, rest]
      simp only [append_assoc]
    · rw [append_assoc _ b.placeholder z] at written
      obtain ⟨rfl, rest⟩ := append_inj written later
      have differs : commentSafe a.snippet ≠ commentSafe b.snippet := fun same => by
        -- The first occurrence would not be the first.
        have ne : b.placeholder ≠ [] := by
          rw [second]
          exact (@placeholder_eq_iff _ _ _ kind _ [] [] []).2.2
        refine not_infix_of_cut? ne found ⟨x, y ++ b.placeholder.dropLast, ?_⟩
        rw [equal same]
        simp only [append_assoc]
      rw [if_neg differs, append_cancel_left rest]
  · have read := @apart [] [] (by rw [same])
    rw [commentSafe_eq_shown, commentSafe_eq_shown] at read
    rw [← replace_shown plain, read, replace_shown plain']

def directive (snippet : Text) : FallbackItem := ⟨snippet, "r", none, none, inTag "t" "r" snippet⟩

theorem resolve_second_directive :
    resolve ("<i " ++ (directive "v-a").placeholder ++ " " ++ (directive "v-b").placeholder ++ "/>")
        [directive "v-a", directive "v-b"] ⟨[("v-b", "ref")]⟩ =
      "<i " ++ (directive "v-a").placeholder ++ " " ++ "ref" ++ "/>" := by
  have resolved := (@resolve_second "t" "r" _ (.inl rfl) (directive "v-a") (directive "v-b") rfl rfl
    (by decide) "<i " " " "/>" _ rfl (by decide +kernel) "ref").1
  rwa [if_neg (by decide +kernel)] at resolved

/-- A line break and a space read the same. -/
theorem resolve_second_line :
    (directive "v='a\nb'").placeholder = (directive "v='a b'").placeholder ∧
      resolve ((directive "v='a\nb'").placeholder ++ [' '] ++ (directive "v='a b'").placeholder)
        [directive "v='a\nb'", directive "v='a b'"] ⟨[("v='a b'", "ref")]⟩ =
          "ref" ++ [' '] ++ (directive "v='a b'").placeholder := by
  decide +kernel

end Placeholder

end SfcJsx
