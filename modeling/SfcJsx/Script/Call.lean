import SfcJsx.Code.Split
import SfcJsx.Code.Word

/-!
Declaration calls: `const props = defineProps<T>()` and the like. A call that is found divides the
script: the text before its statement and the text after it stay, the statement goes.
-/

namespace SfcJsx.Script

structure Call where
  /-- The script up to the statement. -/
  before : Text
  /-- The pattern that `const pattern = call` binds. -/
  binding : Option Text
  typeArgument : Option Text
  /-- The arguments in parentheses, unless there are none. -/
  argumentText : Option Text
  /-- The script after the closing parenthesis. -/
  after : Text
  deriving DecidableEq, Repr

/-- What follows a name. -/
inductive Arguments where
  /-- No arguments: the name is only mentioned. -/
  | absent
  | unbalanced
  | given (typeArgument : Option Text) (content after : Text)
  deriving DecidableEq, Repr

def readParentheses (typeArgument : Option Text) (t : Text) : Arguments :=
  match t with
  | '(' :: _ =>
    match Code.balanced? '(' ')' t with
    | some (content, after) => .given typeArgument content.trim after
    | none => .unbalanced
  | _ => .absent

def readArguments (t : Text) : Arguments :=
  match t.trimStart with
  | '<' :: rest =>
    match Code.balanced? '<' '>' ('<' :: rest) with
    | some (content, after) => readParentheses (some content.trim) after.trimStart
    | none => .unbalanced
  | t => readParentheses none t

/-- The pattern of `const pattern =`; a plain name loses its type annotation. -/
def parseBinding? (t : Text) : Option Text := do
  let rest ← ["const", "let", "var"].findSome? fun (word : String) => Text.after? word t
  guard (rest.head?.any Text.isBlank)
  let pattern := (← Text.before? "=" rest.trim).trim
  guard (!pattern.isEmpty)
  if pattern.head? = some '{' ∨ pattern.head? = some '[' then some pattern
  else some (Text.trim (pattern.takeWhile (· != ':')))

def dropLastLine (t : Text) : Text := t.take (t.length - (Code.lastLine t).length)

/-- The part of a script before the statement whose call follows, and what the statement binds. The
binding may stand on a line of its own above the call. -/
def statementStart (before : Text) : Text × Option Text :=
  let line := Code.lastLine before
  let above := dropLastLine before
  if line.isBlankText then
    let previous := above.dropLast
    match if above.isEmpty then none else parseBinding? (Code.lastLine previous).trim with
    | some binding => (dropLastLine previous, some binding)
    | none => (above, none)
  else
    match parseBinding? line.trim with
    | some binding => (above, some binding)
    | none => (before, none)

/-- The first of the occurrences of a name that is a call. Arguments that do not balance end the
search. -/
def Call.among? (t name : Text) : List Nat → Option Call
  | [] => none
  | index :: rest =>
    match readArguments (t.drop (index + name.length)) with
    | .absent => Call.among? t name rest
    | .unbalanced => none
    | .given typeArgument content after =>
      let start := statementStart (t.take index)
      some ⟨start.1, start.2, typeArgument, if content.isEmpty then none else some content, after⟩

namespace Call

def find? (t name : Text) (start : Nat) : Option Call :=
  among? t name (Code.occurrences t (Code.mask t) name start)

def removed (call : Call) : Text := call.before ++ Code.afterStatement call.after

end Call

theorem suffix_of_readParentheses {typeArgument typed : Option Text} {t content after : Text}
    (h : readParentheses typeArgument t = .given typed content after) :
    after <:+ t ∧ after.length < t.length := by
  unfold readParentheses at h
  split at h
  · split at h
    · next found =>
      obtain ⟨_, _, rfl⟩ := Arguments.given.inj h
      exact Code.suffix_of_balanced? found
    · simp at h
  · simp at h

theorem suffix_of_readArguments {typed : Option Text} {t content after : Text}
    (h : readArguments t = .given typed content after) :
    after <:+ t ∧ after.length < t.length := by
  have blanks (s : Text) : s.trimStart <:+ s := List.dropWhile_suffix _
  have := (blanks t).length_le
  unfold readArguments at h
  split at h
  · next rest same =>
    rw [← same] at h
    split at h
    · next inner found =>
      obtain ⟨within, _⟩ := suffix_of_readParentheses h
      obtain ⟨behind, _⟩ := Code.suffix_of_balanced? found
      have := (blanks inner).length_le
      exact ⟨within.trans ((blanks _).trans (behind.trans (blanks t))), by omega⟩
    · simp at h
  · obtain ⟨within, _⟩ := suffix_of_readParentheses h
    exact ⟨within.trans (blanks t), by omega⟩

theorem prefix_statementStart (before : Text) : (statementStart before).1 <+: before := by
  have cut (t : Text) : dropLastLine t <+: t := List.take_prefix _ _
  unfold statementStart
  dsimp only
  split
  · split
    · exact (cut _).trans (List.IsPrefix.trans (List.dropLast_prefix _) (cut before))
    · exact cut before
  · split
    · exact cut before
    · exact List.prefix_rfl

theorem length_afterStatement_le (t : Text) : (Code.afterStatement t).length ≤ t.length := by
  have drop_le (p : Char → Bool) (s : Text) : (s.dropWhile p).length ≤ s.length :=
    Text.length_dropWhile_le p s
  have after_le (lead s : Text) : ((Text.after? lead s).getD s).length ≤ s.length := by
    cases h : Text.after? lead s with
    | none => simp
    | some rest =>
      have := congrArg List.length (Text.after?_eq_some_iff.1 h)
      simp at this ⊢
      omega
  unfold Code.afterStatement
  refine Nat.le_trans (after_le _ _) (Nat.le_trans (drop_le _ _) (Nat.le_trans (after_le _ _) ?_))
  exact drop_le _ _

theorem Call.length_removed_lt {t name : Text} {indices : List Nat} {call : Call}
    (h : Call.among? t name indices = some call) : call.removed.length < t.length := by
  fun_induction Call.among? t name indices with
  | case1 => simp at h
  | case2 index rest _ ih => exact ih h
  | case3 => simp at h
  | case4 index rest typed content after found start =>
    obtain rfl := Option.some.inj h
    have := (suffix_of_readArguments found).2
    have := (prefix_statementStart (t.take index)).length_le
    have := length_afterStatement_le after
    simp +zetaDelta only [Call.removed, List.length_append, List.length_drop, List.length_take] at *
    omega

end SfcJsx.Script
