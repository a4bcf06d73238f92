import SfcJsx.Code.Split
import SfcJsx.Text.Identifier

/-!
Binding patterns: an identifier, `{ … }` or `[ … ]`, with defaults, renamings and rest elements.
-/

namespace SfcJsx.Code

def dropSpread : Text → Text
  | '.' :: '.' :: '.' :: rest => dropSpread rest
  | t => t

theorem length_dropSpread_le (t : Text) : (dropSpread t).length ≤ t.length := by
  fun_induction dropSpread t with
  | case1 rest ih => simp only [List.length_cons]; omega
  | case2 => exact Nat.le_refl _

def enclosed? : Text → Option Text
  | '{' :: rest => Text.before? ['}'] rest
  | '[' :: rest => Text.before? [']'] rest
  | _ => none

def dropDefault (t : Text) : Text :=
  match Text.breakAt (· == '=') t with
  | (before, '=' :: rest) => if rest.head? = some '>' then t.trim else before.trim
  | _ => t.trim

/-- What an element of a pattern binds: the part after the colon when there is one. -/
def bindingTarget (element : Text) : Text :=
  match splitTop [':'] false element with
  | [_, target] => target
  | _ => element

theorem length_before?_le {tail t rest : Text} (h : Text.before? tail t = some rest) :
    rest.length ≤ t.length := by
  obtain ⟨reversed, found, rfl⟩ := Option.map_eq_some_iff.1 h
  have := congrArg List.length (Text.after?_eq_some_iff.1 found)
  simp only [List.length_reverse, List.length_append] at this ⊢
  omega

theorem length_enclosed?_lt {t inner : Text} (h : enclosed? t = some inner) :
    inner.length < t.length := by
  unfold enclosed? at h
  split at h
  case h_3 => simp at h
  all_goals
    have := length_before?_le h
    simp only [List.length_cons]
    omega

theorem length_bindingTarget_le (t : Text) : (bindingTarget t).length ≤ t.length := by
  unfold bindingTarget
  split
  · next target h => exact length_of_mem_splitTop (h ▸ List.mem_cons_of_mem _ List.mem_cons_self)
  · exact Nat.le_refl _

def patternNames (pattern : Text) : List Text :=
  match _inner : enclosed? pattern.trim with
  | none =>
    let name := dropDefault pattern.trim
    if name.isIdentifier then [name] else []
  | some inner =>
    (splitTop [','] false inner).attach.flatMap fun ⟨element, _⟩ =>
      patternNames (bindingTarget (dropSpread element))
termination_by pattern.length
decreasing_by
  rename_i member
  have := length_enclosed?_lt _inner
  have := Text.length_trim_le pattern
  have := length_of_mem_splitTop member
  have := length_dropSpread_le element
  have := length_bindingTarget_le (dropSpread element)
  omega

end SfcJsx.Code
