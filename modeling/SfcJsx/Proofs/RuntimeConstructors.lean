import SfcJsx.Options.RuntimeType
import SfcJsx.Proofs.TextSearch

/-!
The constructors that a type becomes. They are of a few known names, and what a type becomes is
written from them and, where they say too little, from the type itself behind them.
-/

namespace SfcJsx.Options.RuntimeType

open List

def found (type : Text) : List (Text × Bool) :=
  (unionParts type).map fun part => constructorOf (dropParentheses part)

/-- The constructors of the alternatives of a type, each once. -/
def constructors (type : Text) : List Text := ((found type).map (·.1)).eraseDups

/-- One constructor by itself, several as an array. -/
def listText : List Text → Text
  | [one] => one
  | many => "[" ++ intercalate ", " many ++ "]"

def isUnchecked (type : Text) : Bool :=
  (constructors type).isEmpty || (constructors type).contains "null".toList

def baseText (type : Text) : Text :=
  if isUnchecked type then "null" else listText (constructors type)

def isAnnotated (type : Text) : Bool := !isUnchecked type && (found type).any (·.2)

theorem ofType_eq (type : Text) : ofType type =
    if isAnnotated type then ⟨baseText type ++ " as PropType<" ++ type.trim ++ ">", true⟩
    else ⟨baseText type, false⟩ := by
  have unfolded : ofType type =
      if isUnchecked type then ⟨"null", false⟩
      else if (found type).any (·.2) then
        ⟨listText (constructors type) ++ " as PropType<" ++ type.trim ++ ">", true⟩
      else ⟨listText (constructors type), false⟩ := rfl
  rw [unfolded, baseText, isAnnotated]
  cases isUnchecked type with
  | true => rfl
  | false =>
    rw [if_neg Bool.false_ne_true, if_neg Bool.false_ne_true, Bool.not_false, Bool.true_and]

def constructorNames : List Text :=
  ["String", "Number", "Boolean", "Symbol", "BigInt", "Function", "Array", "Object", "null"]

theorem constructorOf_mem (part : Text) : (constructorOf part).1 ∈ constructorNames := by
  unfold constructorOf
  split
  · next found named =>
    obtain ⟨before, behind, whole, -⟩ := lookup_eq_some_iff.1 named
    have listed : (part, found) ∈ namedTypes := by simp [whole]
    have known : namedTypes.all (constructorNames.contains ·.2.1) := rfl
    exact contains_iff_mem.1 (all_eq_true.1 known _ listed)
  · split
    · decide
    split
    · decide
    split
    · decide
    split <;> decide

theorem constructors_subset (type : Text) : constructors type ⊆ constructorNames := by
  intro name member
  obtain ⟨⟨name, annotate⟩, listed, rfl⟩ := mem_map.1 (mem_eraseDups.1 member)
  obtain ⟨part, -, same⟩ := mem_map.1 listed
  have known := constructorOf_mem (dropParentheses part)
  rwa [same] at known

theorem mem_listText {c : Char} {names : List Text} (member : c ∈ listText names) :
    c ∈ "[, ]".toList ∨ ∃ name ∈ names, c ∈ name := by
  have sign {t : Text} (known : t.all ("[, ]".toList.contains ·)) (here : c ∈ t) :
      c ∈ "[, ]".toList := contains_iff_mem.1 (all_eq_true.1 known c here)
  unfold listText at member
  split at member
  · next one => exact .inr ⟨one, by simp, member⟩
  · rcases mem_append.1 member with member | close
    · rcases mem_append.1 member with open' | inside
      · exact .inl (sign rfl open')
      · exact (Text.mem_of_mem_intercalate inside).imp_left (sign rfl)
    · exact .inl (sign rfl close)

theorem not_mem_baseText (type : Text) : 'P' ∉ baseText type := by
  have names : constructorNames.all (!·.contains 'P') := rfl
  have absent {name : Text} (listed : name ∈ constructorNames) : 'P' ∉ name := by
    simpa using all_eq_true.1 names name listed
  unfold baseText
  split
  · exact absent (contains_iff_mem.1 rfl)
  · intro member
    rcases mem_listText member with sign | ⟨name, listed, inside⟩
    · exact absurd (contains_iff_mem.2 sign) (by decide)
    · exact absent (constructors_subset type listed) inside

end SfcJsx.Options.RuntimeType
