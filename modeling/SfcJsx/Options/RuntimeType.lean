import SfcJsx.Code.Split
import SfcJsx.Text.Decimal

/-!
Types at run time. A type becomes the constructors of its union members, annotated with the type
itself where they say less than it does.
-/

namespace SfcJsx.Options

structure RuntimeType where
  expression : Text
  /-- Whether the expression uses a `PropType` annotation. -/
  needsPropType : Bool
  deriving DecidableEq, Repr

namespace RuntimeType

def dropParentheses (t : Text) : Text :=
  match Code.balanced? '(' ')' t.trim with
  | some (inner, []) => inner.trim
  | _ => t.trim

def isFunctionType (t : Text) : Bool :=
  let rest := ((Text.after? "new " t).getD t).trimStart
  let parameters : Option Text := match rest with
    | '<' :: _ => (Code.balanced? '<' '>' rest).map fun found => found.2.trimStart
    | _ => some rest
  match parameters.bind (Code.balanced? '(' ')') with
  | some (_, after) => after.trimStart.startsWith "=>"
  | none => false

def isArrayType (t : Text) : Bool :=
  t.endsWith "[]" || t.startsWith "Array<" || t.startsWith "ReadonlyArray<" ||
    t.startsWith "readonly " || t.startsWith "["

/-- Types named by a keyword, with their constructors and whether these need an annotation. -/
def namedTypes : List (Text × Text × Bool) :=
  [("string", "String", false), ("number", "Number", false), ("boolean", "Boolean", false),
   ("symbol", "Symbol", false), ("bigint", "BigInt", false), ("Function", "Function", false),
   ("true", "Boolean", true), ("false", "Boolean", true), ("any", "null", false),
   ("unknown", "null", false)]

/-- The constructor of a union member, and whether it needs an annotation. -/
def constructorOf (part : Text) : Text × Bool :=
  match namedTypes.lookup part with
  | some found => found
  | none =>
    if part.head?.any (['\'', '"', '`'].contains ·) then ("String", true)
    else if part.isDecimal then ("Number", true)
    else if isArrayType part then ("Array", true)
    else if isFunctionType part then ("Function", true)
    else ("Object", true)

/-- The members of a union, without those that only say that the value may be missing. -/
def unionParts (t : Text) : List Text :=
  (Code.splitTop ['|'] true (dropParentheses t)).filter fun part =>
    part ≠ "undefined" ∧ part ≠ "null"

def ofType (type : Text) : RuntimeType :=
  let found := (unionParts type).map fun part => constructorOf (dropParentheses part)
  let constructors := (found.map (·.1)).eraseDups
  if constructors.isEmpty || constructors.contains "null".toList then ⟨"null", false⟩
  else
    let base : Text := match constructors with
      | [one] => one
      | many => "[" ++ List.intercalate ", " many ++ "]"
    if found.any (·.2) then ⟨base ++ " as PropType<" ++ type.trim ++ ">", true⟩ else ⟨base, false⟩

def dropAnnotations (t : Text) : Text :=
  match _found : Text.cut? " as PropType" t with
  | none => t
  | some (before, after) =>
    match _closed : Code.balanced? '<' '>' after with
    | some (_, rest) => before ++ dropAnnotations rest
    | none => before ++ " as PropType" ++ dropAnnotations after
termination_by t.length
decreasing_by
  · have := Text.length_tail_of_cut? (by simp) _found
    have := (Code.suffix_of_balanced? _closed).2
    omega
  · exact Text.length_tail_of_cut? (by simp) _found

end RuntimeType

end SfcJsx.Options
