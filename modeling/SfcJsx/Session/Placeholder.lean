import SfcJsx.OrderedMap
import SfcJsx.Text.Lines

/-!
Placeholders stand for template fragments without a fixed rendering. Each is a pair of comments that
names the reason and holds the fragment; later a replacement may be put in its place.
-/

namespace SfcJsx

/-- A fragment left in the output as a placeholder. -/
structure FallbackItem where
  snippet : Text
  reason : Text
  line : Option Nat
  column : Option Nat
  placeholder : Text
  deriving DecidableEq, Repr

namespace Placeholder

def commentSafe (t : Text) : Text := Text.replace "\n" " " (Text.replace "*/" "*\\/" t)

def inTag (tool reason snippet : Text) : Text :=
  "/* TODO: " ++ tool ++ " - " ++ commentSafe reason ++ " */\n/* Original: " ++
    commentSafe snippet ++ " */"

def asChild (tool reason snippet : Text) : Text :=
  List.intercalate "\n" ((inTag tool reason snippet).lines.map fun line => "\x7b" ++ line ++ "\x7d")

/-- Puts replacements, looked up by fragment, for the first occurrence of each placeholder. -/
def resolve (code : Text) (items : List FallbackItem) (replacements : OrderedMap Text) : Text :=
  items.foldl (fun code item =>
    match replacements.find? item.snippet with
    | some replacement =>
      match Text.cut? item.placeholder code with
      | some (before, after) => before ++ replacement ++ after
      | none => code
    | none => code) code

end Placeholder

end SfcJsx
