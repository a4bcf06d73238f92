import SfcJsx.Code.Pattern

/-!
Loops: `binding in source` and `binding of source`, and the helper that generated loops call.
-/

namespace SfcJsx.Jsx

structure ForExpression where
  /-- As written: `item`, `(item, index)`, `{ id, name }`. -/
  binding : Text
  source : Text
  deriving DecidableEq, Repr

namespace ForExpression

def parameters (loop : ForExpression) : Text :=
  if loop.binding.head? = some '(' then loop.binding else "(" ++ loop.binding ++ ")"

def names (loop : ForExpression) : List Text :=
  let inner := match loop.binding with
    | '(' :: rest => (Text.before? [')'] rest).getD loop.binding
    | _ => loop.binding
  (Code.splitTop [','] false inner).flatMap Code.patternNames

def cutBinding? (t : Text) : Option (Text × Text) :=
  let enclosed (opening closing : Char) : Option (Text × Text) :=
    (Code.balanced? opening closing t).map fun (content, after) =>
      (opening :: content ++ [closing], after)
  match t with
  | [] => none
  | '(' :: _ => enclosed '(' ')'
  | '{' :: _ => enclosed '{' '}'
  | '[' :: _ => enclosed '[' ']'
  | _ => if t.any Text.isBlank then some (t.breakAt Text.isBlank) else none

def parse? (t : Text) : Option ForExpression := do
  let (binding, rest) ← cutBinding? t.trim
  let rest := rest.trimStart
  let source ← (Text.after? "in" rest).orElse fun _ => Text.after? "of" rest
  if source.head?.any Text.isBlank && !source.isBlankText then
    some ⟨binding.trim, source.trim⟩
  else none

end ForExpression

def listHelperName : Text := "renderList"

/-- The declaration of the list helper. Arrays are mapped, plain objects give value, key and index,
a number counts from one; anything else gives nothing. -/
def listHelper (typescript : Bool) : Text :=
  let source : Text := if typescript then "source: any" else "source"
  let render : Text := if typescript then "render: (...args: any[]) => any" else "render"
  let item : Text := if typescript then "(item: unknown, index: number)" else "(item, index)"
  let pair : Text := if typescript then "(_: unknown, n: number)" else "(_, n)"
  let key : Text := if typescript then "(key: string, index: number)" else "(key, index)"
  let returns : Text := if typescript then ": any[]" else []
  "function " ++ listHelperName ++ "(" ++ source ++ ", " ++ render ++ ")" ++ returns ++ " \x7b\n" ++
  "  if (Array.isArray(source)) \x7b\n" ++
  "    return source.map(" ++ item ++ " => render(item, index));\n" ++
  "  \x7d\n" ++
  "  if (typeof source === 'number') \x7b\n" ++
  "    return Number.isInteger(source) && source >= 0\n" ++
  "      ? Array.from(\x7b length: source \x7d, " ++ pair ++ " => render(n + 1, n))\n" ++
  "      : [];\n" ++
  "  \x7d\n" ++
  "  if (source !== null && typeof source === 'object') \x7b\n" ++
  "    const proto = Object.getPrototypeOf(source);\n" ++
  "    if (proto === Object.prototype || proto === null) \x7b\n" ++
  "      return Object.keys(source).map(" ++ key ++ " => render(source[key], key, index));\n" ++
  "    \x7d\n" ++
  "  \x7d\n" ++
  "  return [];\n" ++
  "\x7d\n"

end SfcJsx.Jsx
