import SfcJsx.Code.Pattern

/-!
Template expressions as segments: names, and everything else. The scan goes once from left to right.
It knows strings and template literals with their substitutions, and for every name how it is used:
as a member, as a parameter of an arrow function or inside its body, as an object key, as an object
shorthand, or as an operand.
-/

namespace SfcJsx.Expression

inductive Place where
  | key
  | shorthand
  | operand
  deriving DecidableEq, Repr

structure NameUse where
  /-- A member name, an arrow parameter, or bound by an arrow around it. -/
  isBound : Bool
  place : Place
  /-- Whether `.value` follows. -/
  isUnwrapped : Bool
  deriving DecidableEq, Repr

structure Segment where
  text : Text
  use : Option NameUse
  deriving DecidableEq, Repr

inductive Frame where
  | object
  | block
  | paren
  | square
  /-- `${ … }` inside a template literal. -/
  | substitution
  deriving DecidableEq, Repr

/-- The parameters of an arrow function, in force until its body ends. -/
structure Arrow where
  depth : Nat
  parameters : List Text
  deriving DecidableEq, Repr

structure Scan where
  /-- The characters before the rest, nearest first. -/
  seen : Text := []
  frames : List Frame := []
  arrows : List Arrow := []
  /-- The last character of code that is no blank, in short: `"` for a string, `0` for a number, `a`
  for a name. -/
  previous : Option Char := none
  afterArrow : Bool := false
  deriving Repr

namespace Scan

def depth (s : Scan) : Nat := s.frames.length

def mark (s : Scan) (c : Char) : Scan :=
  { s with afterArrow := c == '>' && s.previous == some '=', previous := some c }

def enterArrow (s : Scan) (parameters : List Text) : Scan :=
  { s with arrows := ⟨s.depth, parameters⟩ :: s.arrows }

/-- The body of an arrow ends at a comma or closing bracket of its own depth. -/
def leaveArrows (s : Scan) : Scan :=
  { s with arrows := s.arrows.dropWhile fun arrow => decide (s.depth ≤ arrow.depth) }

def isLocal (s : Scan) (name : Text) : Bool :=
  s.arrows.any fun arrow => arrow.parameters.contains name

def push (s : Scan) (frame : Frame) : Scan := { s with frames := frame :: s.frames }

def enterSubstitution (s : Scan) : Scan :=
  { s.push .substitution with previous := some '{', afterArrow := false }

end Scan

/-- How much of a template literal is text, up to and including the closing backtick or the opening
of a substitution, and whether it is the latter. -/
def templateText : Text → Nat × Bool
  | [] => (0, false)
  | '\\' :: _ :: rest =>
    let (n, opens) := templateText rest
    (n + 2, opens)
  | '`' :: _ => (1, false)
  | '$' :: '{' :: _ => (2, true)
  | _ :: rest =>
    let (n, opens) := templateText rest
    (n + 1, opens)

/-- Whether an arrow follows a parameter list. A return annotation may stand between the two. -/
def arrowFollows (after : Text) : Bool :=
  match after.trimStart with
  | ':' :: annotated => Text.containsText annotated "=>"
  | rest => Text.startsWith rest "=>"

def parameterNames (content : Text) : List Text :=
  (Code.splitTop [','] true content).flatMap fun parameter =>
    let parameter := Code.dropSpread parameter
    match parameter with
    | '{' :: _ | '[' :: _ => Code.patternNames parameter
    | _ =>
      Code.patternNames (Text.trim (parameter.takeWhile fun c => !(c == ':' || c == '=')))

/-- The parameter names of an arrow function whose parameter list the text starts with. -/
def arrowParameters? (t : Text) : Option (List Text) :=
  match Code.balanced? '(' ')' t with
  | none => none
  | some (content, after) => if arrowFollows after then some (parameterNames content) else none

/-- The use of a name that stands between the characters seen and the rest. -/
def nameUse (s : Scan) (name rest : Text) : NameUse × Scan :=
  let before := s.seen.dropWhile Text.isBlank
  let isMember := Text.startsWith before "." && !Text.startsWith before "..."
  let next := rest.trimStart
  let inObject := s.frames.head? == some .object &&
    (s.previous == some '{' || s.previous == some ',')
  let place :=
    if inObject && next.head? == some ':' then Place.key
    else if inObject && (next.head? == some ',' || next.head? == some '}') then .shorthand
    else .operand
  let isUnwrapped := match Text.after? ".value" rest with
    | some after => !after.head?.any Text.isIdentChar
    | none => false
  if !isMember && next.startsWith "=>" then
    (⟨true, place, isUnwrapped⟩, s.enterArrow [name])
  else (⟨isMember || s.isLocal name, place, isUnwrapped⟩, s)

/-- One step of the scan at `c`: how many of the next characters belong to the segment, how a name
is used, and the state after it, apart from what has been seen. -/
def step (s : Scan) (c : Char) (rest : Text) : Nat × Option NameUse × Scan :=
  if c = '\'' ∨ c = '"' then ((Code.literalTail c rest).1.length, none, s.mark '"')
  else if c = '`' then
    let (n, opens) := templateText rest
    (n, none, if opens then s.enterSubstitution else s)
  else if c = '{' then
    (0, none, (s.push (if s.afterArrow then .block else .object)).mark c)
  else if c = '(' then
    let s := match arrowParameters? (c :: rest) with
      | some parameters => s.enterArrow parameters
      | none => s
    (0, none, (s.push .paren).mark c)
  else if c = '[' then (0, none, (s.push .square).mark c)
  else if c = '}' ∨ c = ')' ∨ c = ']' then
    let closed := { s.leaveArrows with frames := s.frames.tail }
    if c = '}' ∧ s.frames.head? = some .substitution then
      let (n, opens) := templateText rest
      (n, none, (if opens then closed.enterSubstitution else closed).mark '`')
    else (0, none, closed.mark c)
  else if c.isDigit then
    ((rest.takeWhile fun d => d.isAlphanum || d == '.' || d == '_').length, none, s.mark '0')
  else if Text.isIdentStart c then
    let tail := rest.takeWhile Text.isIdentChar
    let (use, s) := nameUse s (c :: tail) (rest.drop tail.length)
    (tail.length, some use, s.mark 'a')
  else if Text.isBlank c then (0, none, s)
  else (0, none, (if c = ',' then s.leaveArrows else s).mark c)

def segmentsFrom (s : Scan) : Text → List Segment
  | [] => []
  | c :: rest =>
    let (more, use, next) := step s c rest
    let text := c :: rest.take more
    ⟨text, use⟩ :: segmentsFrom { next with seen := text.reverse ++ s.seen } (rest.drop more)
termination_by t => t.length

def segments (expression : Text) : List Segment := segmentsFrom {} expression

theorem flatMap_segmentsFrom (s : Scan) (t : Text) : (segmentsFrom s t).flatMap (·.text) = t := by
  fun_induction segmentsFrom s t with
  | case1 => rfl
  | case2 s c rest more use next h text ih =>
    rw [List.flatMap_cons, ih]
    simp [text]

end SfcJsx.Expression
