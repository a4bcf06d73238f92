import SfcJsx.Script.Call
import SfcJsx.Script.Import

/-!
Statements that belong to the module and not to a function body. A script is cut into chunks: lines
that stay, and import and export statements outside brackets. The chunks put together give the
script again.
-/

namespace SfcJsx.Script

/-- A statement cut out of a script, with the blanks before it and what ends its line. -/
structure Cut where
  lead : Text
  statement : Text
  tail : Text
  deriving DecidableEq, Repr

def Cut.text (cut : Cut) : Text := cut.lead ++ cut.statement ++ cut.tail

inductive Chunk where
  | line (text : Text)
  | importing (cut : Cut)
  | exporting (cut : Cut)
  deriving DecidableEq, Repr

def Chunk.text : Chunk → Text
  | line text => text
  | importing cut => cut.text
  | exporting cut => cut.text

/-- Characters with whether each is code. -/
abbrev Marked := List (Char × Bool)

namespace Marked

def text (ms : Marked) : Text := ms.map (·.1)

end Marked

def bracketStep (c : Char) : Int :=
  if c = '{' ∨ c = '(' ∨ c = '[' then 1
  else if c = '}' ∨ c = ')' ∨ c = ']' then -1
  else 0

def depthAfter (depth : Int) (ms : Marked) : Int :=
  ms.foldl (fun depth (c, isCode) => if isCode then depth + bracketStep c else depth) depth

def startsWithKeyword (t keyword : Text) : Bool :=
  match Text.after? keyword t with
  | some (c :: _) => Text.isBlank c || c == '{' || c == '*' || c == '\'' || c == '"'
  | _ => false

def startsImport (t : Text) : Bool :=
  startsWithKeyword t "import" &&
    match Text.trimStart (t.drop 6) with
    | '(' :: _ => false
    | '.' :: _ => false
    | _ => true

/-- The number of characters up to the end of the first string literal that follows code. -/
def sourceLength (afterCode : Bool) : Marked → Nat
  | [] => 0
  | (c, isCode) :: rest =>
    if (c == '\'' || c == '"') && afterCode && !isCode then
      (Code.literalTail c (Marked.text rest)).1.length + 1
    else sourceLength isCode rest + 1

def continuingEnds : List Char := ['=', '|', '&', ',', '(', ':', '?']

def continuingStarts : List Char := ['|', '&', '.', '?']

/-- Whether a statement goes on after a line break: its line ends in an operator, or the text after
the break starts with one or with `from`. -/
def goesOn (line after : Text) : Bool :=
  let line := line.trimEnd
  let next := after.trimStart
  line.getLast?.any (continuingEnds.contains ·) || line.endsWith "=>" ||
    next.head?.any (continuingStarts.contains ·) || startsWithKeyword next "from"

/-- The number of characters of an export statement. It ends after a `;` or before a line break
outside brackets; `line` is its last line so far, reversed. -/
def exportLength (depth : Int) (line : Text) : Marked → Nat
  | [] => 0
  | (c, isCode) :: rest =>
    let line' := if c = '\n' then [] else c :: line
    if isCode then
      if c = ';' ∧ depth ≤ 0 then 1
      else if c = '\n' ∧ depth ≤ 0 ∧ !goesOn line.reverse (Marked.text rest) then 0
      else exportLength (depth + bracketStep c) line' rest + 1
    else exportLength depth line' rest + 1

def lineLength : Marked → Nat
  | [] => 0
  | (c, _) :: rest => if c = '\n' then 1 else lineLength rest + 1

def cutStatement (ms : Marked) (lead length : Nat) : Cut × Marked :=
  let rest := ms.drop (lead + length)
  let tail := rest.length - (Code.afterStatement (Marked.text rest)).length
  (⟨Marked.text (ms.take lead), Marked.text ((ms.drop lead).take length),
    Marked.text (rest.take tail)⟩, rest.drop tail)

theorem length_cutStatement_lt {ms : Marked} {lead length : Nat} (ne : ms ≠ [])
    (pos : 0 < length) : (cutStatement ms lead length).2.length < ms.length := by
  have := List.length_pos_iff.2 ne
  simp only [cutStatement, List.length_drop]
  omega

/-- The chunks of a script from the start of a line or the end of a statement on; `depth` counts the
brackets open there. -/
def chunks (hoistExports : Bool) (depth : Int) (ms : Marked) : List Chunk :=
  if _ne : ms = [] then []
  else
    let lead := (ms.takeWhile fun (c, _) => c == ' ' || c == '\t').length
    let rest := ms.drop lead
    let isStatement := depth == 0 && rest.head?.any (·.2)
    if isStatement && startsImport (Marked.text rest) then
      let cut := cutStatement ms lead (sourceLength true (rest.drop 6) + 6)
      .importing cut.1 :: chunks hoistExports depth cut.2
    else if isStatement && hoistExports && startsWithKeyword (Marked.text rest) "export" then
      let cut := cutStatement ms lead (exportLength 0 [] (rest.drop 6) + 6)
      .exporting cut.1 :: chunks hoistExports depth cut.2
    else
      let line := ms.take (lineLength ms)
      .line (Marked.text line) ::
        chunks hoistExports (depthAfter depth line) (ms.drop (lineLength ms))
termination_by ms.length
decreasing_by
  · exact length_cutStatement_lt _ne (by omega)
  · exact length_cutStatement_lt _ne (by omega)
  · cases ms with
    | nil => exact absurd rfl _ne
    | cons m rest =>
      obtain ⟨c, isCode⟩ := m
      simp only [lineLength, List.length_drop, List.length_cons]
      split <;> omega

structure ModuleStatements where
  body : Text
  imports : List Import
  /-- Imports that bind nothing, as written. -/
  sideEffects : List Text
  exports : List Text
  deriving DecidableEq, Repr

def Chunk.import? : Chunk → Option Import
  | importing cut => Import.parse? cut.statement.trim
  | _ => none

def Chunk.sideEffect? : Chunk → Option Text
  | importing cut =>
    match Import.parse? cut.statement.trim with
    | some _ => none
    | none => some (Code.dropSemicolons cut.statement.trim)
  | _ => none

def Chunk.export? : Chunk → Option Text
  | exporting cut => some cut.statement.trim
  | _ => none

def Chunk.bodyText : Chunk → Text
  | line text => text
  | _ => []

def ModuleStatements.split (hoistExports : Bool) (t : Text) : ModuleStatements :=
  let cs := chunks hoistExports 0 (Code.marked t)
  { body := cs.flatMap Chunk.bodyText
    imports := cs.filterMap Chunk.import?
    sideEffects := cs.filterMap Chunk.sideEffect?
    exports := cs.filterMap Chunk.export? }

end SfcJsx.Script
