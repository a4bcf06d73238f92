import SfcJsx.Text.Basic
import SfcJsx.Word

/-!
Line and column of a byte offset and back. Lines start after line feeds; columns count bytes. Both
are counted from zero, and from one where they are shown. Offsets are words of 32 bits.
-/

namespace SfcJsx

structure Position where
  line : Nat
  column : Nat
  deriving DecidableEq, Repr

def Position.oneBased (p : Position) : Position := ⟨p.line + 1, p.column + 1⟩

structure LineIndex where
  starts : List Nat
  size : Nat
  deriving DecidableEq, Repr

namespace LineIndex

def startsAfter (offset : Nat) : Text → List Nat
  | [] => []
  | c :: rest =>
    let next := offset + c.utf8Size
    if c = '\n' then next :: startsAfter next rest else startsAfter next rest

def ofText (t : Text) : LineIndex := ⟨0 :: startsAfter 0 t, t.width⟩

def lineCount (index : LineIndex) : Nat := index.starts.length

def position? (index : LineIndex) (offset : Nat) : Option Position :=
  if offset ≤ index.size then
    let line := (index.starts.takeWhile (· ≤ offset)).length - 1
    some ⟨line, offset - index.starts.getD line 0⟩
  else none

/-- The offset of a position, if the text has it. A line's start and a column are added as words,
before the sum is compared with the size of the text. -/
def offset? (index : LineIndex) (p : Position) : Except WordError (Option Nat) :=
  match index.starts[p.line]? with
  | some start => do
    let offset ← addWords UInt32.size start p.column
    return if offset ≤ index.size then some offset else none
  | none => .ok none

end LineIndex

end SfcJsx
