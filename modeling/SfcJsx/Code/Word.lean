import SfcJsx.Code.Mask
import SfcJsx.Text.Identifier

/-!
Names in code. An occurrence of a name is standalone when no identifier character and no `.` stands
before it and no identifier character after it.
-/

namespace SfcJsx.Code

def mask (t : Text) : List Bool := (marked t).map (·.2)

def isStandalone (before : Option Char) (after : Text) : Bool :=
  !before.any (fun c => Text.isIdentChar c || c == '.') && !after.head?.any Text.isIdentChar

/-- The indices of the standalone occurrences of `name` whose first character is code. The flags
belong to the characters of the text, `before` is the character before it, and `skip` characters are
passed over: those of the occurrence that was met last. -/
def occurrencesFrom (name : Text) (before : Option Char) (index skip : Nat) :
    Text → List Bool → List Nat
  | [], _ => []
  | c :: rest, flags =>
    let later (skip : Nat) := occurrencesFrom name (some c) (index + 1) skip rest flags.tail
    match skip with
    | k + 1 => later k
    | 0 =>
      match Text.after? name (c :: rest) with
      | some after =>
        if isStandalone before after && flags.headD false then
          index :: later (name.length - 1)
        else later (name.length - 1)
      | none => later 0

def occurrences (t : Text) (flags : List Bool) (name : Text) (start : Nat) : List Nat :=
  occurrencesFrom name (t.take start).getLast? start 0 (t.drop start) (flags.drop start)

def findIdentifier? (t : Text) (flags : List Bool) (name : Text) (start : Nat) : Option Nat :=
  (occurrences t flags name start).head?

/-- Drops trailing blanks of a statement, an optional `;` and one line break. -/
def afterStatement (t : Text) : Text :=
  let t := t.dropWhile fun c => c == ' ' || c == '\t'
  let t := (Text.after? [';'] t).getD t
  let t := List.dropWhile (fun c => c == ' ' || c == '\t' || c == '\r') t
  (Text.after? ['\n'] t).getD t

def dropSemicolons (t : Text) : Text := (t.reverse.dropWhile (· == ';')).reverse

def lastLine (t : Text) : Text := (t.reverse.takeWhile (· != '\n')).reverse

def unquote? (t : Text) : Option Text :=
  match t.trim with
  | quote :: rest => if isQuote quote then Text.before? [quote] rest else none
  | [] => none

end SfcJsx.Code
