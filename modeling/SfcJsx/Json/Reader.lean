import SfcJsx.Json.Basic
import SfcJsx.Text.Decimal

/-!
Reading JSON, strictly: one document with white space around it and nothing else.
-/

namespace SfcJsx.Json

def isSpace (c : Char) : Bool := c == ' ' || c == '\t' || c == '\n' || c == '\r'

def skipSpace (t : Text) : Text := t.dropWhile isSpace

def hexDigit? (c : Char) : Option Nat :=
  if c.isDigit then some (c.toNat - '0'.toNat)
  else if 'a' ≤ c && c ≤ 'f' then some (c.toNat - 'a'.toNat + 10)
  else if 'A' ≤ c && c ≤ 'F' then some (c.toNat - 'A'.toNat + 10)
  else none

def hexValue? (a b c d : Char) : Option Nat := do
  return ((← hexDigit? a) * 16 + (← hexDigit? b)) * 256 + (← hexDigit? c) * 16 + (← hexDigit? d)

def escaped? : Char → Option Char
  | '"' => some '"'
  | '\\' => some '\\'
  | '/' => some '/'
  | 'b' => some '\x08'
  | 'f' => some '\x0c'
  | 'n' => some '\n'
  | 'r' => some '\r'
  | 't' => some '\t'
  | _ => none

/-- Reads the code units of a string after its opening quote: those of escapes, and the code points
of all other characters. Control characters have to be escaped. -/
def readUnits : Text → Option (List Nat × Text)
  | '"' :: rest => some ([], rest)
  | '\\' :: 'u' :: a :: b :: c :: d :: rest => do
    let unit ← hexValue? a b c d
    let (units, rest) ← readUnits rest
    return (unit :: units, rest)
  | '\\' :: c :: rest => do
    let c ← escaped? c
    let (units, rest) ← readUnits rest
    return (c.toNat :: units, rest)
  | c :: rest =>
    if c.toNat < 0x20 || c == '\\' then none
    else do
      let (units, rest) ← readUnits rest
      return (c.toNat :: units, rest)
  | [] => none

def isLead (unit : Nat) : Bool := 0xD800 ≤ unit && unit ≤ 0xDBFF

def isTrail (unit : Nat) : Bool := 0xDC00 ≤ unit && unit ≤ 0xDFFF

/-- The text of code units; surrogates come in pairs. -/
def decodeUnits : List Nat → Option Text
  | [] => some []
  | lead :: trail :: rest =>
    if isLead lead && isTrail trail then
      let c := Char.ofNat (0x10000 + (lead - 0xD800) * 0x400 + (trail - 0xDC00))
      (decodeUnits rest).map (c :: ·)
    else if isLead lead || isTrail lead then none
    else (decodeUnits (trail :: rest)).map (Char.ofNat lead :: ·)
  | [unit] => if isLead unit || isTrail unit then none else some [Char.ofNat unit]

def readString (t : Text) : Option (Option Text × Text) :=
  (readUnits t).map fun (units, rest) => (decodeUnits units, rest)

def readWhole : Text → Option (Text × Text)
  | '0' :: rest => some (['0'], rest)
  | t =>
    let digits := t.takeWhile Char.isDigit
    if digits.isEmpty then none else some (digits, t.dropWhile Char.isDigit)

def readFraction : Text → Option (Text × Text)
  | '.' :: rest =>
    let digits := rest.takeWhile Char.isDigit
    if digits.isEmpty then none else some ('.' :: digits, rest.dropWhile Char.isDigit)
  | t => some ([], t)

def readExponent : Text → Option (Text × Text)
  | [] => some ([], [])
  | e :: rest =>
    if e == 'e' || e == 'E' then
      let unsigned : Text := Text.dropSign rest
      let digits := unsigned.takeWhile Char.isDigit
      if digits.isEmpty then none
      else some (e :: (rest.take (rest.length - unsigned.length) ++ digits),
        unsigned.dropWhile Char.isDigit)
    else some ([], e :: rest)

def readNumber (t : Text) : Option (Text × Text) := do
  let (sign, t) : Text × Text := match t with
    | '-' :: rest => (['-'], rest)
    | t => ([], t)
  let (whole, t) ← readWhole t
  let (fraction, t) ← readFraction t
  let (exponent, t) ← readExponent t
  return (sign ++ whole ++ fraction ++ exponent, t)

def readWord (t : Text) : Option (Json × Text) :=
  match Text.after? "null" t, Text.after? "true" t, Text.after? "false" t with
  | some rest, _, _ => some (.null, rest)
  | _, some rest, _ => some (.bool true, rest)
  | _, _, some rest => some (.bool false, rest)
  | _, _, _ => none

mutual

def readValue : Nat → Text → Option (Json × Text)
  | 0, _ => none
  | n + 1, t =>
    match skipSpace t with
    | '"' :: rest => (readString rest).map fun (content, rest) => (.string content, rest)
    | '[' :: rest =>
      match skipSpace rest with
      | ']' :: rest => some (.array [], rest)
      | rest => (readElements n rest).map fun (elements, rest) => (.array elements, rest)
    | '{' :: rest =>
      match skipSpace rest with
      | '}' :: rest => some (.object [], rest)
      | rest => (readMembers n rest).map fun (members, rest) => (.object members, rest)
    | c :: rest =>
      if c == '-' || c.isDigit then
        (readNumber (c :: rest)).map fun (literal, rest) => (.number literal, rest)
      else readWord (c :: rest)
    | [] => none

def readElements : Nat → Text → Option (List Json × Text)
  | 0, _ => none
  | n + 1, t => do
    let (value, rest) ← readValue n t
    match skipSpace rest with
    | ',' :: rest =>
      let (values, rest) ← readElements n rest
      return (value :: values, rest)
    | ']' :: rest => return ([value], rest)
    | _ => none

def readMembers : Nat → Text → Option (List (Option Text × Json) × Text)
  | 0, _ => none
  | n + 1, t =>
    match skipSpace t with
    | '"' :: rest => do
      let (name, rest) ← readString rest
      match skipSpace rest with
      | ':' :: rest =>
        let (value, rest) ← readValue n rest
        match skipSpace rest with
        | ',' :: rest =>
          let (members, rest) ← readMembers n rest
          return ((name, value) :: members, rest)
        | '}' :: rest => return ([(name, value)], rest)
        | _ => none
      | _ => none
    | _ => none

end

def parse? (t : Text) : Option Json :=
  match readValue (2 * t.length + 2) t with
  | some (value, rest) => if (skipSpace rest).isEmpty then some value else none
  | none => none

end SfcJsx.Json
