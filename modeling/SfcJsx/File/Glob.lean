import SfcJsx.Text.Basic

/-!
Glob patterns. `*` and `?` match slashes too; `**` as a whole name stands for any number of
directories. Patterns are read in characters and matched in UTF-8 bytes, so `?` is one byte. A path
that ends in `..` has no last name, and a pattern that is decided by the last name rejects it.
-/

namespace SfcJsx

namespace Glob

inductive Part where
  | literal (c : Char)
  /-- Any one byte. -/
  | any
  /-- Any bytes. -/
  | run
  /-- Any directories at the start: nothing, a slash, or all up to some slash. -/
  | lead
  /-- A slash and all after it. -/
  | tail
  /-- Any directories between two names: a slash, or two with anything between. -/
  | between
  | set (negated : Bool) (ranges : List (Char × Char))
  /-- One of several branches; with none, nothing at all. -/
  | oneOf (branches : List (List Part))
  deriving Repr

/-! Reading a pattern. -/

/-- A group that is being read: what precedes it, last first, and its finished branches. -/
structure Frame where
  before : List Part
  branches : List (List Part) := []

/-- A pattern that is being read: the open groups, innermost first, and the parts of the current
branch, last first. -/
structure Draft where
  frames : List Frame := []
  parts : List Part := []

namespace Draft

def push (d : Draft) (part : Part) : Draft := { d with parts := part :: d.parts }

def enter (d : Draft) : Draft := ⟨⟨d.parts, []⟩ :: d.frames, []⟩

/-- Ends a branch of the innermost group; outside of groups a comma is a literal. -/
def comma (d : Draft) : Draft :=
  match d.frames with
  | [] => d.push (.literal ',')
  | frame :: frames =>
    ⟨{ frame with branches := frame.branches ++ [d.parts.reverse] } :: frames, []⟩

def isVoid : Part → Bool
  | .oneOf [] => true
  | _ => false

def close? (d : Draft) : Option Draft :=
  match d.frames with
  | [] => none
  | frame :: frames =>
    let branches := (frame.branches ++ [d.parts.reverse]).filter fun branch => !branch.all isVoid
    some ⟨frames, .oneOf branches :: frame.before⟩

def pushRuns (d : Draft) : Draft := (d.push .run).push .run

/-- Puts directories in place of the separator before two stars. Directories that are there already
stay. -/
def replaceLast (d : Draft) (part : Part) : Draft :=
  match d.parts with
  | .lead :: _ | .tail :: _ => d
  | _ :: parts => { d with parts := part :: parts }
  | [] => d.push part

/-- Reads two stars between a previous character and a following text; also whether they take the
slash at the start of that text. -/
def stars (d : Draft) (previous : Option Char) (following : Text) : Draft × Bool :=
  let inGroup := !d.frames.isEmpty
  if d.parts.isEmpty then
    match following with
    | [] => (d.push .lead, false)
    | '/' :: _ => (d.push .lead, true)
    | _ => (d.pushRuns, false)
  else if previous = some '/' || (inGroup && (previous = some ',' || previous = some '{')) then
    match following with
    | [] => (d.replaceLast .tail, false)
    | '/' :: _ => (d.replaceLast .between, true)
    | c :: _ => if inGroup && (c == ',' || c == '}') then (d.replaceLast .tail, false)
      else (d.pushRuns, false)
  else (d.pushRuns, false)

end Draft

def extendLast (ranges : List (Char × Char)) (c : Char) : Option (List (Char × Char)) :=
  match ranges with
  | (low, _) :: rest => if c < low then none else some ((low, c) :: rest)
  | [] => none

/-- Reads the ranges of a set, last first, up to its closing bracket. A bracket or a dash at the
start is a member, and so is a dash at the end. -/
def readRanges (isFirst inRange : Bool) (ranges : List (Char × Char)) :
    Text → Option (List (Char × Char) × Text)
  | [] => none
  | c :: rest =>
    if c == ']' && !isFirst then some (if inRange then ('-', '-') :: ranges else ranges, rest)
    else if c == '-' && !isFirst && !inRange then readRanges false true ranges rest
    else if inRange then
      match extendLast ranges c with
      | some ranges => readRanges false false ranges rest
      | none => none
    else readRanges false false ((c, c) :: ranges) rest

def readSet (t : Text) : Option (Part × Text) :=
  let (negated, body) : Bool × Text := match t with
    | '!' :: rest | '^' :: rest => (true, rest)
    | _ => (false, t)
  (readRanges true false [] body).map fun (ranges, rest) => (.set negated ranges.reverse, rest)

theorem length_readRanges {isFirst inRange : Bool} {ranges out : List (Char × Char)} {t rest : Text}
    (h : readRanges isFirst inRange ranges t = some (out, rest)) : rest.length < t.length := by
  induction t generalizing isFirst inRange ranges with
  | nil => simp [readRanges] at h
  | cons c t ih =>
    simp only [readRanges] at h
    split at h
    · simp_all
    · split at h
      · have := ih h
        simp only [List.length_cons]
        omega
      · split at h
        · split at h
          · have := ih h
            simp only [List.length_cons]
            omega
          · simp at h
        · have := ih h
          simp only [List.length_cons]
          omega

theorem length_readSet {t rest : Text} {part : Part} (h : readSet t = some (part, rest)) :
    rest.length < t.length := by
  simp only [readSet, Option.map_eq_some_iff] at h
  obtain ⟨⟨ranges, after⟩, found, same⟩ := h
  obtain ⟨-, rfl⟩ := by simpa using same
  have := length_readRanges found
  split at this <;> simp_all <;> omega

def read (previous : Option Char) (d : Draft) (t : Text) : Option Draft :=
  match t with
  | [] => some d
  | '?' :: rest => read (some '?') (d.push .any) rest
  | '*' :: '*' :: rest =>
    let next := d.stars previous rest
    if next.2 then read (some '/') next.1 rest.tail else read (some '*') next.1 rest
  | '*' :: rest => read (some '*') (d.push .run) rest
  | '[' :: rest =>
    match _h : readSet rest with
    | some (part, after) =>
      have _shorter := length_readSet _h
      read (some ']') (d.push part) after
    | none => none
  | '{' :: rest => read (some '{') d.enter rest
  | '}' :: rest =>
    match d.close? with
    | some d => read (some '}') d rest
    | none => none
  | ',' :: rest => read (some ',') d.comma rest
  | '\\' :: c :: rest => read (some c) (d.push (.literal c)) rest
  | ['\\'] => none
  | c :: rest => read (some c) (d.push (.literal c)) rest
termination_by t.length
decreasing_by
  all_goals simp only [List.length_cons, List.length_tail]
  all_goals omega

/-! Matching. -/

def utf8 (t : Text) : List UInt8 := t.flatMap String.utf8EncodeChar

def suffixes : List UInt8 → List (List UInt8)
  | [] => [[]]
  | b :: rest => (b :: rest) :: suffixes rest

def slash : UInt8 := '/'.toUInt8

def afterSlashes : List UInt8 → List (List UInt8)
  | [] => []
  | b :: rest => if b = slash then rest :: afterSlashes rest else afterSlashes rest

def afterSlash? : List UInt8 → Option (List UInt8)
  | b :: rest => if b = slash then some rest else none
  | [] => none

/-- The bytes of a range of characters: the range is between the last byte of its lower end and the
first byte of its upper end, and their other bytes stand for themselves. -/
def byteRanges (range : Char × Char) : List (UInt8 × UInt8) :=
  let low := String.utf8EncodeChar range.1
  let high := String.utf8EncodeChar range.2
  let single (bytes : List UInt8) : List (UInt8 × UInt8) := bytes.map fun b => (b, b)
  if range.1 = range.2 then single low
  else single low.dropLast ++ low.getLast?.toList.zip high.head?.toList ++ single high.tail

def inSet (ranges : List (Char × Char)) (b : UInt8) : Bool :=
  (ranges.flatMap byteRanges).any fun range => range.1 ≤ b && b ≤ range.2

mutual

/-- What may be left of some bytes after a part of a pattern. -/
def Part.rests : Part → List UInt8 → List (List UInt8)
  | .literal c, bytes =>
    let encoded := String.utf8EncodeChar c
    if encoded.isPrefixOf bytes then [bytes.drop encoded.length] else []
  | .any, bytes => match bytes with
    | _ :: rest => [rest]
    | [] => []
  | .run, bytes => suffixes bytes
  | .lead, bytes => bytes :: afterSlashes bytes
  | .tail, bytes => (afterSlash? bytes).toList.flatMap suffixes
  | .between, bytes => (afterSlash? bytes).toList.flatMap fun rest => rest :: afterSlashes rest
  | .set negated ranges, bytes => match bytes with
    | b :: rest => if inSet ranges b != negated then [rest] else []
    | [] => []
  | .oneOf [], bytes => [bytes]
  | .oneOf (branch :: branches), bytes =>
    restsAfter branch [bytes] ++ restsOfAny branches bytes

def restsAfter : List Part → List (List UInt8) → List (List UInt8)
  | [], starts => starts
  | part :: parts, starts => restsAfter parts (starts.flatMap (part.rests ·)).eraseDups

def restsOfAny : List (List Part) → List UInt8 → List (List UInt8)
  | [], _ => []
  | branch :: branches, bytes => restsAfter branch [bytes] ++ restsOfAny branches bytes

end

/-! The last name of a path, from its last slash on. A path that ends in `..` leads up and has no
last name; a pattern that asks for a name or for an extension does not match it. -/

def hasLastName (path : Text) : Bool := path.reverse.takeWhile (· != '/') != ['.', '.']

def Part.isLiteral : Part → Bool
  | .literal _ => true
  | _ => false

def Part.isDot : Part → Bool
  | .literal c => c == '.'
  | _ => false

def Part.inName : Part → Bool
  | .literal c => c != '/'
  | _ => false

def Part.inExtension (part : Part) : Bool := part.inName && !part.isDot

def dropLead : List Part → List Part
  | .lead :: parts => parts
  | parts => parts

def isName : List Part → Bool
  | .lead :: name => !name.isEmpty && name.all Part.inName
  | _ => false

def isExtension (parts : List Part) : Bool :=
  match dropLead parts with
  | .run :: .literal '.' :: extension => extension.all Part.inExtension
  | _ => false

def isEnding (parts : List Part) : Bool :=
  match dropLead parts with
  | .run :: ending | ending => ending.all Part.isLiteral

def endsInExtension (parts : List Part) : Bool :=
  ((parts.reverse.dropWhile Part.inExtension).head?.map Part.isDot).getD false

/-- Whether a pattern is decided by the last name. Of the patterns that end in an extension, those
that only fix the end of a path are not. -/
def needsName (parts : List Part) : Bool :=
  isName parts || isExtension parts || (endsInExtension parts && !isEnding parts)

end Glob

/-- A pattern for whole paths. -/
structure Glob where
  parts : List Glob.Part
  deriving Repr

namespace Glob

/-- Reads a pattern. Groups and sets have to be closed, ranges go upwards, and a backslash has a
character after it. -/
def parse? (pattern : Text) : Option Glob :=
  match read none {} pattern with
  | some ⟨[], parts⟩ => some ⟨parts.reverse⟩
  | _ => none

/-- Whether the whole path matches. Directories at the start and nothing else match everything. -/
def isMatch (glob : Glob) (path : Text) : Bool :=
  match glob.parts with
  | [.lead] => true
  | parts =>
    (hasLastName path || !needsName parts) && (restsAfter parts [utf8 path]).contains []

end Glob

end SfcJsx
