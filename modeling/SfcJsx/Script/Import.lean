import SfcJsx.Code.Split
import SfcJsx.Code.Word
import SfcJsx.Text.Lower

/-!
Import statements: reading, writing, and merging those of one source.
-/

namespace SfcJsx.Script

structure NamedImport where
  /-- The name in the source module. -/
  imported : Text
  /-- The name it gets here, when that is another one. -/
  renamed : Option Text := none
  typeOnly : Bool := false
  deriving DecidableEq, Repr

def NamedImport.localName (item : NamedImport) : Text := item.renamed.getD item.imported

structure Import where
  source : Text
  defaultName : Option Text := none
  /-- The name of the module as a whole, `* as name`. -/
  wholeName : Option Text := none
  named : List NamedImport := []
  typeOnly : Bool := false
  deriving DecidableEq, Repr

namespace Import

def localNames (i : Import) : List Text :=
  i.defaultName.toList ++ i.wholeName.toList ++ i.named.map NamedImport.localName

/-! Reading. -/

/-- Cuts at the first `from` between a blank or a closing brace, and a blank or a quote. -/
def cutFrom? (before : Option Char) : Text → Option (Text × Text)
  | [] => none
  | c :: rest =>
    let later := (cutFrom? (some c) rest).map fun (clause, source) => (c :: clause, source)
    match Text.after? "from" (c :: rest) with
    | some after =>
      if before.all (fun b => Text.isBlank b || b == '}') &&
          after.head?.any (fun a => Text.isBlank a || a == '\'' || a == '"') then
        some ([], after)
      else later
    | none => later

/-- The clause and the source of an import; a `from` before the end of the braces is a name. -/
def cutClause? (t : Text) : Option (Text × Text) :=
  let (plain, braced) := t.breakAt (· == '{')
  if braced.isEmpty then cutFrom? none t
  else
    let (inside, rest) := Text.breakAt (· == '}') braced
    if rest.isEmpty then none
    else (cutFrom? none rest).map fun (clause, source) => (plain ++ inside ++ clause, source)

def namedItem (item : Text) : NamedImport :=
  let (typeOnly, item) : Bool × Text := match Text.after? "type " item with
    | some rest => if rest.trimStart.startsWith "as " then (false, item) else (true, rest.trim)
    | none => (false, item)
  match item.words with
  | imported :: word :: name :: _ =>
    ⟨imported, if word = "as" ∧ name ≠ imported then some name else none, typeOnly⟩
  | imported :: _ => ⟨imported, none, typeOnly⟩
  | [] => ⟨[], none, typeOnly⟩

def dropBraces (t : Text) : Text :=
  ((t.dropWhile (· == '{')).reverse.dropWhile (· == '}')).reverse

def addPart (i : Import) (part : Text) : Option Import :=
  match part with
  | '{' :: _ =>
    some { i with named := i.named ++ (Code.splitTop [','] false (dropBraces part)).map namedItem }
  | '*' :: rest => (Text.after? "as" (Text.trim rest)).map fun name =>
    { i with wholeName := some name.trim }
  | _ => some { i with defaultName := some part }

def afterTypeMarker? (t : Text) : Option Text := do
  let after ← Text.after? "type" t
  let trimmed := after.trimStart
  let isMarker := after.head?.any Text.isBlank && !trimmed.startsWith "from" &&
    !trimmed.startsWith ","
  if isMarker || after.startsWith "\x7b" then some trimmed else none

/-- Reads a statement that binds names; any other gives none. -/
def parse? (statement : Text) : Option Import := do
  let rest ← Text.after? "import" statement.trim
  guard (rest.head?.any fun c => Text.isBlank c || c == '{' || c == '*')
  let rest := rest.trimStart
  let marked := afterTypeMarker? rest
  let (clause, source) ← cutClause? (marked.getD rest)
  let source ← Code.unquote? (Code.dropSemicolons source.trim).trim
  (Code.splitTop [','] false clause.trim).foldlM addPart { source, typeOnly := marked.isSome }

/-! Writing. -/

def renderNamed (typeOnly : Bool) (item : NamedImport) : Text :=
  (if item.typeOnly && !typeOnly then "type " else "") ++ item.imported ++
    match item.renamed with
    | some name => " as " ++ name
    | none => []

def renderStatement (i : Import) (clause : Text) : Text :=
  (if i.typeOnly then "import type " else "import ") ++ clause ++ " from '" ++ i.source ++ "';\n"

/-- One statement, or two where the module as a whole cannot share one with a named list. -/
def render (i : Import) : Text :=
  let named : List Text := if i.named.isEmpty then []
    else ["\x7b " ++ List.intercalate ", " (i.named.map (renderNamed i.typeOnly)) ++ " \x7d"]
  let whole : List Text := (i.wholeName.map fun name => ("* as ".toList ++ name : Text)).toList
  let shared := i.defaultName.isSome && i.named.isEmpty
  let clauses := i.defaultName.toList ++ named ++ if shared then whole else []
  let statements := (if shared then [] else whole.map i.renderStatement) ++
    if clauses.isEmpty then [] else [i.renderStatement (List.intercalate ", " clauses)]
  if statements.isEmpty then "import '" ++ i.source ++ "';\n" else statements.flatten

/-! Merging. -/

def frameworkModule : Text := "vue"

/-- Adds a named entry; an entry for the same name keeps its place and stays type-only only if both
are. -/
def addNamed (item : NamedImport) : List NamedImport → List NamedImport
  | [] => [item]
  | other :: rest =>
    if other.imported = item.imported then
      { other with typeOnly := other.typeOnly && item.typeOnly
                   renamed := other.renamed.orElse fun _ => item.renamed } :: rest
    else other :: addNamed item rest

/-- Adds a statement of the same source. Next to value imports, what a type-only statement names is
marked item by item, and its default stands apart. -/
def absorb (merged i : Import) : Import :=
  let typeOnly := i.typeOnly && !merged.typeOnly
  let items := i.named.map fun item => { item with typeOnly := item.typeOnly || typeOnly }
  { merged with
    defaultName := if typeOnly then merged.defaultName
      else merged.defaultName.orElse fun _ => i.defaultName
    wholeName := merged.wholeName.orElse fun _ => i.wholeName
    named := items.foldl (fun named item => addNamed item named) merged.named }

def nameOrder (a b : NamedImport) : Ordering :=
  (compare a.imported.lower b.imported.lower).then (compare a.imported b.imported)

/-- The statements of one source as one, and the default that only a type-only statement gives as
another. -/
def mergeGroup (source : Text) (group : List Import) : List Import :=
  let typeOnly := group.all (·.typeOnly)
  let merged := group.foldl absorb { source, typeOnly }
  let merged := { merged with named := merged.named.mergeSort fun a b => (nameOrder a b).isLE }
  let apart := if typeOnly then none
    else (group.filter (·.typeOnly)).findSome? (·.defaultName)
  merged :: (apart.map fun name => { source, defaultName := some name, typeOnly := true }).toList

def order (a b : Import) : Ordering :=
  (compare (a.source != frameworkModule) (b.source != frameworkModule)).then
    ((compare a.source b.source).then (compare a.typeOnly b.typeOnly))

/-- One statement a source where possible, the framework first and the others by name. -/
def merge (imports : List Import) : List Import :=
  let sources := (imports.map (·.source)).eraseDups
  (sources.flatMap fun source => mergeGroup source (imports.filter (·.source = source))).mergeSort
    fun a b => (order a b).isLE

/-- A relative component file is imported as the module that is generated for it. -/
def componentSource (source : Text) : Text :=
  if source.startsWith "." then (Text.before? ".vue" source).getD source else source

end Import

end SfcJsx.Script
