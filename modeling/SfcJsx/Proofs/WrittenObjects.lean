import SfcJsx.Proofs.CommentedDeclarations
import SfcJsx.Proofs.EnclosedCode

/-!
Object literals that are written entry by entry. Commas separate entries wherever they stand outside
of round, square and curly brackets, and angle brackets are not counted. Main statement: the entries
are read back exactly if no value has such a comma, and none that another entry follows ends inside
a string.
-/

namespace SfcJsx

open List Text Code Piece

variable {t name text : Text} {init : List Piece} {c : Char}

namespace Code

variable {angles : Bool}

def endsOpen (t : Text) : Bool :=
  ((pieces t).getLast?.bind Piece.literal?).any fun text => !decide (IsClosed text)

theorem pieces_cons_of_isQuote {quote : Char} (quoted : isQuote quote) (rest : Text) :
    pieces (quote :: rest) = .literal (quote :: (literalTail quote rest).1) ::
      pieces (literalTail quote rest).2 := by
  rw [pieces, lead, if_pos quoted]

theorem exists_of_pieces_literal (read : pieces t = init ++ [.literal text]) :
    ∃ quote body, text = quote :: body ∧ isQuote quote ∧
      literalTail quote body = (body, []) ∧
      ∀ u, pieces (t ++ u) = init ++ pieces (quote :: (body ++ u)) := by
  have alone : pieces text = [.literal text] := by
    simpa [Piece.text] using pieces_flatten_right read
  obtain ⟨quote, body, after, rfl, first, none⟩ := lead_of_pieces_eq_cons alone
  have nothing : after = [] := by rw [← flatten_pieces after, none, flatten_nil]
  subst nothing
  have quoted : isQuote quote := by
    cases quoted : isQuote quote with
    | true => rfl
    | false =>
      have noLiteral := literal?_lead quoted body
      rw [first] at noLiteral
      cases noLiteral
  rw [lead, if_pos quoted] at first
  obtain ⟨same, behind⟩ := Prod.mk.inj first
  have whole : (literalTail quote body).1 = body := by simpa using same
  refine ⟨quote, body, rfl, quoted, Prod.ext whole behind, fun u => ?_⟩
  have split : t = flatten init ++ quote :: body := by
    rw [← flatten_pieces t, read]
    simp [Piece.text]
  have swapped : pieces (flatten init ++ quote :: (body ++ u)) =
      init ++ pieces (quote :: (body ++ u)) := pieces_swap read fun _ head => head
  rw [split, append_assoc]
  exact swapped

theorem endsOpen_of_pieces {p : Piece} (read : pieces t = init ++ [p]) :
    endsOpen t = p.literal?.any fun text => !decide (IsClosed text) := by
  rw [endsOpen, read, getLast?_concat]
  rfl

theorem exists_pieces_of_endsOpen (opens : endsOpen t) :
    ∃ init text, pieces t = init ++ [.literal text] ∧
      ∀ c u, isPlain c → c ≠ '\n' → c ≠ '\\' → ∃ more after, u = more ++ after ∧
        pieces (t ++ c :: u) = init ++ .literal (text ++ c :: more) :: pieces after := by
  rcases eq_nil_or_concat (pieces t) with empty | ⟨init, p, read⟩
  · rw [endsOpen, empty] at opens
    cases opens
  · rw [concat_eq_append] at read
    rw [endsOpen_of_pieces read] at opens
    cases p with
    | code | comment => cases opens
    | literal text =>
      obtain ⟨quote, body, rfl, quoted, whole, longer⟩ := exists_of_pieces_literal read
      have notClosed : ¬ IsClosed (quote :: body) := by simpa [literal?] using opens
      have ends := literalTail_ends quote body
      rw [whole] at ends
      have goesOn := (ends.resolve_left fun closed => notClosed closed.again).goesOn rfl
      refine ⟨init, quote :: body, read, fun c u plain line escape => ?_⟩
      have other : c ≠ quote := by
        rintro rfl
        simp [isPlain, quoted] at plain
      obtain ⟨more, after, tail⟩ := goesOn c u other line escape
      have cut := literalTail_append quote (body ++ c :: u)
      rw [tail, append_assoc] at cut
      refine ⟨more, after, by simpa using (append_cancel_left cut).symm, ?_⟩
      rw [longer, pieces_cons_of_isQuote quoted, tail]
      rfl

theorem parts_of_endsOpen (free : ∀ p ∈ pieces t, p.isComment = false) (closed : endsOpen t = false)
    (plain : isPlain c) (noStar : c ≠ '*') (u : Text) : Parts t (c :: u) := by
  rcases eq_nil_or_concat (pieces t) with empty | ⟨init, p, read⟩
  · have nothing : t = [] := by rw [← flatten_pieces t, empty, flatten_nil]
    exact EndsPlain.parts (.inl nothing) _
  · rw [concat_eq_append] at read
    cases p with
    | code e => exact parts_of_code read plain noStar u
    | literal text =>
      obtain ⟨quote, body, rfl, quoted, -, longer⟩ := exists_of_pieces_literal read
      rw [endsOpen_of_pieces read] at closed
      have close : IsClosed (quote :: body) := by simpa [literal?] using closed
      rw [Parts, longer, pieces_cons_of_isQuote quoted, close, read, append_assoc]
      rfl
    | comment text => cases free (.comment text) (by simp [read])

theorem exists_of_mem_outer {depth : Nat} {before : Option Char} {ps : List Piece}
    (member : c ∈ outer angles depth before ps) :
    ∃ init rest, ps = init ++ .code c :: rest ∧ depthBehind angles depth before init = 0 ∧
      c ∉ outer angles depth before init := by
  induction ps generalizing depth before with
  | nil => cases member
  | cons p ps ih =>
    by_cases here : p.isOuter angles depth before ∧ p = .code c
    · obtain ⟨shown, rfl⟩ := here
      obtain rfl : depth = 0 := beq_iff_eq.1 (Bool.and_eq_true_iff.1 shown).1
      exact ⟨[], ps, rfl, rfl, by simp [outer]⟩
    · have other : c ∉ if p.isOuter angles depth before then p.text else [] := by
        split
        · next shown =>
          cases p with
          | code d => simpa [shown, text, eq_comm] using here
          | literal | comment => simp [isOuter, code?] at shown
        · exact not_mem_nil
      rw [outer_cons] at member
      obtain ⟨init, rest, rfl, level, first⟩ := ih ((mem_append.1 member).resolve_left other)
      refine ⟨p :: init, rest, rfl, level, ?_⟩
      rw [outer_cons]
      exact fun listed => (mem_append.1 listed).elim other first

theorem exists_segments_of_mem_outer (level : IsLevel false t)
    (comma : ',' ∈ outer false 0 none (pieces t)) (w : Text) :
    ∃ s u others, t = s ++ ',' :: u ∧
      segments [','] false 0 none (pieces (t ++ w)) = s :: others := by
  obtain ⟨init, rest, read, behind, first⟩ := exists_of_mem_outer comma
  rw [IsLevel, read] at level
  obtain ⟨depth, reached, -⟩ := exists_depthAfter level
  obtain rfl : depth = 0 := (depthBehind_of_depthAfter reached).symm.trans behind
  have alone := pieces_flatten_left read
  have whole : t = flatten init ++ ',' :: flatten rest := by
    rw [← flatten_pieces t, read]
    simp [text]
  have parts : Parts (flatten init) (',' :: (flatten rest ++ w)) := by
    rw [Parts, alone]
    exact pieces_swap read fun _ same => same
  have cut := segments_separated (by decide) rfl rfl (show IsLevel false (flatten init) by
    rwa [IsLevel, alone]) (by rwa [alone]) parts none
  refine ⟨flatten init, flatten rest,
    segments [','] false 0 (some ',') (pieces (flatten rest ++ w)), whole, ?_⟩
  rw [whole, append_assoc]
  exact cut

theorem outer_of_literal (level : IsLevel angles t) (read : pieces t = init ++ [.literal text]) :
    depthAfter angles 0 none init = some 0 ∧
      outer angles 0 none (pieces t) = outer angles 0 none init := by
  rw [IsLevel, read] at level
  obtain ⟨depth, reached, stays⟩ := exists_depthAfter level
  obtain rfl : depth = 0 := Option.some.inj stays
  rw [read, outer_append reached]
  exact ⟨reached, append_nil _⟩

theorem exists_segments_of_endsOpen (level : IsLevel false t)
    (whole : ',' ∉ outer false 0 none (pieces t)) (opens : endsOpen t) (w : Text) :
    ∃ more others, segments [','] false 0 none (pieces (t ++ ',' :: w)) =
      (t ++ ',' :: more) :: others := by
  obtain ⟨init, text, read, goesOn⟩ := exists_pieces_of_endsOpen opens
  obtain ⟨more, after, -, longer⟩ := goesOn ',' w rfl (by decide) (by decide)
  obtain ⟨reached, same⟩ := outer_of_literal level read
  have single : segments [','] false 0 none init = [flatten init] :=
    segments_of_not_mem (by rwa [← same])
  obtain ⟨first, others, later⟩ := exists_cons_of_ne_nil
    (@segments_ne_nil [','] false 0 none (pieces after))
  have split : t = flatten init ++ text := by
    rw [← flatten_pieces t, read]
    simp [Piece.text]
  rw [longer, segments_append reached, single, segments, later, split]
  · simp [glue, segments.extend, Piece.text]
  · simp

theorem segments_blank (free : ∀ p ∈ pieces t, p.isComment = false)
    (level : IsLevel false t) (whole : ',' ∉ outer false 0 none (pieces t)) :
    segments [','] false 0 none (pieces (t ++ [' '])) = [t ++ [' ']] := by
  have outside : ',' ∉ outer false 0 none (pieces (t ++ [' '])) := by
    cases opens : endsOpen t with
    | true =>
      obtain ⟨init, text, read, goesOn⟩ := exists_pieces_of_endsOpen opens
      obtain ⟨more, after, nothing, longer⟩ := goesOn ' ' [] rfl (by decide) (by decide)
      obtain ⟨rfl, rfl⟩ := append_eq_nil_iff.1 nothing.symm
      obtain ⟨reached, same⟩ := outer_of_literal level read
      rw [longer, outer_append reached, ← same, pieces]
      simpa [outer] using whole
    | false =>
      have blank : IsLevel false [' '] ∧ outer false 0 none (pieces [' ']) = [' '] := by
        decide +kernel
      have parts := parts_of_endsOpen free opens (show isPlain ' ' = true from rfl) (by decide) []
      rw [(level.append parts blank.1).2, blank.2]
      simpa using whole
  rw [segments_of_not_mem outside, flatten_pieces]

end Code

namespace Options

namespace Entry

/-- An entry that can be written into an object: its name stands for itself, and its value has
matching round, square and curly brackets and no comments. -/
@[mk_iff] structure IsWritten (e : Entry) : Prop where
  named : isIdentifier e.name
  trimmed : e.value.IsTrimmed
  free : ∀ p ∈ pieces e.value, p.isComment = false
  level : IsLevel false e.value

instance (e : Entry) : Decidable e.IsWritten := decidable_of_iff' _ (isWritten_iff e)

/-- Entries as an object literal. -/
def objectText (entries : List Entry) : Text :=
  "\x7b " ++ intercalate ", " (entries.map inline) ++ " \x7d"

def inside (entries : List Entry) : Text :=
  ' ' :: (intercalate ", " (entries.map inline) ++ [' '])

def heading (name : Text) : Text := ' ' :: (name ++ ": ")

theorem objectText_eq (entries : List Entry) :
    objectText entries = '{' :: (inside entries ++ ['}']) := by
  simp [objectText, inside]

theorem dropBraces_objectText (entries : List Entry) :
    dropBraces (objectText entries) = inside entries := by
  rw [objectText_eq, dropBraces_braced]

theorem inside_singleton (e : Entry) : inside [e] = heading e.name ++ (e.value ++ [' ']) := by
  simp [inside, heading, inline]

variable {rest : List Entry}

theorem inside_cons (e : Entry) (ne : rest ≠ []) :
    inside (e :: rest) = heading e.name ++ (e.value ++ ',' :: inside rest) := by
  obtain ⟨e', rest, rfl⟩ := exists_cons_of_ne_nil ne
  simp [inside, heading, inline]

theorem exists_inside_cons (e : Entry) (rest : List Entry) :
    ∃ w, inside (e :: rest) = heading e.name ++ (e.value ++ w) := by
  by_cases last : rest = []
  · exact ⟨_, last ▸ inside_singleton e⟩
  · exact ⟨_, inside_cons e last⟩

def ofSegments (segments : List Text) : List Entry :=
  ((segments.map trim).filter (!·.isEmpty)).filterMap ofMember?

theorem ofObject_eq (entries : List Entry) : ofObject (objectText entries) =
    ofSegments (segments [','] false 0 none (pieces (inside entries))) := by
  rw [ofObject, dropBraces_objectText]
  rfl

section

variable (named : isIdentifier name)

include named

theorem forall_mem_heading {p : Char → Bool} (inName : ∀ c, isIdentChar c → p c)
    (marks : p ' ' ∧ p ':') : ∀ c ∈ heading name, p c := by
  intro c member
  have listed : c = ' ' ∨ c ∈ name ∨ c = ':' ∨ c = ' ' := by simpa [heading] using member
  rcases listed with rfl | letter | rfl | rfl
  · exact marks.1
  · exact inName c (isIdentChar_of_mem named c letter)
  · exact marks.2
  · exact marks.1

theorem segments_heading (w : Text) :
    segments [','] false 0 none (pieces (heading name ++ w)) =
      segments.extend (heading name)
        (segments [','] false 0 none (pieces w)) := by
  have plain : ∀ c ∈ heading name, isPlain c :=
    forall_mem_heading named (fun _ => isPlain_of_isIdentChar) ⟨rfl, rfl⟩
  have flat : ∀ c ∈ heading name, isUnbracketed c :=
    forall_mem_heading named (fun _ => isUnbracketed_of_isIdentChar) ⟨rfl, rfl⟩
  have noComma : ',' ∉ heading name := by
    have other : ∀ c ∈ heading name, c != ',' := by
      refine forall_mem_heading named (fun c inName => bne_iff_ne.2 ?_) ⟨rfl, rfl⟩
      rintro rfl
      exact absurd inName (by decide)
    exact fun member => bne_iff_ne.1 (other ',' member) rfl
  have reached : depthAfter false 0 none ((heading name).map .code) = some 0 :=
    depthAfter_map_code flat 0 none
  have single : segments [','] false 0 none ((heading name).map .code) = [heading name] := by
    rw [segments_of_not_mem (by rwa [outer_map_code flat]),
      ← pieces_of_isPlain plain, flatten_pieces]
  have last : codeAfter none ((heading name).map .code) = some ' ' := by
    have split : (heading name).map code =
        (' ' :: (name ++ [':'])).map .code ++ [.code ' '] := by
      simp [heading]
    rw [split, codeAfter_concat]
    rfl
  rw [pieces_append_of_isPlain plain, segments_append reached, single, last,
    segments_of_ne (by decide)]
  rfl

theorem unquote?_of_isIdentifier : unquote? name = none := by
  obtain ⟨c, tail, rfl, start⟩ := exists_start named
  have plain := isPlain_of_isIdentChar (isIdentChar_of_isIdentStart start)
  have other : isQuote c = false := by
    simp only [isPlain, Bool.and_eq_true, Bool.not_eq_true'] at plain
    exact plain.1
  rw [unquote?, (Script.isTrimmed_of_isIdentifier named).trim_self]
  show (if isQuote c then _ else none) = none
  rw [other]
  rfl

theorem ofMember?_colon (rest : Text) :
    ofMember? (name ++ ':' :: rest) = some ⟨name, rest.trim⟩ := by
  have unquoted := unquote?_of_isIdentifier named
  have letters := isIdentChar_of_mem named
  have inKey : ∀ c ∈ name, !endsKey c := by
    intro c member
    have apart := not_mem_of_any (letters c member) (show [':', '('].any _ = false by decide)
    simp [endsKey, isBlank_eq_false (letters c member)] at apart ⊢
    exact apart
  have stops : (!endsKey ':') = false := rfl
  have cut : cutKey? (name ++ ':' :: rest) = some (name, ':' :: rest) := by
    obtain ⟨c, tail, rfl, start⟩ := exists_start named
    have bare : ¬ (c = '\'' ∨ c = '"') := by
      rintro (rfl | rfl) <;> exact absurd start (by decide)
    rw [cons_append, cutKey?_cons bare, ← cons_append, takeWhile_append_of_pos inKey,
      dropWhile_append_of_pos inKey, takeWhile_cons_of_neg (by simp [stops]), dropWhile_cons_of_neg
      (by simp [stops]), append_nil]
  have spread : startsWith (name ++ ':' :: rest) "..." = false := by
    obtain ⟨c, tail, rfl, start⟩ := exists_start named
    have other : '.' ≠ c := by
      rintro rfl
      exact absurd start (by decide)
    simp [startsWith, after?, other]
  have key : (unquote? name).getD name = name := by
    rw [unquoted]
    rfl
  refine Option.bind_eq_some_iff.2 ⟨(), by rw [spread]; rfl, ?_⟩
  refine Option.bind_eq_some_iff.2 ⟨(name, ':' :: rest), cut, ?_⟩
  refine Option.bind_eq_some_iff.2 ⟨rest.trim, rfl, ?_⟩
  rw [key]

theorem ofMember?_heading (s : Text) :
    (heading name ++ s).trim ≠ [] ∧ ofMember? (heading name ++ s).trim = some ⟨name, s.trim⟩ := by
  have trimmed : IsTrimmed (name ++ [':']) :=
    (Script.isTrimmed_of_isIdentifier named).append [] ⟨by simp, rfl, rfl⟩
  have blank : ∀ c ∈ [' '], isBlank c := all_eq_true.1 rfl
  obtain ⟨rest, trim, value, -⟩ := exists_trim_append trimmed blank s
  have split : heading name ++ s = [' '] ++ (name ++ [':'] ++ ' ' :: s) := by simp [heading]
  rw [split, trim, append_assoc, singleton_append, ofMember?_colon named, value]
  exact ⟨by simp, rfl⟩

theorem ofSegments_heading {w first : Text} {others : List Text}
    (read : segments [','] false 0 none (pieces w) = first :: others) :
    ofSegments (segments [','] false 0 none (pieces (heading name ++ w))) =
      ⟨name, first.trim⟩ :: ofSegments others := by
  obtain ⟨some, member⟩ := ofMember?_heading named first
  rw [segments_heading named, read, segments.extend, ofSegments, map_cons,
    filter_cons_of_pos (by simpa using some), filterMap_cons_some member]
  rfl

end

/-- Entries that stay apart: no value has a comma outside of its brackets, and none that another
entry follows ends inside a literal. -/
structure IsApart (entries : List Entry) : Prop where
  whole : ∀ e ∈ entries, ',' ∉ outer false 0 none (pieces e.value)
  closed : ∀ e ∈ entries.dropLast, endsOpen e.value = false

theorem isApart_cons {e : Entry} (ne : rest ≠ [])
    (whole : ',' ∉ outer false 0 none (pieces e.value)) (closed : endsOpen e.value = false) :
    IsApart (e :: rest) ↔ IsApart rest := by
  constructor
  · intro h
    refine ⟨(forall_mem_cons.1 h.whole).2, fun d listed => h.closed d ?_⟩
    rw [dropLast_cons_of_ne_nil ne]
    exact mem_cons_of_mem e listed
  · intro h
    refine ⟨forall_mem_cons.2 ⟨whole, h.whole⟩, ?_⟩
    rw [dropLast_cons_of_ne_nil ne]
    exact forall_mem_cons.2 ⟨closed, h.closed⟩

theorem ofSegments_inside_iff {entries : List Entry} (written : ∀ e ∈ entries, e.IsWritten) :
    ofSegments (segments [','] false 0 none (pieces (inside entries))) = entries ↔
      IsApart entries := by
  induction entries with
  | nil => exact iff_of_true (by decide +kernel) ⟨by simp, by simp⟩
  | cons e rest ih =>
    have h := written e (by simp)
    have different {first : Text} {others : List Text} {w : Text}
        (split : inside (e :: rest) = heading e.name ++ w)
        (read : segments [','] false 0 none (pieces w) = first :: others)
        (ne : first.trim ≠ e.value) :
        ofSegments (segments [','] false 0 none (pieces (inside (e :: rest)))) ≠
          e :: rest := by
      intro same
      rw [split, ofSegments_heading h.named read] at same
      exact ne (congrArg value (cons.inj same).1)
    by_cases comma : ',' ∈ outer false 0 none (pieces e.value)
    · refine iff_of_false ?_ fun apart => apart.whole e (by simp) comma
      obtain ⟨w, split⟩ := exists_inside_cons e rest
      obtain ⟨s, u, others, cut, read⟩ := exists_segments_of_mem_outer h.level comma w
      refine different split read fun same => ?_
      have short := length_trim_le s
      rw [same, cut, length_append, length_cons] at short
      omega
    · by_cases last : rest = []
      · have trim : (e.value ++ [' ']).trim = e.value :=
          (trim_concat rfl _).trans h.trimmed.trim_self
        rw [last, inside_singleton,
          ofSegments_heading h.named (segments_blank h.free h.level comma), trim]
        exact iff_of_true rfl ⟨by simpa using comma, by simp⟩
      · cases opens : endsOpen e.value with
        | true =>
          obtain ⟨more, others, read⟩ :=
            exists_segments_of_endsOpen h.level comma opens (inside rest)
          refine iff_of_false (different (inside_cons e last) read fun same => ?_) fun apart => ?_
          · have starts : (e.value ++ ',' :: more).head?.any isBlank = false := by
              obtain ⟨c, tail, split⟩ := exists_cons_of_ne_nil h.trimmed.ne
              have head := h.trimmed.head
              rw [split] at head ⊢
              exact head
            rw [trim, trimStart, dropWhile_of_head? starts, trimEnd_append rfl] at same
            have longer := congrArg length same
            rw [length_append, length_cons] at longer
            omega
          · have closed := apart.closed e (by rw [dropLast_cons_of_ne_nil last]; simp)
            cases closed.symm.trans opens
        | false =>
          have parts := parts_of_endsOpen h.free opens (show isPlain ',' = true from rfl)
            (by decide) (inside rest)
          have read := segments_separated (by decide) rfl rfl h.level comma parts none
          rw [inside_cons e last, ofSegments_heading h.named read, h.trimmed.trim_self,
            segments_of_ne (by decide), isApart_cons last comma opens,
            ← ih (forall_mem_cons.1 written).2]
          exact ⟨fun same => (cons.inj same).2, fun same => congrArg (e :: ·) same⟩

end Entry

theorem Props.entries_ofValue_objectText (entries : List Entry) :
    (Props.ofValue (Entry.objectText entries)).entries =
      Entry.ofObject (Entry.objectText entries) := by
  have trimmed : (Entry.objectText entries).IsTrimmed := by
    rw [Entry.objectText_eq]
    exact isTrimmed_braced _
  have brace : ¬ startsWith (Entry.objectText entries) "[" := by
    exact Bool.false_ne_true
  rw [Props.ofValue, trimmed.trim_self]
  rw [if_neg brace]

/-- Entries with a name and a value with matching brackets are read back from the object that is
written from them, and declared as props by it, exactly if no value has a comma outside of round,
square and curly brackets and none but the last ends inside a literal. -/
theorem Entry.ofObject_objectText (entries : List Entry) (written : ∀ e ∈ entries, e.IsWritten) :
    (Entry.ofObject (Entry.objectText entries) = entries ↔ Entry.IsApart entries) ∧
    ((Props.ofValue (Entry.objectText entries)).entries = entries ↔ Entry.IsApart entries) := by
  have read : Entry.ofObject (Entry.objectText entries) = entries ↔ Entry.IsApart entries := by
    rw [Entry.ofObject_eq]
    exact Entry.ofSegments_inside_iff written
  refine ⟨read, ?_⟩
  rw [Props.entries_ofValue_objectText]
  exact read

def pickEntries : List Entry :=
  [⟨"title", "String"⟩, ⟨"pick", "(a, b) => [a < b, b]"⟩, ⟨"by", "\x7b x: ',', y: `,` \x7d"⟩,
    ⟨"of", "Object as PropType<A>"⟩]

theorem Entry.ofObject_pickEntries : (∀ e ∈ pickEntries, e.IsWritten) ∧
    Entry.ofObject (Entry.objectText pickEntries) = pickEntries ∧
    (Props.ofValue (Entry.objectText pickEntries)).entries = pickEntries := by
  have written : ∀ e ∈ pickEntries, e.IsWritten := by decide +kernel
  have apart : Entry.IsApart pickEntries := ⟨by decide +kernel, by decide +kernel⟩
  obtain ⟨read, declared⟩ := Entry.ofObject_objectText pickEntries written
  exact ⟨written, read.2 apart, declared.2 apart⟩

/-- The comma between type arguments separates entries. -/
theorem Entry.ofObject_typeArguments :
    Entry.IsWritten ⟨"a", "Object as PropType<Record<string, number>>"⟩ ∧
    IsLevel true "Object as PropType<Record<string, number>>" ∧
    Entry.ofObject (Entry.objectText [⟨"a", "Object as PropType<Record<string, number>>"⟩]) =
      [⟨"a", "Object as PropType<Record<string"⟩, ⟨"number>>", "number>>"⟩] := by
  decide +kernel

end Options

end SfcJsx
