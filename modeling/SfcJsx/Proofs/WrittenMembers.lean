import SfcJsx.Proofs.KeptLiterals
import SfcJsx.Proofs.ListLayout

/-!
Type literals that are written member by member. Main statement: the members are read back exactly
as they are written, in order, unless a type that another member follows ends in an arrow; then the
two are joined.
-/

namespace SfcJsx

open List Text Code

variable {c quote : Char} {t u body current e : Text} {rows : List Text}

theorem Text.endsWith_arrow (s t : Text) : endsWith (s ++ ' ' :: t) "=>" = endsWith t "=>" :=
  endsWith_append_of_not_mem (by decide) s t

namespace Code

def Piece.isComment : Piece → Bool
  | code _ => false
  | literal _ => false
  | comment _ => true

theorem lead_append_of_isClosed {rest : Text} (free : (lead c rest).1.isComment = false)
    (closed : ∀ text, (lead c rest).1 = .literal text → IsClosed text)
    (ends : c = '/' → rest = [] → u.head? ≠ some '/' ∧ u.head? ≠ some '*') :
    lead c (rest ++ u) = ((lead c rest).1, (lead c rest).2 ++ u) := by
  cases quoted : isQuote c with
  | true =>
    rcases read : literalTail c rest with ⟨body, after⟩
    have whole := literalTail_append c rest
    rw [read] at whole
    have first : lead c rest = (.literal (c :: body), after) := by rw [lead, if_pos quoted, read]
    have close : IsClosed (c :: body) := closed _ (by rw [first])
    rw [first, lead, if_pos quoted, ← whole, append_assoc, close]
  | false =>
    have plain : isQuote c ≠ true := by simp [quoted]
    have line : ¬ (c = '/' ∧ rest.head? = some '/') := fun both => by
      rw [lead, if_neg plain, if_pos both] at free
      cases free
    have block : ¬ (c = '/' ∧ rest.head? = some '*') := fun both => by
      rw [lead, if_neg plain, if_neg line, if_pos both] at free
      cases free
    have next (d : Char) (other : ¬ (c = '/' ∧ rest.head? = some d))
        (behind : c = '/' → rest = [] → u.head? ≠ some d) :
        ¬ (c = '/' ∧ (rest ++ u).head? = some d) := by
      rintro ⟨slash, here⟩
      cases rest with
      | nil => exact behind slash rfl here
      | cons e rest => exact other ⟨slash, here⟩
    have line' := next '/' line fun slash empty => (ends slash empty).1
    have block' := next '*' block fun slash empty => (ends slash empty).2
    rw [lead, if_neg plain, if_neg line', if_neg block', lead, if_neg plain, if_neg line,
      if_neg block]

theorem parts_of_isClosed (free : ∀ p ∈ pieces t, p.isComment = false)
    (closed : ∀ text ∈ literals t, IsClosed text)
    (ends : t.getLast? = some '/' → u.head? ≠ some '/' ∧ u.head? ≠ some '*') : Parts t u := by
  fun_induction pieces t with
  | case1 => simp [Parts, pieces]
  | case2 c rest ih =>
    rw [literals_cons] at closed
    have whole := lead_append c rest
    have swap : lead c (rest ++ u) = ((lead c rest).1, (lead c rest).2 ++ u) :=
      lead_append_of_isClosed (free _ (by simp))
        (fun text same => closed text (by simp [same, Piece.literal?])) fun slash empty => ends (by
          rw [slash, empty]
          rfl)
    have later : Parts (lead c rest).2 u := by
      refine ih (forall_mem_cons.1 free).2 (forall_mem_append.1 closed).2 fun last => ends ?_
      rw [← whole, getLast?_append, last]
      rfl
    rw [Parts, cons_append, pieces, swap, pieces, later]
    rfl

theorem isClosed_iff :
    IsClosed (quote :: body) ↔ literalTail quote (body ++ ['.']) = (body, ['.']) :=
  ⟨fun closed => closed ['.'], fun read => (endsClosed_of_literalTail read (by decide)).again⟩

instance : DecidablePred IsClosed
  | [] => isFalse id
  | _ :: _ => decidable_of_iff _ isClosed_iff.symm

theorem pieces_quoted (isQuote : quote = '\'' ∨ quote = '"')
    (inside : ∀ c ∈ body, c ≠ quote ∧ c ≠ '\\' ∧ c ≠ '\n') (rest : Text) :
    pieces (quote :: (body ++ quote :: rest)) =
      .literal (quote :: (body ++ [quote])) :: pieces rest := by
  have other : quote ≠ '\\' := by rcases isQuote with rfl | rfl <;> decide
  have tail : literalTail quote (body ++ quote :: rest) = (body ++ [quote], rest) := by
    induction body with
    | nil => simp [literalTail, other]
    | cons c body ih =>
      obtain ⟨apart, escape, line⟩ := inside c (by simp)
      have later := ih (forall_mem_cons.1 inside).2
      simp [literalTail, apart, escape, line, later]
  have quoted : Code.isQuote quote := by rcases isQuote with rfl | rfl <;> rfl
  rw [pieces, lead, if_pos quoted, tail]

end Code

namespace Options

open Code (marks)

/-- The text of a member that can stand in a literal: nothing outside its brackets separates it or
comments on it. -/
structure IsMemberText (angles : Bool) (separators : List Char) (t : Text) : Prop where
  trimmed : t.IsTrimmed
  free : ∀ p ∈ pieces t, p.isComment = false
  closed : ∀ text ∈ literals t, IsClosed text
  level : IsLevel angles t
  whole : ∀ c ∈ outer angles 0 none (pieces t), c ∉ separators

theorem isMemberText_iff {angles : Bool} {separators : List Char} :
    IsMemberText angles separators t ↔ t.IsTrimmed ∧ (pieces t).any (·.isComment) = false ∧
      (∀ text ∈ literals t, IsClosed text) ∧ IsLevel angles t ∧
      (outer angles 0 none (pieces t)).any (separators.contains ·) = false := by
  simp only [any_eq_false, contains_iff_mem, Bool.not_eq_true]
  exact ⟨fun h => ⟨h.trimmed, h.free, h.closed, h.level, h.whole⟩,
    fun ⟨trimmed, free, closed, level, whole⟩ => ⟨trimmed, free, closed, level, whole⟩⟩

instance (angles : Bool) (separators : List Char) (t : Text) :
    Decidable (IsMemberText angles separators t) := decidable_of_iff' _ isMemberText_iff

/-- The text of a type: at its ends it is not joined to what stands around it. -/
@[mk_iff] structure IsTypeText (t : Text) : Prop extends IsMemberText true marks t where
  starts : t.head?.any (['|', '&'].contains ·) = false ∧ t.startsWith "=>" = false
  ends : t.getLast?.any (['|', '&', ':', '='].contains ·) = false

instance (t : Text) : Decidable (IsTypeText t) := decidable_of_iff' _ (isTypeText_iff t)

/-- A member with the quote its name is written in. -/
structure WrittenMember extends TypeMember where
  quote : Option Char := none
  deriving DecidableEq

namespace WrittenMember

def nameText (m : WrittenMember) : Text :=
  match m.quote with
  | some quote => quote :: (m.name ++ [quote])
  | none => m.name

def colon (m : WrittenMember) : Text := if m.isOptional then "?: " else ": "

def text (m : WrittenMember) : Text := m.nameText ++ (m.colon ++ m.type)

/-- An identifier, or a name in quotes that hold no quote of theirs, escape or line break. -/
def IsNamed (m : WrittenMember) : Prop :=
  match m.quote with
  | some quote => (quote = '\'' ∨ quote = '"') ∧ m.name ≠ [] ∧
      ∀ c ∈ m.name, c ≠ quote ∧ c ≠ '\\' ∧ c ≠ '\n'
  | none => m.name.isIdentifier

structure IsDeclarable (m : WrittenMember) : Prop where
  named : m.IsNamed
  type : IsTypeText m.type

theorem name_ne_nil {m : WrittenMember} (named : m.IsNamed) : m.name ≠ [] := by
  rw [IsNamed] at named
  cases quoted : m.quote with
  | none =>
    rw [quoted] at named
    obtain ⟨c, rest, same, -⟩ := exists_start named
    simp [same]
  | some quote =>
    rw [quoted] at named
    exact named.2.1

theorem exists_nameText {m : WrittenMember} (named : m.IsNamed) :
    ∃ c rest, m.nameText = c :: rest ∧ isBlank c = false ∧ c ∉ ['[', '(', '|', '&', '='] := by
  rw [IsNamed] at named
  rw [nameText]
  cases quoted : m.quote with
  | none =>
    rw [quoted] at named
    obtain ⟨c, rest, same, start⟩ := exists_start named
    exact ⟨c, rest, same, isBlank_eq_false (isIdentChar_of_isIdentStart start),
      not_mem_of_any start (by decide)⟩
  | some quote =>
    rw [quoted] at named
    refine ⟨quote, m.name ++ [quote], rfl, ?_⟩
    rcases named.1 with rfl | rfl <;> decide

theorem nameText_spec {m : WrittenMember} (named : m.IsNamed) :
    depthAfter true 0 none (pieces m.nameText) = some 0 ∧
      (∀ c ∈ outer true 0 none (pieces m.nameText), c ∉ marks) ∧
      ∀ rest, Parts m.nameText rest := by
  rw [IsNamed] at named
  rw [nameText]
  cases quoted : m.quote with
  | none =>
    rw [quoted] at named
    have inside := isIdentChar_of_mem named
    have plain : ∀ c ∈ m.name, isPlain c := fun c member =>
      isPlain_of_isIdentChar (inside c member)
    have flat : ∀ c ∈ m.name, isUnbracketed c := fun c member =>
      isUnbracketed_of_isIdentChar (inside c member)
    rw [pieces_of_isPlain plain, depthAfter_map_code flat, outer_map_code flat]
    exact ⟨rfl, fun c member => not_mem_of_any (inside c member) (by decide),
      fun rest => (endsPlain_of_isPlain plain).parts rest⟩
  | some quote =>
    rw [quoted] at named
    obtain ⟨isQuote, -, inside⟩ := named
    have read := pieces_quoted isQuote inside
    have alone := read []
    rw [pieces] at alone
    rw [alone]
    refine ⟨rfl, by simp [outer], fun rest => ?_⟩
    rw [Parts, alone, cons_append, append_assoc, singleton_append, read]
    rfl

theorem isTrimmed_append {m : WrittenMember} (named : m.IsNamed) (trimmed : e.IsTrimmed) :
    IsTrimmed (m.nameText ++ (m.colon ++ e)) := by
  obtain ⟨c, rest, same, blank, -⟩ := exists_nameText named
  obtain ⟨init, d, rfl⟩ := (eq_nil_or_concat e).resolve_left trimmed.ne
  have last := trimmed.last
  rw [concat_eq_append, getLast?_concat] at last
  refine ⟨by simp [same], ?_, ?_⟩
  · rw [same]
    exact blank
  · rw [concat_eq_append, ← append_assoc, ← append_assoc, getLast?_concat]
    exact last

theorem exists_colon (m : WrittenMember) : ∃ c rest, m.colon = c :: rest ∧ (c = '?' ∨ c = ':') := by
  rw [colon]
  cases m.isOptional with
  | true => exact ⟨'?', ": ", rfl, .inl rfl⟩
  | false => exact ⟨':', " ", rfl, .inr rfl⟩

theorem after?_readonly {m : WrittenMember} (named : m.IsNamed) (e : Text) :
    after? "readonly " (m.nameText ++ (m.colon ++ e)) = none := by
  rw [IsNamed] at named
  rw [nameText, Option.eq_none_iff_forall_ne_some]
  intro rest starts
  rw [after?_eq_some_iff] at starts
  cases quoted : m.quote with
  | some quote =>
    rw [quoted] at named starts
    obtain ⟨rfl, -⟩ := cons.inj starts
    rcases named.1 with same | same <;> cases same
  | none =>
    rw [quoted] at named starts
    obtain ⟨c, behind, same, mark⟩ := exists_colon m
    have ended : (m.colon ++ e).head?.any isIdentChar = false := by
      rw [same]
      rcases mark with rfl | rfl <;> rfl
    have word : isIdentifier "readonly" := by decide
    have name : m.name = "readonly" := by
      rw [← takeWhile_name named ended, starts]
      exact @takeWhile_name "readonly" (' ' :: rest) word rfl
    rw [name, same] at starts
    rcases mark with rfl | rfl <;> cases starts

theorem cutName?_append {m : WrittenMember} (named : m.IsNamed) (e : Text) :
    TypeMember.cutName? (m.nameText ++ (m.colon ++ e)) = some (m.name, m.colon ++ e) := by
  rw [IsNamed] at named
  rw [nameText]
  cases quoted : m.quote with
  | some quote =>
    rw [quoted] at named
    obtain ⟨isQuote, -, inside⟩ := named
    have absent : ¬ [quote] <:+: m.name ++ [quote].dropLast := fun occurs => by
      have member : quote ∈ m.name := by simpa using occurs.subset (by simp : quote ∈ [quote])
      exact (inside quote member).1 rfl
    have cut := cut?_append (by simp) absent (m.colon ++ e)
    show TypeMember.cutName? (quote :: (m.name ++ [quote] ++ (m.colon ++ e))) = _
    rw [TypeMember.cutName?, if_pos isQuote]
    exact cut
  | none =>
    rw [quoted] at named
    obtain ⟨first, rest, name, start⟩ := exists_start named
    obtain ⟨c, behind, same, mark⟩ := exists_colon m
    have notQuote : first ∉ ['\'', '"'] := not_mem_of_any start (by decide)
    have inside : ∀ d ∈ m.name,
        (!(d == '?' || d == ':' || d == '(' || d == '<' || isBlank d)) := by
      intro d member
      have letter := isIdentChar_of_mem named d member
      have other : d ∉ ['?', ':', '(', '<'] := not_mem_of_any letter (by decide)
      simp_all [isBlank_eq_false letter]
    have stops : (!(c == '?' || c == ':' || c == '(' || c == '<' || isBlank c)) = false := by
      rcases mark with rfl | rfl <;> rfl
    have cut :
        breakAt (fun d => d == '?' || d == ':' || d == '(' || d == '<' || isBlank d)
          (m.name ++ (m.colon ++ e)) = (m.name, m.colon ++ e) := by
      rw [breakAt, takeWhile_append_of_pos inside,
        dropWhile_append_of_pos inside, same, cons_append, takeWhile_cons_of_neg (by simp [stops]),
        dropWhile_cons_of_neg (by simp [stops]), append_nil]
    rw [name, cons_append] at cut ⊢
    rw [TypeMember.cutName?, if_neg (by simpa using notQuote), cut]

theorem parse?_append {m : WrittenMember} (named : m.IsNamed) (trimmed : e.IsTrimmed)
    (starts : e.head? ≠ some '|') :
    TypeMember.parse? (m.nameText ++ (m.colon ++ e)) = some ⟨m.name, e, m.isOptional⟩ := by
  have whole := isTrimmed_append named trimmed
  have inner : trim (' ' :: e) = e := (trim_cons rfl e).trans trimmed.trim_self
  have bar : after? "|" e = none := by
    cases e with
    | nil => rfl
    | cons c e =>
      have other : c ≠ '|' := by simpa using starts
      simp [after?, Ne.symm other]
  have start : (m.nameText ++ (m.colon ++ e)).trimStart = m.nameText ++ (m.colon ++ e) :=
    dropWhile_of_head? whole.head
  have ordinary : (m.nameText ++ (m.colon ++ e)).head? ≠ some '[' ∧
      (m.nameText ++ (m.colon ++ e)).head? ≠ some '(' := by
    obtain ⟨c, rest, same, -, other⟩ := exists_nameText named
    rw [same]
    constructor <;>
    · rintro ⟨⟩
      exact other (by decide)
  rw [TypeMember.parse?, whole.trim_self, after?_readonly named, Option.getD_none, start]
  refine Option.bind_eq_some_iff.2 ⟨(), if_pos ordinary, ?_⟩
  refine Option.bind_eq_some_iff.2 ⟨_, cutName?_append named e, ?_⟩
  refine Option.bind_eq_some_iff.2 ⟨(), if_pos (by simpa using name_ne_nil named), ?_⟩
  have type : ((after? "|" (trim (' ' :: e))).getD (trim (' ' :: e))).trim = e := by
    rw [inner, bar, Option.getD_none, trimmed.trim_self]
  rw [colon]
  cases m.isOptional with
  | true => exact congrArg (fun type => some (TypeMember.mk m.name type true)) type
  | false => exact congrArg (fun type => some (TypeMember.mk m.name type false)) type

theorem colon_spec (m : WrittenMember) :
    (∀ c ∈ m.colon, isPlain c) ∧ (∀ c ∈ m.colon, isUnbracketed c) ∧ ∀ c ∈ m.colon, c ∉ marks := by
  have all (p : Char → Bool) (long : "?: ".toList.all p) (short : ": ".toList.all p) :
      ∀ c ∈ m.colon, p c := by
    rw [colon]
    cases m.isOptional with
    | true => exact all_eq_true.1 long
    | false => exact all_eq_true.1 short
  refine ⟨all _ rfl rfl, all _ rfl rfl, fun c member => ?_⟩
  simpa using all (fun c => !marks.contains c) rfl rfl c member

namespace IsDeclarable

variable {m : WrittenMember}

section

variable (h : m.IsDeclarable)

include h

theorem pieces_text (u : Text) : pieces (m.text ++ u) =
    pieces m.nameText ++ (m.colon.map .code ++ pieces (m.type ++ u)) := by
  have name := (nameText_spec h.named).2.2 (m.colon ++ (m.type ++ u))
  rw [text, append_assoc, append_assoc, name, pieces_append_of_isPlain (colon_spec m).1]

theorem isTrimmed : m.text.IsTrimmed := isTrimmed_append h.named h.type.trimmed

theorem isLevel : IsLevel true m.text := by
  obtain ⟨level, -, -⟩ := nameText_spec h.named
  have whole := h.pieces_text []
  rw [append_nil, append_nil] at whole
  rw [IsLevel, whole, depthAfter_append level, depthAfter_append
    (depthAfter_map_code (colon_spec m).2.1 0 _)]
  exact (depthAfter_before h.type.level _).1

theorem whole : ∀ c ∈ outer true 0 none (pieces m.text), c ∉ marks := by
  obtain ⟨level, inName, -⟩ := nameText_spec h.named
  have whole := h.pieces_text []
  rw [append_nil, append_nil] at whole
  rw [whole, outer_append level, outer_append (depthAfter_map_code (colon_spec m).2.1 0 _),
    outer_map_code (colon_spec m).2.1, (depthAfter_before h.type.level _).2]
  intro c member
  simp only [mem_append] at member
  rcases member with name | colon | type
  · exact inName c name
  · exact (colon_spec m).2.2 c colon
  · exact h.type.whole c type

theorem parts (ends : m.type.getLast? = some '/' → u.head? ≠ some '/' ∧ u.head? ≠ some '*') :
    Parts m.text u := by
  have type := parts_of_isClosed h.type.free h.type.closed ends
  have alone := h.pieces_text []
  rw [append_nil, append_nil] at alone
  rw [Parts, h.pieces_text, alone, type, append_assoc, append_assoc]

theorem isPart : IsPart marks true m.text := by
  refine ⟨h.isTrimmed, h.isLevel, h.whole, fun c rest plain star => h.parts fun _ => ⟨?_, ?_⟩⟩
  · rintro ⟨⟩
    cases plain
  · rintro ⟨⟩
    exact star rfl

end

end IsDeclarable

end WrittenMember

namespace TypeMember

def isUnfinished (t : Text) : Bool :=
  t.getLast?.any (['|', '&', ':', '='].contains ·) || t.endsWith "=>"

def resumes (t : Text) : Bool := t.head?.any (['|', '&'].contains ·) || t.startsWith "=>"

theorem resumes_cons (other : c ∉ ['|', '&', '=']) (t : Text) : resumes (c :: t) = false := by
  simp only [mem_cons, not_mem_nil, or_false, not_or] at other
  simp [resumes, startsWith, after?, other, Ne.symm other.2.2]

theorem continues_eq (previous piece : Text) :
    continues previous piece = (isUnfinished previous || resumes piece) := by
  rw [continues, isUnfinished, resumes, Bool.or_assoc]

def join : List Text → List Text
  | [] => []
  | first :: rest => joinFrom first rest

theorem pieces_eq_join (literal : Text) :
    pieces literal = join (splitTop marks true (Entry.dropBraces literal)) := by
  rfl

theorem length_joinFrom_le (current : Text) (rows : List Text) :
    (joinFrom current rows).length ≤ rows.length + 1 := by
  induction rows generalizing current with
  | nil => simp [joinFrom]
  | cons row rows ih =>
    rw [joinFrom]
    split
    · have := ih (current ++ " " ++ row)
      rw [length_cons]
      omega
    · have := ih row
      rw [length_cons, length_cons]
      omega

theorem joinFrom_eq (finished : ∀ row ∈ (current :: rows).dropLast, isUnfinished row = false)
    (fresh : ∀ row ∈ rows, resumes row = false) : joinFrom current rows = current :: rows := by
  induction rows generalizing current with
  | nil => rfl
  | cons row rows ih =>
    have apart : continues current row = false := by
      rw [continues_eq, finished current (by simp), fresh row (by simp), Bool.or_false]
    rw [joinFrom, apart]
    exact congrArg (current :: ·) (ih (fun other member => finished other (by simp_all))
      (forall_mem_cons.1 fresh).2)

theorem length_joinFrom_lt (unfinished : ∃ row ∈ (current :: rows).dropLast, isUnfinished row) :
    (joinFrom current rows).length < rows.length + 1 := by
  induction rows generalizing current with
  | nil => simp at unfinished
  | cons row rows ih =>
    rw [joinFrom, length_cons]
    split
    · have := length_joinFrom_le (current ++ " " ++ row) rows
      omega
    · next apart =>
      rw [continues_eq, Bool.or_eq_true, not_or] at apart
      obtain ⟨other, member, open'⟩ := unfinished
      rcases mem_cons.1 member with rfl | later
      · exact absurd open' apart.1
      · have := ih ⟨other, later, open'⟩
        rw [length_cons]
        omega

end TypeMember

/-- Items that lay out members, with a separator between any two. -/
structure IsLaidOut (members : List WrittenMember) (items : List Item) : Prop where
  declarable : ∀ m ∈ members, m.IsDeclarable
  parts : partsOf items = members.map WrittenMember.text
  mark : ∀ c, .mark c ∈ items → isBlank c ∨ c ∈ marks
  apart : ∀ s ∈ stretches marks items, (partsOf s).length ≤ 1

/-- Items in braces. -/
def literal (items : List Item) : Text := '{' :: (textOf items ++ ['}'])

theorem dropBraces_braced (t : Text) : Entry.dropBraces ('{' :: (t ++ ['}'])) = t := by
  have inner : after? "\x7b" ('{' :: (t ++ ['}'])) = some (t ++ ['}']) := after?_append "\x7b" _
  have body : before? "\x7d" (t ++ ['}']) = some t := before?_append _ "\x7d"
  rw [Entry.dropBraces, (isTrimmed_braced t).trim_self, inner, Option.bind_some, body,
    Option.getD_some]

theorem dropBraces_literal (items : List Item) : Entry.dropBraces (literal items) = textOf items :=
  dropBraces_braced _

namespace IsLaidOut

variable {members : List WrittenMember} {items : List Item}

theorem exists_of_part (h : IsLaidOut members items) (member : .part t ∈ items) :
    ∃ m ∈ members, m.text = t := by
  have listed : t ∈ partsOf items := mem_filterMap.2 ⟨_, member, rfl⟩
  rw [h.parts] at listed
  exact mem_map.1 listed

theorem isLayout (h : IsLaidOut members items) (free : ∀ item ∈ items, item.isComment = false) :
    IsLayout marks true items := by
  refine .of_parts (fun _ listed => listed) (fun t member => ?_) free h.mark h.apart
  obtain ⟨m, listed, rfl⟩ := h.exists_of_part member
  exact (h.declarable m listed).isPart

theorem splitTop_textOf (h : IsLaidOut members items)
    (free : ∀ item ∈ items, item.isComment = false) :
    splitTop marks true (textOf items) = members.map WrittenMember.text := by
  rw [(h.isLayout free).splitTop_eq_partsOf (fun _ listed => listed) free, h.parts]

end IsLaidOut

namespace WrittenMember.IsDeclarable

variable {m : WrittenMember}

theorem resumes_append (h : m.IsDeclarable) (more : Text) :
    TypeMember.resumes (m.text ++ more) = false := by
  obtain ⟨c, rest, same, -, other⟩ := exists_nameText h.named
  rw [text, same]
  exact TypeMember.resumes_cons
    (fun listed => other (mem_cons_of_mem _ (mem_cons_of_mem _ listed))) _

theorem isUnfinished_text (h : m.IsDeclarable) :
    TypeMember.isUnfinished m.text = m.type.endsWith "=>" := by
  obtain ⟨init, blank⟩ : ∃ init, m.colon = init ++ [' '] := by
    rw [colon]
    cases m.isOptional with
    | true => exact ⟨"?:", rfl⟩
    | false => exact ⟨":", rfl⟩
  have split : m.text = (m.nameText ++ init) ++ ' ' :: m.type := by
    rw [text, blank]
    simp
  have last : m.text.getLast? = m.type.getLast? := by
    obtain ⟨front, d, same⟩ := (eq_nil_or_concat m.type).resolve_left h.type.trimmed.ne
    rw [split, same, concat_eq_append, getLast?_concat, ← cons_append,
      ← append_assoc, getLast?_concat]
  rw [TypeMember.isUnfinished, last, h.type.ends, Bool.false_or, split, endsWith_arrow]

theorem parse?_text (h : m.IsDeclarable) : TypeMember.parse? m.text = some m.toTypeMember := by
  refine parse?_append h.named h.type.trimmed fun bar => ?_
  have starts := h.type.starts.1
  rw [bar] at starts
  cases starts

end WrittenMember.IsDeclarable

theorem filterMap_parse?_text {members : List WrittenMember}
    (declarable : ∀ m ∈ members, m.IsDeclarable) :
    (members.map WrittenMember.text).filterMap TypeMember.parse? =
      members.map (·.toTypeMember) := by
  induction members with
  | nil => rfl
  | cons m members ih =>
    rw [map_cons, filterMap_cons_some (declarable m (by simp)).parse?_text,
      ih (forall_mem_cons.1 declarable).2]
    rfl

theorem TypeMember.filterMap_join_text {members : List WrittenMember}
    (declarable : ∀ m ∈ members, m.IsDeclarable)
    (finished : ∀ m ∈ members.dropLast, m.type.endsWith "=>" = false) :
    (join (members.map WrittenMember.text)).filterMap parse? = members.map (·.toTypeMember) := by
  cases members with
  | nil => rfl
  | cons first rest =>
    rw [map_cons, join, joinFrom_eq]
    · exact filterMap_parse?_text declarable
    · rw [← map_cons, ← map_dropLast]
      intro row member
      obtain ⟨m, listed, rfl⟩ := mem_map.1 member
      rw [(declarable m (dropLast_subset _ listed)).isUnfinished_text]
      exact finished m listed
    · intro row member
      obtain ⟨m, listed, rfl⟩ := mem_map.1 member
      simpa using (declarable m (by simp [listed])).resumes_append []

/-- The members of a type literal are read back, in order, exactly if no type ends in an arrow that
another member follows. -/
theorem TypeMember.ofLiteral_laidOut (members : List WrittenMember) (items : List Item)
    (h : IsLaidOut members items) (free : ∀ item ∈ items, item.isComment = false) :
    ofLiteral (literal items) = members.map (·.toTypeMember) ↔
      ∀ m ∈ members.dropLast, m.type.endsWith "=>" = false := by
  have declarable := h.declarable
  rw [ofLiteral, pieces_eq_join, dropBraces_literal, h.splitTop_textOf free]
  refine ⟨fun same m member => ?_, filterMap_join_text declarable⟩
  cases arrow : m.type.endsWith "=>" with
  | false => rfl
  | true =>
    cases members with
    | nil => simp at member
    | cons first rest =>
      have open' : ∃ row ∈ ((first :: rest).map WrittenMember.text).dropLast,
          isUnfinished row = true := by
        refine ⟨m.text, ?_, ?_⟩
        · rw [← map_dropLast]
          exact mem_map_of_mem member
        · rw [(declarable m (dropLast_subset _ member)).isUnfinished_text, arrow]
      have fewer := length_joinFrom_lt open'
      have read := congrArg List.length same
      have most := List.length_filterMap_le parse? (join ((first :: rest).map WrittenMember.text))
      simp only [map_cons, join, length_map, length_cons] at fewer read most
      omega

def sampleMembers : List WrittenMember :=
  [⟨⟨"size", "Map<string, \x7b a: 1; b: 2 \x7d>", false⟩, none⟩,
   ⟨⟨"on-open", "(by: ';' | ',') => void", true⟩, some '\''⟩]

def onLines (members : List WrittenMember) : List Item :=
  members.flatMap fun m => [.mark ' ', .part m.text, .mark ';', .mark '\n']

theorem mark_onLines {members : List WrittenMember}
    (member : .mark c ∈ onLines members) : isBlank c ∨ c ∈ marks := by
  obtain ⟨m, -, listed⟩ := mem_flatMap.1 member
  obtain rfl | rfl | rfl : c = ' ' ∨ c = ';' ∨ c = '\n' := by simpa using listed
  all_goals decide

theorem isLaidOut_sample : IsLaidOut sampleMembers (onLines sampleMembers) := by
  refine ⟨fun m member => ?_, rfl, fun c => mark_onLines, by decide +kernel⟩
  rcases mem_cons.1 member with rfl | member
  · exact ⟨show isIdentifier "size" = true by decide, by decide +kernel⟩
  · obtain rfl := mem_singleton.1 member
    refine ⟨⟨.inl rfl, by decide, fun c member => ?_⟩, by decide +kernel⟩
    simpa [and_assoc] using all_eq_true.1 (show "on-open".toList.all
      (fun c => c != '\'' && c != '\\' && c != '\n') from rfl) c member

theorem TypeMember.ofLiteral_sample : IsLaidOut sampleMembers (onLines sampleMembers) ∧
    ofLiteral (literal (onLines sampleMembers)) = sampleMembers.map (·.toTypeMember) :=
  ⟨isLaidOut_sample,
    (ofLiteral_laidOut _ _ isLaidOut_sample (by decide +kernel)).2 (by decide +kernel)⟩

def arrowMembers : List WrittenMember :=
  [⟨⟨"a", "() =>", false⟩, none⟩, ⟨⟨"b", "string", false⟩, none⟩]

/-- A type that ends in an arrow takes the next member in, and so does a string that is not
closed. -/
theorem TypeMember.ofLiteral_joined : IsLaidOut arrowMembers (onLines arrowMembers) ∧
    ofLiteral (literal (onLines arrowMembers)) = [⟨"a", "() => b: string", false⟩] ∧
    ofLiteral "\x7b a: 'x; b: y \x7d" = [⟨"a", "'x; b: y", false⟩] := by
  refine ⟨⟨fun m member => ?_, rfl, fun c => mark_onLines, by decide +kernel⟩,
    by decide +kernel, by decide +kernel⟩
  rcases mem_cons.1 member with rfl | member
  · exact ⟨show isIdentifier "a" = true by decide, by decide +kernel⟩
  · obtain rfl := mem_singleton.1 member
    exact ⟨show isIdentifier "b" = true by decide, by decide +kernel⟩

end Options

end SfcJsx
