import SfcJsx.Proofs.ListLayout
import SfcJsx.Script.Import

/-!
Import statements that are written and read again. Names that only start with a word of the
statement are told from that word wherever the reader looks at whole words; it does not where it
looks for a `from` behind a `type` marker, so there a default that starts with `from` is misread.
-/

namespace SfcJsx

open List Text

variable {clause rest t word lead source inner : Text} {c : Char} {i : Script.Import}

theorem Text.words_append (ne : word ≠ []) (inside : ∀ c ∈ word, isBlank c = false)
    (blank : isBlank c) (t : Text) : words (word ++ c :: t) = word :: t.words := by
  rw [words_append_cons blank, words_of_forall ne inside]
  rfl

theorem Text.eq_of_after?_concat {name tail : Text} (apart : c ∉ word)
    (other : c ∉ name) (ends : tail.head?.all (· == c))
    (starts : after? (word ++ [c]) (name ++ tail) = some rest) : name = word := by
  have whole := after?_eq_some_iff.1 starts
  rw [append_assoc, singleton_append] at whole
  have first := congrArg (takeWhile (· != c)) whole
  have stops : (c :: rest).head?.any (· != c) = false := by simp
  have stops' : tail.head?.any (· != c) = false := by
    cases tail with
    | nil => rfl
    | cons d tail => simpa using ends
  have free {s : Text} (other : c ∉ s) : ∀ d ∈ s, d != c := fun d member =>
    Bool.not_eq_true' _ ▸ beq_of_not_mem other d member
  rwa [takeWhile_append (free other) stops', takeWhile_append (free apart) stops] at first

namespace Script

/-- A name that can be bound: an identifier, but no word of the statement itself. -/
structure IsBindable (name : Text) : Prop where
  isIdentifier : name.isIdentifier
  other : name ≠ "type" ∧ name ≠ "as" ∧ name ≠ "from"

namespace IsBindable

variable {name : Text}

section

variable (h : IsBindable name)

include h

theorem isIdentChar : ∀ c ∈ name, isIdentChar c := isIdentChar_of_mem h.isIdentifier

theorem isBlank : ∀ c ∈ name, isBlank c = false := fun c member =>
  isBlank_eq_false (h.isIdentChar c member)

theorem ne : name ≠ [] := by
  obtain ⟨c, tail, rfl, -⟩ := exists_start h.isIdentifier
  simp

theorem isTrimmed : name.IsTrimmed := by
  have apart (c : Option Char) (inside : ∀ d, c = some d → d ∈ name) :
      c.any Text.isBlank = false := by
    cases c with
    | none => rfl
    | some d => exact h.isBlank d (inside d rfl)
  exact ⟨h.ne, apart _ fun d => mem_of_head?, apart _ fun d => mem_of_getLast?⟩

theorem not_mem (other : Text.isIdentChar c = false) : c ∉ name := fun member => by
  rw [h.isIdentChar c member] at other
  cases other

theorem exists_of_after? {after : Text} (letters : word.all Text.isIdentChar) (other : name ≠ word)
    (ends : t.head?.any Text.isIdentChar = false) (starts : after? word (name ++ t) = some after) :
    ∃ c rest, name = word ++ c :: rest ∧ after = c :: rest ++ t ∧ Text.isIdentChar c := by
  rcases append_eq_append_iff.1 (after?_eq_some_iff.1 starts) with
    ⟨rest, rfl, rfl⟩ | ⟨rest, rfl, rfl⟩
  · cases rest with
    | nil => exact absurd (append_nil name).symm other
    | cons c rest =>
      have letter := all_eq_true.1 letters c (by simp)
      simp [letter] at ends
  · cases rest with
    | nil => exact absurd (append_nil word) other
    | cons c rest => exact ⟨c, rest, rfl, rfl, h.isIdentChar c (by simp)⟩

end

end IsBindable

namespace Import

open Code

structure IsEntry (item : NamedImport) : Prop where
  imported : IsBindable item.imported
  renamed : ∀ name, item.renamed = some name → IsBindable name ∧ name ≠ item.imported

def entryText (item : NamedImport) : Text :=
  item.imported ++ match item.renamed with
    | some name => " as " ++ name
    | none => []

theorem renderNamed_eq (typeOnly : Bool) (item : NamedImport) : renderNamed typeOnly item =
    (if item.typeOnly && !typeOnly then "type " else "") ++ entryText item :=
  append_assoc _ _ _

theorem namedItem_type (unmarked : after? "type " t = none) (unrenamed : t.startsWith "as " = false)
    (trimmed : t.IsTrimmed) : namedItem ("type " ++ t) = { namedItem t with typeOnly := true } := by
  have starts : t.trimStart = t := dropWhile_of_head? trimmed.head
  simp only [namedItem, after?_append, starts, unrenamed, Bool.false_eq_true, if_false,
    trimmed.trim_self, unmarked]
  rcases t.words with _ | ⟨imported, _ | ⟨word, _ | ⟨name, rest⟩⟩⟩ <;> rfl

namespace IsEntry

variable {item : NamedImport}

theorem words_entryText (h : IsEntry item) :
    (entryText item).words = item.imported :: match item.renamed with
      | some name => ["as", name]
      | none => [] := by
  have imported := h.imported
  rw [entryText]
  cases renamed : item.renamed with
  | none =>
    simp only [append_nil]
    exact words_of_forall imported.ne imported.isBlank
  | some name =>
    obtain ⟨bindable, -⟩ := h.renamed name renamed
    have inner : ∀ c ∈ "as".toList, isBlank c = false := fun c member =>
      isBlank_eq_false (all_eq_true.1 (show "as".toList.all _ = true from rfl) c member)
    show words (item.imported ++ ' ' :: ("as".toList ++ ' ' :: name)) = _
    rw [words_append imported.ne imported.isBlank rfl, words_append (by decide) inner rfl,
      words_of_forall bindable.ne bindable.isBlank]

theorem eq_of_after? (h : IsEntry item) (apart : ' ' ∉ word)
    (starts : after? (word ++ [' ']) (entryText item) = some rest) : item.imported = word := by
  refine eq_of_after?_concat apart (h.imported.not_mem (by decide)) ?_ starts
  cases item.renamed <;> rfl

theorem isTrimmed (h : IsEntry item) : (entryText item).IsTrimmed := by
  have imported := h.imported.isTrimmed
  rw [entryText]
  cases renamed : item.renamed with
  | none => simpa using imported
  | some name =>
    obtain ⟨bindable, -⟩ := h.renamed name renamed
    exact imported.append " as " bindable.isTrimmed

theorem namedItem_renderNamed (h : IsEntry item) (typeOnly : Bool) :
    namedItem (renderNamed typeOnly item) =
      { item with typeOnly := item.typeOnly && !typeOnly } := by
  have unmarked : after? "type " (entryText item) = none := by
    rw [Option.eq_none_iff_forall_ne_some]
    exact fun rest starts => h.imported.other.1 (h.eq_of_after? (by decide) starts)
  have unrenamed : (entryText item).startsWith "as " = false := by
    rw [Bool.eq_false_iff]
    intro starts
    obtain ⟨rest, starts⟩ := Option.isSome_iff_exists.1 starts
    exact h.imported.other.2.1 (h.eq_of_after? (by decide) starts)
  have plain : namedItem (entryText item) = { item with typeOnly := false } := by
    simp only [namedItem, unmarked, h.words_entryText]
    cases renamed : item.renamed with
    | none => rfl
    | some name => simp [(h.renamed name renamed).2]
  rw [renderNamed_eq]
  cases item.typeOnly && !typeOnly with
  | false => exact plain
  | true => rw [if_pos rfl, namedItem_type unmarked unrenamed h.isTrimmed, plain]

end IsEntry

/-- A statement that can be written: it binds names, each of which is one. -/
structure IsWritable (i : Import) : Prop where
  binds : i.localNames ≠ []
  defaultName : ∀ name, i.defaultName = some name → IsBindable name
  wholeName : ∀ name, i.wholeName = some name → IsBindable name
  named : ∀ item ∈ i.named, IsEntry item
  /-- A name for the module as a whole stands without a list. -/
  apart : i.wholeName = none ∨ i.named = []
  /-- The marker of the statement stands for those of its entries. -/
  unmarked : i.typeOnly → ∀ item ∈ i.named, item.typeOnly = false
  source : '{' ∉ i.source

def namedClause (i : Import) : Text :=
  "\x7b " ++ intercalate ", " (i.named.map (renderNamed i.typeOnly)) ++ " \x7d"

def clauses (lead : Text) (i : Import) : List Text :=
  (i.defaultName.map (lead ++ ·)).toList ++ (if i.named.isEmpty then [] else [i.namedClause]) ++
    (i.wholeName.map fun name => ("* as ".toList ++ name : Text)).toList

def tail (i : Import) : Text := " from '" ++ i.source ++ "';"

theorem render_eq (h : IsWritable i) :
    i.render = i.renderStatement (intercalate ", " (i.clauses [])) := by
  have binds := h.binds
  rcases h.apart with whole | named
  · cases default : i.defaultName <;> cases entries : i.named <;>
      simp_all [render, clauses, namedClause, localNames]
  · cases default : i.defaultName <;> cases whole : i.wholeName <;>
      simp_all [render, clauses, localNames]

def isFlat (c : Char) : Bool := isPlain c && isUnbracketed c && c != ','

theorem isFlat_of_isIdentChar (inName : isIdentChar c) : isFlat c := by
  have comma : c ∉ [','] := not_mem_of_any inName (by decide)
  simp_all [isFlat, isPlain_of_isIdentChar inName, isUnbracketed_of_isIdentChar inName]

theorem isPart_of_isFlat (flat : ∀ c ∈ t, isFlat c) (trimmed : t.IsTrimmed) :
    IsPart [','] false t := by
  have each : ∀ c ∈ t, (isPlain c ∧ isUnbracketed c) ∧ c ≠ ',' := fun c member => by
    simpa [isFlat] using flat c member
  have unbracketed : ∀ c ∈ t, isUnbracketed c := fun c member => (each c member).1.2
  have plain : ∀ c ∈ t, isPlain c := fun c member => (each c member).1.1
  have read := pieces_of_isPlain plain
  refine ⟨trimmed, ?_, ?_, fun c rest _ _ => (endsPlain_of_isPlain plain).parts _⟩
  · rw [IsLevel, read, depthAfter_map_code unbracketed]
  · rw [read, outer_map_code unbracketed]
    intro c member listed
    exact (each c member).2 (mem_singleton.1 listed)

theorem isPart_braced (plain : ∀ c ∈ inner, isPlain c)
    (unbracketed : ∀ c ∈ inner, isUnbracketed c) :
    IsPart [','] false ('{' :: (inner ++ ['}'])) := by
  have plain' : ∀ c ∈ '{' :: (inner ++ ['}']), isPlain c := by
    intro c member
    rcases mem_cons.1 member with rfl | member
    · rfl
    · rcases mem_append.1 member with inside | last
      · exact plain c inside
      · obtain rfl := mem_singleton.1 last
        rfl
  have read := pieces_of_isPlain plain'
  rw [map_cons, map_append] at read
  have inside := @depthAfter_map_code _ false unbracketed 1 (some '{')
  refine ⟨isTrimmed_braced inner, ?_, ?_, fun c rest _ _ => (endsPlain_of_isPlain plain').parts _⟩
  · rw [IsLevel, read, depthAfter, depthAfter_append inside]
    rfl
  · rw [read, outer, outer_append inside, outer_map_code unbracketed]
    simp [outer, isOpening, isClosing]

theorem isFlat_of_isBindable {name : Text} (h : IsBindable name) : ∀ c ∈ name, isFlat c :=
  fun c member => isFlat_of_isIdentChar (h.isIdentChar c member)

theorem isFlat_append {s : Text} (left : s.all isFlat) (right : ∀ c ∈ t, isFlat c) :
    ∀ c ∈ s ++ t, isFlat c := fun c member =>
  (mem_append.1 member).elim (all_eq_true.1 left c) (right c)

theorem IsEntry.isFlat {item : NamedImport} (h : IsEntry item) (typeOnly : Bool) :
    ∀ c ∈ renderNamed typeOnly item, isFlat c := by
  have imported := all_eq_true.2 (isFlat_of_isBindable h.imported)
  rw [renderNamed_eq]
  refine isFlat_append (by cases item.typeOnly && !typeOnly <;> rfl) ?_
  rw [entryText]
  cases renamed : item.renamed with
  | none => simpa using imported
  | some name =>
    have last := isFlat_of_isBindable (h.renamed name renamed).1
    exact isFlat_append imported (isFlat_append rfl last)

theorem IsEntry.isPart {item : NamedImport} (h : IsEntry item) (typeOnly : Bool) :
    IsPart [','] false (renderNamed typeOnly item) := by
  refine isPart_of_isFlat (h.isFlat typeOnly) ?_
  rw [renderNamed_eq]
  cases item.typeOnly && !typeOnly with
  | false => exact h.isTrimmed
  | true =>
    have word : IsTrimmed "type" := ⟨by decide, rfl, rfl⟩
    exact word.append " " h.isTrimmed

def entries (i : Import) : Text :=
  " " ++ intercalate ", " (i.named.map (renderNamed i.typeOnly)) ++ " "

theorem namedClause_eq (i : Import) : i.namedClause = '{' :: (i.entries ++ ['}']) := by
  simp [namedClause, entries]

section

variable (h : ∀ item ∈ i.named, IsEntry item)

include h

theorem splitTop_entries :
    splitTop [','] false i.entries = i.named.map (renderNamed i.typeOnly) := by
  have blank : ∀ c ∈ " ".toList, isBlank c := all_eq_true.1 rfl
  refine splitTop_intercalate (fun t member => ?_) blank blank
  obtain ⟨item, listed, rfl⟩ := mem_map.1 member
  exact (h item listed).isPart i.typeOnly

theorem isFlat_of_mem_entries (member : c ∈ i.entries) : isFlat c ∨ c = ',' := by
  have blank : ∀ c ∈ " ".toList, Import.isFlat c := all_eq_true.1 rfl
  rw [entries, mem_append, mem_append] at member
  rcases member with (lead | inside) | last
  · exact .inl (blank c lead)
  · rcases mem_of_mem_intercalate inside with between | ⟨t, listed, inside⟩
    · simpa using all_eq_true.1
        (show ", ".toList.all (fun c => Import.isFlat c || c == ',') = true from rfl) c between
    · obtain ⟨item, named, rfl⟩ := mem_map.1 listed
      exact .inl ((h item named).isFlat i.typeOnly c inside)
  · exact .inl (blank c last)

theorem isPart_namedClause : IsPart [','] false i.namedClause := by
  have each : ∀ c ∈ i.entries, isPlain c ∧ isUnbracketed c := by
    intro c member
    rcases isFlat_of_mem_entries h member with flat | rfl
    · exact ((by simpa [isFlat] using flat : (_ ∧ _) ∧ _)).1
    · exact ⟨rfl, rfl⟩
  rw [namedClause_eq]
  exact isPart_braced (fun c member => (each c member).1) fun c member => (each c member).2

end

theorem addPart_namedClause (h : IsWritable i) (j : Import) :
    j.addPart i.namedClause = some { j with named := j.named ++ i.named } := by
  have inner : dropBraces ('{' :: (i.entries ++ ['}'])) = i.entries := by
    simp [dropBraces, entries]
  have read : (i.named.map (renderNamed i.typeOnly)).map namedItem = i.named := by
    rw [map_map]
    refine (map_congr_left fun item member => ?_).trans (map_id _)
    have same : (item.typeOnly && !i.typeOnly) = item.typeOnly := by
      cases marked : i.typeOnly with
      | false => simp
      | true => simp [h.unmarked marked item member]
    rw [Function.comp_apply, (h.named item member).namedItem_renderNamed, same, id]
  rw [namedClause_eq, addPart, inner, splitTop_entries h.named, read]

theorem addPart_whole {name : Text} (h : IsBindable name) (j : Import) :
    j.addPart ("* as " ++ name) = some { j with wholeName := some name } := by
  have word : IsTrimmed "as" := ⟨by decide, rfl, rfl⟩
  show (after? "as" (trim (' ' :: ("as" ++ (" " ++ name))))).map _ = _
  rw [trim_cons rfl, (word.append " " h.isTrimmed).trim_self, after?_append]
  show some { j with wholeName := some (trim (' ' :: name)) } = _
  rw [trim_cons rfl, h.isTrimmed.trim_self]

def IsLead (lead : Text) : Prop := lead = [] ∨ lead = "type "

theorem IsLead.isPart {name : Text} (lead? : IsLead lead) (h : IsBindable name) :
    IsPart [','] false (lead ++ name) := by
  rcases lead? with rfl | rfl
  · exact isPart_of_isFlat (isFlat_of_isBindable h) h.isTrimmed
  · have word : IsTrimmed "type" := ⟨by decide, rfl, rfl⟩
    exact isPart_of_isFlat (isFlat_append rfl (isFlat_of_isBindable h))
      (word.append " " h.isTrimmed)

theorem addPart_default {name : Text} (lead? : IsLead lead) (h : IsBindable name) (j : Import) :
    j.addPart (lead ++ name) = some { j with defaultName := some (lead ++ name) } := by
  obtain ⟨c, tail, rfl, start⟩ := exists_start h.isIdentifier
  have apart : c ∉ ['{', '*'] := not_mem_of_any start (by decide)
  simp only [mem_cons, not_mem_nil, or_false, not_or] at apart
  rcases lead? with rfl | rfl
  · rw [addPart]
    · rintro rest same
      exact apart.1 (cons.inj same).1
    · rintro rest same
      exact apart.2 (cons.inj same).1
  · rfl

theorem isPart_clauses (lead? : IsLead lead) (h : IsWritable i) :
    ∀ t ∈ i.clauses lead, IsPart [','] false t := by
  intro t member
  rw [clauses, mem_append, mem_append] at member
  rcases member with (first | list) | whole
  · obtain ⟨name, bound, rfl⟩ := Option.map_eq_some_iff.1 (Option.mem_toList.1 first)
    exact lead?.isPart (h.defaultName name bound)
  · split at list
    · simp at list
    · obtain rfl := mem_singleton.1 list
      exact isPart_namedClause h.named
  · obtain ⟨name, bound, rfl⟩ := Option.map_eq_some_iff.1 (Option.mem_toList.1 whole)
    have bindable := h.wholeName name bound
    have star : IsTrimmed "*" := ⟨by decide, rfl, rfl⟩
    exact isPart_of_isFlat (isFlat_append rfl (isFlat_of_isBindable bindable))
      (star.append " as " bindable.isTrimmed)

theorem foldlM_addPart (lead? : IsLead lead) (h : IsWritable i) (typeOnly : Bool) :
    (i.clauses lead).foldlM addPart { source := i.source, typeOnly } =
      some { i with defaultName := i.defaultName.map (lead ++ ·), typeOnly } := by
  have first : ((i.defaultName.map (lead ++ ·)).toList).foldlM addPart
      { source := i.source, typeOnly } =
        some { source := i.source, defaultName := i.defaultName.map (lead ++ ·), typeOnly } := by
    cases bound : i.defaultName with
    | none => rfl
    | some name => simp [addPart_default lead? (h.defaultName name bound)]
  have list (j : Import) : (if i.named.isEmpty then [] else [i.namedClause]).foldlM addPart j =
      some { j with named := j.named ++ i.named } := by
    split
    · next empty => simp [isEmpty_iff.1 empty]
    · simp [addPart_namedClause h]
  have whole (j : Import) (unnamed : j.wholeName = none) :
      ((i.wholeName.map fun name => ("* as ".toList ++ name : Text)).toList).foldlM addPart j =
        some { j with wholeName := i.wholeName } := by
    cases bound : i.wholeName with
    | none =>
      cases j
      cases unnamed
      rfl
    | some name =>
      rw [Option.map_some, Option.toList_some, foldlM_cons, addPart_whole (h.wholeName name bound)]
      rfl
  rw [clauses, foldlM_append, foldlM_append, first, Option.bind_eq_bind, Option.bind_some,
    list, Option.bind_some, whole _ rfl, nil_append]

def Cuts (t clause source : Text) : Prop :=
  ∀ before, cutFrom? before t = some (clause, source)

theorem cutFrom?_cons {before : Option Char}
    (passed : ∀ after, after? "from" (c :: rest) = some after →
      (before.all (fun b => isBlank b || b == '}') &&
        after.head?.any (fun a => isBlank a || a == '\'' || a == '"')) = false)
    (found : cutFrom? (some c) rest = some (clause, source)) :
    cutFrom? before (c :: rest) = some (c :: clause, source) := by
  rw [cutFrom?, found]
  cases starts : after? "from" (c :: rest) with
  | none => rfl
  | some after => simp [passed after starts]

theorem cuts_cons (other : c ≠ 'f') (found : cutFrom? (some c) rest = some (clause, source)) :
    Cuts (c :: rest) (c :: clause) source := fun before =>
  cutFrom?_cons (fun after starts => by simp [after?, Ne.symm other] at starts) found

theorem Cuts.append (h : Cuts t clause source) (other : 'f' ∉ lead) :
    Cuts (lead ++ t) (lead ++ clause) source := by
  induction lead with
  | nil => exact h
  | cons c lead ih =>
    rw [mem_cons, not_or] at other
    exact cuts_cons (Ne.symm other.1) (ih other.2 (some c))

theorem Cuts.append_name (h : Cuts t clause source) {name : Text} (bindable : IsBindable name)
    (ends : t.head?.any Text.isIdentChar = false) : Cuts (name ++ t) (name ++ clause) source := by
  have inside := bindable.isIdentChar
  -- Behind its first character the name itself keeps the keyword from being found.
  have later (run : Text) (inRun : ∀ c ∈ run, Text.isIdentChar c) (b : Char)
      (before : Text.isIdentChar b) :
      cutFrom? (some b) (run ++ t) = some (run ++ clause, source) := by
    induction run generalizing b with
    | nil => exact h (some b)
    | cons c run ih =>
      refine cutFrom?_cons (fun after _ => ?_)
        (ih (forall_mem_cons.1 inRun).2 c (inRun c (by simp)))
      have brace : b ∉ ['}'] := not_mem_of_any before (by decide)
      simp_all [isBlank_eq_false before]
  obtain ⟨c, tail, rfl, -⟩ := exists_start bindable.isIdentifier
  refine fun before => cutFrom?_cons (fun after starts => ?_)
    (later tail (forall_mem_cons.1 inside).2 c (inside c (by simp)))
  obtain ⟨d, rest, -, rfl, letter⟩ := bindable.exists_of_after? rfl bindable.other.2.2 ends starts
  have quote : d ∉ ['\'', '"'] := not_mem_of_any letter (by decide)
  simp_all [isBlank_eq_false letter]

theorem cuts_tail (i : Import) : Cuts i.tail " " (" '" ++ i.source ++ "';") := by
  refine cuts_cons (by decide) ?_
  rfl

theorem cutClause?_of_not_mem (plain : '{' ∉ t) : cutClause? t = cutFrom? none t := by
  have whole := breakAt_append (beq_of_not_mem plain) []
  rw [append_nil] at whole
  rw [cutClause?, whole]
  rfl

theorem cutClause?_braced {plain : Text} (opens : '{' ∉ plain)
    (closes : '}' ∉ inner) (cuts : Cuts ('}' :: rest) clause source) :
    cutClause? (plain ++ '{' :: (inner ++ '}' :: rest)) =
      some (plain ++ '{' :: (inner ++ clause), source) := by
  have closes : '}' ∉ '{' :: inner := by simpa using closes
  have first := breakAt_append (beq_of_not_mem opens) ('{' :: inner ++ '}' :: rest)
  have second := breakAt_append (beq_of_not_mem closes) ('}' :: rest)
  rw [breakAt_cons rfl, cons_append] at second
  rw [cons_append, breakAt_cons rfl] at first
  rw [cutClause?, first]
  dsimp only
  rw [second, cuts none]
  simp

theorem IsLead.not_mem (lead? : IsLead lead) : 'f' ∉ lead ∧ '{' ∉ lead := by
  rcases lead? with rfl | rfl <;> decide

theorem not_mem_tail (h : IsWritable i) : '{' ∉ i.tail := by
  intro member
  rcases mem_append.1 member with front | behind
  · rcases mem_append.1 front with before | inside
    · exact absurd before (by decide)
    · exact h.source inside
  · exact absurd behind (by decide)

theorem cutClause?_clauses (lead? : IsLead lead) (h : IsWritable i) :
    cutClause? (intercalate ", " (i.clauses lead) ++ i.tail) =
      some (intercalate ", " (i.clauses lead) ++ " ", " '" ++ i.source ++ "';") := by
  have binds := h.binds
  have ends := cuts_tail i
  have source := not_mem_tail h
  obtain ⟨noKeyword, noBrace⟩ := lead?.not_mem
  have brace : Text.isIdentChar '{' = false := by decide
  cases entries : i.named with
  | nil =>
    cases first : i.defaultName with
    | none =>
      cases whole : i.wholeName with
      | none => simp [localNames, entries, first, whole] at binds
      | some name =>
        have bindable := h.wholeName name whole
        have cuts := (ends.append_name bindable rfl).append
          (show 'f' ∉ "* as ".toList by decide) none
        rw [cutClause?_of_not_mem]
        · simpa [clauses, entries, first, whole] using cuts
        · simp [clauses, entries, first, whole, bindable.not_mem brace, source]
    | some name =>
      have bindable := h.defaultName name first
      cases whole : i.wholeName with
      | none =>
        have cuts := (ends.append_name bindable rfl).append noKeyword none
        rw [cutClause?_of_not_mem]
        · simpa [clauses, entries, first, whole] using cuts
        · simp [clauses, entries, first, whole, bindable.not_mem brace, source, noBrace]
      | some whole' =>
        have bindable' := h.wholeName whole' whole
        have cuts := (((ends.append_name bindable' rfl).append
          (show 'f' ∉ ", * as ".toList by decide)).append_name bindable rfl).append noKeyword none
        rw [cutClause?_of_not_mem]
        · simpa [clauses, entries, first, whole] using cuts
        · simp [clauses, entries, first, whole, bindable.not_mem brace, bindable'.not_mem brace,
            source, noBrace]
  | cons item items =>
    have whole : i.wholeName = none := h.apart.resolve_right (by simp [entries])
    have closes : '}' ∉ i.entries := fun member => by
      rcases isFlat_of_mem_entries h.named member with flat | same
      · exact absurd flat (by decide)
      · exact absurd same (by decide)
    have cuts : Cuts ('}' :: i.tail) ['}', ' '] (" '" ++ i.source ++ "';") :=
      cuts_cons (by decide) (ends (some '}'))
    cases first : i.defaultName with
    | none =>
      have cut := @cutClause?_braced _ _ _ _ [] (by simp) closes cuts
      simpa [clauses, entries, first, whole, namedClause_eq] using cut
    | some name =>
      have bindable := h.defaultName name first
      have opens : '{' ∉ lead ++ (name ++ ", ".toList) := by
        simp [noBrace, bindable.not_mem brace]
      have cut := cutClause?_braced opens closes cuts
      simpa [clauses, entries, first, whole, namedClause_eq] using cut

theorem unquote?_source (source : Text) :
    unquote? (trim (dropSemicolons (trim (" '" ++ source ++ "';")))) = some source := by
  have quote : IsTrimmed "'" := ⟨by decide, rfl, rfl⟩
  have finish : IsTrimmed "';" := ⟨by decide, rfl, rfl⟩
  have bare : dropSemicolons ("'" ++ (source ++ "';")) = "'" ++ (source ++ "'") := by
    simp [dropSemicolons]
  have whole : " '" ++ source ++ "';" = ' ' :: ("'" ++ (source ++ "';")) := by simp
  rw [whole, trim_cons rfl, (quote.append source finish).trim_self, bare,
    (quote.append source quote).trim_self, unquote?, (quote.append source quote).trim_self]
  exact before?_append source "'"

theorem afterTypeMarker?_eq_none (passed : ∀ after, after? "type" t = some after →
      after.head?.any (fun c => isBlank c || c == '{') = false) : afterTypeMarker? t = none := by
  rw [afterTypeMarker?]
  cases starts : after? "type" t with
  | none => rfl
  | some after =>
    have other := passed after starts
    cases after with
    | nil => rfl
    | cons c after =>
      have : isBlank c = false ∧ c ≠ '{' := by simpa using other
      simp [this, startsWith, after?, Ne.symm this.2]

theorem afterTypeMarker?_type (starts : t.head?.any (fun c => isBlank c || c == ',') = false) :
    afterTypeMarker? ("type " ++ t) = if t.startsWith "from" then none else some t := by
  have marker : after? "type" ("type " ++ t) = some (' ' :: t) := after?_append "type" (' ' :: t)
  obtain ⟨blank, comma⟩ : t.head?.any isBlank = false ∧ t.startsWith "," = false := by
    cases t with
    | nil => exact ⟨rfl, rfl⟩
    | cons c t =>
      have : isBlank c = false ∧ c ≠ ',' := by simpa using starts
      simp [startsWith, after?, this, Ne.symm this.2]
  have trimmed : trimStart (' ' :: t) = t := by
    exact dropWhile_of_head? blank
  have brace : startsWith (' ' :: t) "\x7b" = false := rfl
  rw [afterTypeMarker?, marker]
  simp only [Option.bind_eq_bind, Option.bind_some, trimmed, comma, brace]
  cases t.startsWith "from" <;> rfl

def body (lead : Text) (i : Import) : Text := intercalate ", " (i.clauses lead) ++ i.tail

theorem render_eq_body (h : IsWritable i) :
    i.render =
      "import " ++ ((if i.typeOnly then "type ".toList else []) ++ i.body []) ++ ['\n'] := by
  have ends : i.tail ++ ['\n'] = " from '" ++ (i.source ++ "';\n") := by
    show " from '" ++ i.source ++ "';" ++ ['\n'] = _
    simp
  rw [render_eq h, renderStatement, body, append_assoc, append_assoc, ← ends]
  cases i.typeOnly <;> simp

theorem body_start (h : IsWritable i) :
    (∃ name rest, i.defaultName = some name ∧ i.body [] = name ++ rest ∧
      rest.head?.any isIdentChar = false) ∨
    i.defaultName = none ∧ ∃ c rest, i.body [] = c :: rest ∧ (c = '{' ∨ c = '*') := by
  have binds := h.binds
  cases first : i.defaultName with
  | some name =>
    obtain ⟨others, parts⟩ : ∃ others, i.clauses [] = name :: others := by simp [clauses, first]
    cases others with
    | nil => exact .inl ⟨name, i.tail, rfl, by simp [body, parts], rfl⟩
    | cons second others =>
      refine .inl ⟨name, ", " ++ (intercalate ", " (second :: others) ++ i.tail), rfl, ?_, rfl⟩
      rw [body, parts, intercalate_cons_cons, append_assoc, append_assoc]
  | none =>
    refine .inr ⟨rfl, ?_⟩
    cases entries : i.named with
    | cons item items =>
      have whole : i.wholeName = none := h.apart.resolve_right (by simp [entries])
      exact ⟨'{', i.entries ++ '}' :: i.tail,
        by simp [body, clauses, first, entries, whole, namedClause_eq], .inl rfl⟩
    | nil =>
      cases whole : i.wholeName with
      | none => simp [localNames, entries, first, whole] at binds
      | some name =>
        exact ⟨'*', " as " ++ (name ++ i.tail), by simp [body, clauses, first, entries, whole],
          .inr rfl⟩

theorem head_body (h : IsWritable i) :
    (i.body []).head?.any (fun c => isBlank c || c == ',') = false := by
  rcases body_start h with ⟨name, rest, bound, whole, -⟩ | ⟨-, c, rest, whole, rfl | rfl⟩
  · have bindable := h.defaultName name bound
    obtain ⟨c, more, rfl, start⟩ := exists_start bindable.isIdentifier
    have comma : c ∉ [','] := not_mem_of_any start (by decide)
    simp_all [bindable.isBlank c (by simp)]
  · rw [whole]
    rfl
  · rw [whole]
    rfl

theorem isTrimmed_body (h : IsWritable i) : IsTrimmed (i.body []) := by
  have last : (i.body []).getLast? = some ';' := by
    rw [body, getLast?_append]
    show (" from '" ++ i.source ++ "';").getLast?.or _ = _
    rw [getLast?_append]
    rfl
  refine ⟨?_, ?_, by rw [last]; rfl⟩
  · intro empty
    rw [empty] at last
    cases last
  · have first := head_body h
    cases whole : i.body [] with
    | nil => rfl
    | cons c rest =>
      rw [whole] at first
      exact (Bool.or_eq_false_iff.1 first).1

theorem parse?_import (trimmed : rest.IsTrimmed) :
    parse? ("import " ++ rest ++ ['\n']) =
      (cutClause? ((afterTypeMarker? rest).getD rest)).bind fun (clause, source) =>
        (unquote? (dropSemicolons source.trim).trim).bind fun source =>
          (splitTop [','] false clause.trim).foldlM addPart
            { source, typeOnly := (afterTypeMarker? rest).isSome } := by
  have word : IsTrimmed "import" := ⟨by decide, rfl, rfl⟩
  have outer : trim ("import ".toList ++ rest ++ ['\n']) = "import".toList ++ ' ' :: rest :=
    (trim_concat rfl _).trans (word.append " " trimmed).trim_self
  have inner : trimStart (' ' :: rest) = rest := by
    exact dropWhile_of_head? trimmed.head
  rw [parse?, outer, after?_append]
  show Option.bind (cutClause? ((afterTypeMarker? (trimStart (' ' :: rest))).getD
    (trimStart (' ' :: rest)))) _ = _
  rw [inner]
  rfl

theorem isTrimmed_intercalate {between : Text} {parts : List Text} (ne : parts ≠ [])
    (trimmed : ∀ t ∈ parts, t.IsTrimmed) : IsTrimmed (intercalate between parts) := by
  induction parts with
  | nil => exact absurd rfl ne
  | cons first rest ih =>
    cases rest with
    | nil => simpa using trimmed first (by simp)
    | cons second rest =>
      exact (trimmed first (by simp)).append between (ih (by simp) (forall_mem_cons.1 trimmed).2)

theorem parse?_of_body (lead? : IsLead lead) (h : IsWritable i) (trimmed : rest.IsTrimmed)
    (behind : (afterTypeMarker? rest).getD rest = i.body lead) :
    parse? ("import " ++ rest ++ ['\n']) =
      some { i with defaultName := i.defaultName.map (lead ++ ·)
                    typeOnly := (afterTypeMarker? rest).isSome } := by
  have parts := isPart_clauses lead? h
  have some : i.clauses lead ≠ [] := by
    have binds := h.binds
    intro none
    simp_all [clauses, localNames]
  have nothing : ∀ c ∈ ([] : Text), isBlank c := by simp
  have clause : trim (intercalate ", " (i.clauses lead) ++ " ") =
      intercalate ", " (i.clauses lead) := (trim_concat rfl _).trans
    (isTrimmed_intercalate some fun t member => (parts t member).trimmed).trim_self
  have split := splitTop_intercalate parts nothing nothing
  rw [append_nil, nil_append] at split
  rw [parse?_import trimmed, behind, body, cutClause?_clauses lead? h, Option.bind_some]
  dsimp only
  rw [unquote?_source, Option.bind_some, clause, split, foldlM_addPart lead? h]

theorem afterTypeMarker?_body (h : IsWritable i) : afterTypeMarker? (i.body []) = none := by
  refine afterTypeMarker?_eq_none fun after starts => ?_
  rcases body_start h with ⟨name, rest, bound, whole, ends⟩ | ⟨-, c, rest, whole, rfl | rfl⟩
  · have bindable := h.defaultName name bound
    rw [whole] at starts
    obtain ⟨c, more, -, rfl, letter⟩ := bindable.exists_of_after? rfl bindable.other.1 ends starts
    have brace : c ∉ ['{'] := not_mem_of_any letter (by decide)
    simp_all [isBlank_eq_false letter]
  all_goals
    rw [whole] at starts
    cases starts

theorem startsWith_body (h : IsWritable i) :
    (i.body []).startsWith "from" = i.defaultName.any (·.startsWith "from") := by
  rcases body_start h with ⟨name, rest, bound, whole, ends⟩ | ⟨bound, c, rest, whole, rfl | rfl⟩
  · have bindable := h.defaultName name bound
    rw [whole, bound, Option.any_some, Bool.eq_iff_iff, startsWith_eq_true_iff,
      startsWith_eq_true_iff]
    constructor
    · rintro ⟨after, starts⟩
      obtain ⟨c, more, same, -, -⟩ := bindable.exists_of_after? rfl bindable.other.2.2 ends
        (after?_eq_some_iff.2 starts)
      exact ⟨c :: more, same⟩
    · rintro ⟨more, rfl⟩
      exact ⟨more ++ rest, append_assoc _ _ _⟩
  · rw [whole, bound]
    rfl
  · rw [whole, bound]
    rfl

theorem afterTypeMarker?_marked (h : IsWritable i) :
    afterTypeMarker? ("type " ++ i.body []) =
      if i.defaultName.any (·.startsWith "from") then none else some (i.body []) := by
  rw [← startsWith_body h]
  exact afterTypeMarker?_type (head_body h)

theorem body_type {name : Text} (bound : i.defaultName = some name) :
    "type " ++ i.body [] = i.body "type " := by
  obtain ⟨others, parts⟩ : ∃ others, ∀ lead, i.clauses lead = (lead ++ name) :: others :=
    ⟨_, fun lead => by
      rw [clauses, bound, Option.map_some]
      rfl⟩
  rw [body, body, parts, parts]
  cases others with
  | nil => simp
  | cons second others => simp [intercalate_cons_cons]

theorem parse?_render_unmarked (h : IsWritable i) (value : i.typeOnly = false) :
    parse? i.render = some i := by
  have none := afterTypeMarker?_body h
  have read := parse?_of_body (.inl rfl) h (isTrimmed_body h) (by rw [none, Option.getD_none])
  rw [none, Option.isSome_none, ← value] at read
  rw [render_eq_body h, value]
  simpa using read

theorem parse?_render_marked (h : IsWritable i) (marked : i.typeOnly) :
    parse? i.render =
      if i.defaultName.any (·.startsWith "from") then
        some { i with defaultName := i.defaultName.map ("type ".toList ++ ·), typeOnly := false }
      else some i := by
  have word : IsTrimmed "type" := ⟨by decide, rfl, rfl⟩
  have trimmed : IsTrimmed ("type " ++ i.body []) := word.append " " (isTrimmed_body h)
  have behind := afterTypeMarker?_marked h
  rw [render_eq_body h, if_pos marked]
  split at behind
  · next misread =>
    obtain ⟨name, bound, -⟩ := (Option.any_eq_true _ _).1 misread
    have read := parse?_of_body (.inr rfl) h trimmed
      (by rw [behind, Option.getD_none, body_type bound])
    rw [behind] at read
    rw [if_pos misread]
    exact read
  · next other =>
    have read := parse?_of_body (.inl rfl) h trimmed (by rw [behind, Option.getD_some])
    rw [behind, Option.isSome_some, ← marked] at read
    rw [if_neg other]
    simpa using read

/-- A written statement is read as what was written, but for one case: behind a `type` marker, a
default that only starts with `from` takes the marker into its name, and types become values. -/
theorem parse?_render (i : Import) (h : IsWritable i) :
    (parse? i.render = some i ↔
      ¬ (i.typeOnly = true ∧ ∃ rest : Text, i.defaultName = some ("from" ++ rest))) ∧
    ∀ rest : Text, i.typeOnly = true → i.defaultName = some ("from" ++ rest) →
      parse? i.render =
        some { i with defaultName := some ("type from" ++ rest), typeOnly := false } := by
  have starts : i.defaultName.any (·.startsWith "from") = true ↔
      ∃ rest : Text, i.defaultName = some ("from" ++ rest) := by
    simp only [Option.any_eq_true, startsWith_eq_true_iff]
    constructor
    · rintro ⟨name, bound, rest, rfl⟩
      exact ⟨rest, bound⟩
    · rintro ⟨rest, bound⟩
      exact ⟨_, bound, rest, rfl⟩
  constructor
  · cases marked : i.typeOnly with
    | false => simp [parse?_render_unmarked h marked]
    | true =>
      rw [parse?_render_marked h marked, ← starts]
      split
      · next misread =>
        refine iff_of_false (fun same => ?_) (not_not_intro ⟨rfl, misread⟩)
        have := congrArg Import.typeOnly (Option.some.inj same)
        rw [marked] at this
        cases this
      · next read => exact iff_of_true rfl fun both => read both.2
  · intro rest marked bound
    rw [parse?_render_marked h marked, if_pos (starts.2 ⟨rest, bound⟩), bound]
    rfl

def sample : Import where
  source := "./from"
  defaultName := some "fromage"
  named := [⟨"typed", some "b", true⟩, ⟨"asset", none, false⟩]

theorem isWritable_sample : IsWritable sample where
  binds := by decide
  defaultName := by
    rintro _ ⟨⟩
    exact ⟨by decide, by decide⟩
  wholeName := by rintro _ ⟨⟩
  named := by
    intro item member
    rcases mem_cons.1 member with rfl | member
    · refine ⟨⟨by decide, by decide⟩, ?_⟩
      rintro _ ⟨⟩
      exact ⟨⟨by decide, by decide⟩, by decide⟩
    · obtain rfl := mem_singleton.1 member
      exact ⟨⟨by decide, by decide⟩, by rintro _ ⟨⟩⟩
  apart := .inl rfl
  unmarked := by rintro ⟨⟩
  source := by decide

theorem parse?_render_sample : IsWritable sample ∧ parse? sample.render = some sample :=
  ⟨isWritable_sample, ((parse?_render sample isWritable_sample).1).2 fun both => nomatch both.1⟩

def typedSample : Import where
  source := "./x"
  defaultName := some "fromage"
  typeOnly := true

/-- It is read as a value of another name. -/
theorem parse?_render_typedSample : IsWritable typedSample ∧
    parse? typedSample.render = some { source := "./x", defaultName := some "type fromage" } := by
  refine ⟨⟨by decide, ?_, by rintro _ ⟨⟩, by rintro _ ⟨⟩, .inl rfl, by rintro - _ ⟨⟩, by decide⟩,
    ?_⟩
  · rintro _ ⟨⟩
    exact ⟨by decide, by decide⟩
  · decide +kernel

end Import

end Script

end SfcJsx
