import SfcJsx.Proofs.WrittenAttributes

/-!
Where a reader comes to after an unquoted value. The value ends before white space or `>`, the
tokens do not: a `/` at its end makes one token with the `>`, and a name goes on over white space
that does not separate tokens. The reader then loses what such a token takes from behind the value,
and nothing else.
-/

namespace SfcJsx.Markup

open List Text
open Token (isSkipped isNameChar joins Cut Parted Reads)

namespace Token

variable {value rest : Text}

/-- What a token that starts in an unquoted value takes from behind it. -/
def swallowed (value rest : Text) : Text :=
  if ['<', '/'] <:+ value ∨ ['<', '!', '-', '-'] <:+ value then []
  else if value.getLast? = some '/' then (rest.takeWhile (· == '>')).take 1
  else if value.getLast?.any isNameChar then rest.takeWhile isNameChar
  else []

theorem cut_bracket {s t : Text} {k : TokenKind} (reads : Reads k ('<' :: t) rest) :
    Cut (s ++ '<' :: t) rest := by
  refine Cut.append (Parted.cut ?_) reads.cut
  rintro a - b ⟨⟩
  exact joins_bracket a

theorem exists_last_word (named : value.getLast?.any isNameChar) :
    ∃ front word, value = front ++ word ∧ word ≠ [] ∧ (∀ c ∈ word, isNameChar c) ∧
      ∀ a ∈ front.getLast?, isNameChar a = false := by
  refine ⟨(value.reverse.dropWhile isNameChar).reverse,
    (value.reverse.takeWhile isNameChar).reverse, ?_, ?_, ?_, ?_⟩
  · rw [← reverse_append, takeWhile_append_dropWhile, reverse_reverse]
  · rw [← head?_reverse] at named
    obtain ⟨c, first, letter⟩ := (Option.any_eq_true _ _).1 named
    obtain ⟨more, whole⟩ := head?_eq_some_iff.1 first
    simp [whole, letter]
  · exact fun c member => all_eq_true.1 all_takeWhile c (mem_reverse.1 member)
  · intro a last
    rw [getLast?_reverse] at last
    have stops := head?_dropWhile_not isNameChar value.reverse
    rw [Option.mem_def.1 last] at stops
    exact stops

theorem exists_word (named : value.getLast?.any isNameChar)
    (inside : ¬ ['<', '!', '-', '-'] <:+ value) (stops : ∀ b ∈ rest.head?, b ≠ '-') :
    ∃ front word, value = front ++ word ∧ word ≠ [] ∧ (∀ c ∈ word, isNameChar c) ∧
      Cut front (word ++ rest) := by
  obtain ⟨front, word, rfl, ne, all, ends⟩ := exists_last_word named
  by_cases parted : Parted front (word ++ rest)
  · exact ⟨front, word, rfl, ne, all, parted.cut⟩
  -- Of all tokens only those that start with `<` have name characters behind another one.
  obtain ⟨c, word, rfl⟩ := exists_cons_of_ne_nil ne
  have letter := all c mem_cons_self
  obtain ⟨a, last, joined⟩ : ∃ a ∈ front.getLast?, joins a c := by
    simpa [Parted] using parted
  have other := ends a last
  obtain ⟨rfl, rfl⟩ : a = '<' ∧ c = '!' := by
    have : c ≠ '/' ∧ c ≠ '>' ∧ c ≠ '{' ∧ c ≠ '}' := by
      refine ⟨?_, ?_, ?_, ?_⟩ <;> rintro rfl <;> exact absurd letter (by decide)
    simpa [joins, other, this] using joined
  obtain ⟨front, rfl⟩ := getLast?_eq_some_iff.1 (Option.mem_def.1 last)
  by_cases comment : ['-', '-'] <+: word
  · obtain ⟨word, rfl⟩ := comment
    refine ⟨front ++ ['<', '!', '-', '-'], word, by simp, ?_, ?_, cut_bracket (reads_commentOpen _)⟩
    · rintro rfl
      exact inside ⟨front, by simp⟩
    · simp_all
  · have reads : Reads .tagOpen ['<'] ('!' :: word ++ rest) := by
      refine reads_of_lead (by decide) ?_
      rcases word with _ | ⟨d, _ | ⟨e, word⟩⟩
      all_goals
        unfold lead
        split <;> simp_all
    exact ⟨front ++ ['<'], '!' :: word, rfl, ne, all, cut_bracket reads⟩

theorem joins_stop {a b : Char} (stop : isBlank b ∨ b = '>') (letter : isNameChar a = false)
    (slash : a = '/' → b ≠ '>') : joins a b = false := by
  have : b ≠ '!' ∧ b ≠ '/' ∧ b ≠ '{' ∧ b ≠ '}' := by
    refine ⟨?_, ?_, ?_, ?_⟩ <;> rintro rfl <;> exact absurd stop (by decide)
  simpa [joins, letter, this] using slash

theorem cut_or_reads (value : Text) (stops : ∀ b ∈ rest.head?, isBlank b ∨ b = '>') :
    (Cut value rest ∧ swallowed value rest = []) ∨
      ∃ front t k tail, value = front ++ t ∧ t ≠ [] ∧ rest = swallowed value rest ++ tail ∧
        Cut front (t ++ rest) ∧ Reads k (t ++ swallowed value rest) tail := by
  unfold swallowed
  split_ifs with opens slash named
  · left
    refine ⟨?_, rfl⟩
    rcases opens with ⟨front, rfl⟩ | ⟨front, rfl⟩
    · exact cut_bracket (reads_closingOpen _)
    · exact cut_bracket (reads_commentOpen _)
  · obtain ⟨front, rfl⟩ := getLast?_eq_some_iff.1 slash
    by_cases closes : rest.head? = some '>'
    · obtain ⟨rest, rfl⟩ := head?_eq_some_iff.1 closes
      refine .inr ⟨front, ['/'], .selfClose, rest, rfl, by simp, by simp, Parted.cut ?_, ?_⟩
      · rintro a last b ⟨⟩
        have other : a ≠ '<' := by
          rintro rfl
          obtain ⟨front, rfl⟩ := getLast?_eq_some_iff.1 (Option.mem_def.1 last)
          exact opens (.inl ⟨front, by simp⟩)
        simp [joins, other, Token.isNameChar, Token.isPunctuation]
      · exact reads_selfClose rest
    · refine .inl ⟨Parted.cut (parted_append_singleton fun b first => ?_), ?_⟩
      · exact joins_stop (stops b first) (by decide) fun _ same => closes (same ▸ first)
      · cases rest <;> simp_all
  · have inside : ∀ b ∈ rest.head?, b ≠ '-' := by
      rintro b first rfl
      exact absurd (stops _ first) (by decide)
    obtain ⟨front, word, rfl, ne, all, cut⟩ := exists_word named (not_or.1 opens).2 inside
    exact .inr ⟨front, word, .name, rest.dropWhile isNameChar, rfl, ne,
      takeWhile_append_dropWhile.symm, cut, reads_word ne all rest⟩
  · refine .inl ⟨Parted.cut fun a last b first => joins_stop (stops b first) ?_ ?_, rfl⟩
    · simpa [Option.mem_def.1 last] using named
    · rintro rfl
      exact absurd last slash

theorem takeWhile_of_swallowed (ne : swallowed value rest ≠ []) : rest.takeWhile isSkipped = [] :=
    by
  cases rest with
  | nil => rfl
  | cons b rest =>
    refine takeWhile_cons_of_neg fun skipped => ne ?_
    have other : b ≠ '>' := by
      rintro rfl
      exact absurd skipped (by decide)
    simp [swallowed, other, skipped, Token.isNameChar]

end Token

namespace Reader

open Token (swallowed)

variable {r : Reader} {source before value rest : Text}

theorem At.offset_eq (h : r.At before rest) :
    r.offset = (before ++ rest.takeWhile isSkipped).width := by
  cases ahead : rest.dropWhile isSkipped with
  | nil =>
    have stands : r.At before (rest.takeWhile isSkipped ++ []) := by
      rwa [← ahead, takeWhile_append_dropWhile]
    have atEnd := (stands.skip fun c member => all_eq_true.1 all_takeWhile c member).tokens
    rw [Reader.offset, Reader.current, atEnd, Token.scanFrom]
    rfl
  | cons c t => exact (h.kind_of_dropWhile ahead).2.2.1

theorem At.offset_seek (h : r.At before (value ++ rest))
    (stops : ∀ b ∈ rest.head?, isBlank b ∨ b = '>') :
    (r.seek (before ++ value).width).offset = (before ++ value ++ swallowed value rest ++
      (rest.drop (swallowed value rest).length).takeWhile isSkipped).width := by
  rcases Token.cut_or_reads value stops with
    ⟨cut, none⟩ | ⟨front, t, k, tail, whole, ne, split, cut, reads⟩
  · rw [none, (h.seek cut).offset_eq]
    simp
  · generalize swallowed value rest = taken at split reads ⊢
    subst whole split
    have place : r.At before (front ++ ((t ++ taken) ++ tail)) := by simpa using h
    have later : (before ++ front).width < (before ++ (front ++ t)).width := by
      have := width_pos ne
      simp
      omega
    obtain ⟨stands, -⟩ := place.reached_seek (by simpa using cut) reads later (by simp)
    rw [stands.offset_eq]
    simp

theorem exists_readValue_eq (unquoted : r.kind ∉
      [.doubleQuote, .singleQuote, .tagClose, .selfClose, .endOfFile]) (name : Text) :
    ∃ value rest, r.ahead r.offset = value ++ rest ∧
      r.readValue name = (some (value, ⟨r.offset, r.offset + width value⟩),
        r.seek (r.offset + width value)) ∧
      (∀ c ∈ value, isBlank c = false ∧ c ≠ '>') ∧
      ∀ c ∈ rest.head?, isBlank c ∨ c = '>' := by
  refine ⟨_, _, (takeWhile_append_dropWhile (p := fun c => !(isBlank c || c == '>'))).symm,
    ?_, ?_, ?_⟩
  · unfold readValue
    split <;> first | rfl | simp_all
  · intro c member
    simpa using all_eq_true.1 all_takeWhile c member
  · intro c first
    have stops := head?_dropWhile_not (fun c => !(isBlank c || c == '>')) (r.ahead r.offset)
    rw [Option.mem_def.1 first] at stops
    simpa [or_iff_not_imp_left] using stops

/-- Behind an unquoted value comes the next token of the text behind it, unless a token that starts
in the value goes on behind it: the reader then stands behind that token. -/
theorem offset_readValue (came : (ofSource source).GoesOn r) (unquoted : r.kind ∉
      [.doubleQuote, .singleQuote, .tagClose, .selfClose, .endOfFile]) (name : Text) :
    ∃ before value rest, source = before ++ value ++ rest ∧
      (r.readValue name).1 = some (value, ⟨before.width, (before ++ value).width⟩) ∧
      (∀ c ∈ value, isBlank c = false ∧ c ≠ '>') ∧
      (∀ c ∈ rest.head?, isBlank c = true ∨ c = '>') ∧
      (r.readValue name).2.offset = (before ++ value ++ swallowed value rest ++
        (rest.drop (swallowed value rest).length).takeWhile isSkipped).width ∧
      ((r.readValue name).2.offset = (before ++ value ++ rest.takeWhile isSkipped).width ↔
        swallowed value rest = []) := by
  have visible : r.fresh.kind ≠ .endOfFile := by
    intro atEnd
    exact unquoted (by simp [show r.kind = .endOfFile from atEnd])
  obtain ⟨before, ahead, behind⟩ := came.exists_behind fun none => visible (by
    simp [Reader.kind, Reader.current, Reader.fresh, none])
  obtain ⟨gap, word, after, rfl, blank, reads, place, -⟩ := behind.place.token visible
  have offset : r.offset = (before ++ gap).width := place.offset reads
  obtain ⟨value, rest, split, read, inside, stops⟩ := exists_readValue_eq unquoted name
  have here : value ++ rest = word ++ after := by
    rw [← split, offset]
    exact ahead_of_source place.source
  rw [offset, ← width_append] at read
  rw [← here] at place
  have reached := place.offset_seek stops
  have seeked : (r.readValue name).2.offset =
      (r.fresh.seek (before ++ gap ++ value).width).offset := by
    rw [read]
    rfl
  refine ⟨before ++ gap, value, rest, ?_, by rw [read], inside, stops, seeked.trans reached, ?_⟩
  · rw [append_assoc]
    exact came.source.symm.trans place.source
  · rw [seeked, reached]
    constructor
    · intro same
      by_contra ne
      have positive := Text.width_pos ne
      rw [Token.takeWhile_of_swallowed ne] at same
      simp at same
      omega
    · intro none
      simp [none]

/-- The `>` behind `c/` is lost: it is one token with the `/`. -/
theorem offset_readValue_slash :
    let r := (ofSource "<a b=c/>x").advance.advance.advance.advance
    ∃ before value rest : Text, "<a b=c/>x" = before ++ value ++ rest ∧
      (r.readValue "b").1 = some (value, ⟨before.width, (before ++ value).width⟩) ∧
      (r.readValue "b").2.offset ≠ (before ++ value ++ rest.takeWhile isSkipped).width ∧
      swallowed value rest = ['>'] := by
  intro r
  have came : (ofSource "<a b=c/>x").GoesOn r :=
    ((((passes_advance _).trans (passes_advance _)).trans (passes_advance _)).trans
      (passes_advance _)).goesOn
  obtain ⟨before, value, rest, source, read, -, -, -, kept⟩ :=
    offset_readValue came (by decide +kernel) "b"
  have found : (r.readValue "b").1 = some (['c', '/'], ⟨5, 7⟩) := by decide +kernel
  obtain ⟨rfl, place⟩ := Prod.mk.inj (Option.some.inj (found.symm.trans read))
  have ahead : ['c', '/'] ++ rest = ['c', '/', '>', 'x'] := by
    rw [← dropBytes_width_append before (_ ++ rest), ← append_assoc, ← source,
      ← (Span.mk.inj place).1]
    decide +kernel
  obtain rfl : rest = ['>', 'x'] := append_cancel_left ahead
  have taken : swallowed ['c', '/'] ['>', 'x'] = ['>'] := by decide
  exact ⟨before, _, _, source, read, by rw [Ne, kept, taken]; decide, taken⟩

/-- The value ends at offset 10, where the `>` stands. -/
theorem readValue_slash_loses_bracket :
    let r := (ofSource "<a href=x/>text</a>").advance.advance.advance.advance
    (r.readValue "href").1 = some (['x', '/'], ⟨8, 10⟩) ∧ (r.readValue "href").2.offset = 11 := by
  decide +kernel

end Reader

end SfcJsx.Markup
