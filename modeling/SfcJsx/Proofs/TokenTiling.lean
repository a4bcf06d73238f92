import SfcJsx.Proofs.WrittenAttributes

/-!
The tokens of a source tile it: each is the longest word of any kind where it starts, and what
stands outside of them is skipped.
-/

namespace SfcJsx.Markup

open List Text

variable {c : Char} {rest source before word after : Text} {kind : TokenKind} {tokens : List Token}
  {start : Nat}

/-- The spellings of a kind of token. -/
def TokenKind.IsWord : TokenKind → Text → Prop
  | .name, word => word ≠ [] ∧ ∀ c ∈ word, Token.isNameChar c
  | kind, word => Token.spelling? kind = some word

/-- A word of a kind that is longer than every other one that starts there. -/
structure TokenKind.IsLongest (kind : TokenKind) (word after : Text) : Prop where
  isWord : kind.IsWord word
  longest : ∀ kind' word', IsWord kind' word' → word' <+: word ++ after →
    word'.length < word.length ∨ kind' = kind ∧ word' = word

open TokenKind

namespace Token

theorem ne_nil_of_isWord (h : kind.IsWord word) : word ≠ [] := by
  rintro rfl
  cases kind <;> simp [IsWord, spelling?] at h

theorem eq_name_of_isWord (named : isNameChar c) (h : kind.IsWord (c :: word)) : kind = .name := by
  cases kind with
  | name => rfl
  | endOfFile => cases h
  | _ =>
    obtain ⟨rfl, -⟩ := cons.inj (Option.some.inj h)
    exact absurd named (by decide)

theorem isLongest_name (named : isNameChar c) (rest : Text) :
    IsLongest .name (c :: rest.takeWhile isNameChar) (rest.dropWhile isNameChar) where
  isWord := ⟨by simp, by
    intro d member
    rcases mem_cons.1 member with rfl | later
    · exact named
    · exact all_eq_true.1 all_takeWhile d later⟩
  longest := by
    rw [cons_append, takeWhile_append_dropWhile]
    intro kind' word' isWord starts
    obtain ⟨d, word', rfl⟩ := exists_cons_of_ne_nil (ne_nil_of_isWord isWord)
    obtain ⟨rfl, tail, rfl⟩ := cons_prefix_cons.1 starts
    obtain rfl := eq_name_of_isWord named isWord
    rw [takeWhile_append_of_pos (forall_mem_cons.1 isWord.2).2]
    rcases eq_or_ne (tail.takeWhile isNameChar) [] with none | some
    · exact .inr ⟨rfl, by rw [none, append_nil]⟩
    · have := length_pos_iff.2 some
      exact .inl (by simp; omega)

theorem lead_of_isWord (other : kind ≠ .name) (h : kind.IsWord (c :: word)) (rest : Text) :
    word.length < (lead c (word ++ rest)).2 ∨ lead c (word ++ rest) = (kind, word.length) := by
  cases kind with
  | name => exact absurd rfl other
  | endOfFile => cases h
  | tagOpen | slash | braceOpen | braceClose =>
    obtain ⟨rfl, rfl⟩ := cons.inj (Option.some.inj h)
    unfold lead
    split <;> simp_all
  | _ =>
    obtain ⟨rfl, rfl⟩ := cons.inj (Option.some.inj h)
    exact .inr rfl

theorem isWord_lead (kept : isSkipped c = false) (other : isNameChar c = false) (rest : Text) :
    (lead c rest).1.IsWord (c :: rest.take (lead c rest).2) := by
  rcases eq_of_not_isNameChar kept other with
    rfl | rfl | rfl | rfl | rfl | rfl | rfl | rfl | rfl
  all_goals
    unfold lead
    split <;> simp_all [IsWord, spelling?]

theorem isLongest_lead (kept : isSkipped c = false) (rest : Text) :
    IsLongest (lead c rest).1 (c :: rest.take (lead c rest).2) (rest.drop (lead c rest).2) := by
  cases named : isNameChar c with
  | true =>
    have run := takeWhile_append_dropWhile (p := isNameChar) (l := rest)
    have whole := isLongest_name named rest
    rw [lead_of_isNameChar named]
    generalize rest.takeWhile isNameChar = word at *
    generalize rest.dropWhile isNameChar = after at *
    subst run
    simpa using whole
  | false =>
    refine ⟨isWord_lead kept named rest, fun kind' word' isWord starts => ?_⟩
    obtain ⟨d, word', rfl⟩ := exists_cons_of_ne_nil (ne_nil_of_isWord isWord)
    rw [cons_append, take_append_drop] at starts
    obtain ⟨rfl, tail, rfl⟩ := cons_prefix_cons.1 starts
    have other : kind' ≠ .name := by
      rintro rfl
      simp [isWord.2 d] at named
    rcases lead_of_isWord other isWord tail with longer | same
    · have := lead_le_length d (word' ++ tail)
      exact .inl (by simp at this ⊢; omega)
    · exact .inr (by simp [same])

/-- Where a token stands in a source, and that it is the longest one there. Before a name there is
no name character, but for the one that ends `<!--`. -/
def Placed (source : Text) (token : Token) : Prop :=
  token.span.start < token.span.stop ∧ ∃ before word after : Text,
    source = before ++ (word ++ after) ∧ token.span = ⟨before.width, (before ++ word).width⟩ ∧
    token.kind.IsLongest word after ∧ (token.kind = .name → ∀ d ∈ before.getLast?,
      isNameChar d → ['<', '!', '-', '-'] <:+ before)

/-- Tokens of a source from an offset on. -/
structure Tiles (source : Text) (start : Nat) (tokens : List Token) : Prop where
  placed : ∀ token ∈ tokens, token.Placed source
  behind : ∀ token ∈ tokens, start ≤ token.span.start
  ordered : tokens.Pairwise fun a b => a.span.stop ≤ b.span.start
  covered : ∀ (before : Text) (c : Char) (after : Text), source = before ++ c :: after →
    start ≤ before.width → isSkipped c ∨ ∃ token ∈ tokens,
      token.span.start ≤ before.width ∧ before.width + c.utf8Size ≤ token.span.stop ∧
      (c = '<' → token.span.start = before.width)

theorem bracket_not_mem_tail (h : kind.IsWord (c :: word)) : '<' ∉ word := by
  cases kind with
  | name =>
    intro member
    exact absurd (h.2 '<' (mem_cons_of_mem c member)) (by decide)
  | endOfFile => cases h
  | _ =>
    obtain ⟨rfl, rfl⟩ := cons.inj (Option.some.inj h)
    decide

theorem inside_or_behind {left right : Text} (split : before ++ (word ++ rest) = left ++ c :: right)
    (late : before.width ≤ left.width) :
    (∃ inside behind, left = before ++ inside ∧ word = inside ++ c :: behind) ∨
      (before ++ word).width ≤ left.width := by
  refine or_iff_not_imp_right.2 fun early => ?_
  have whole : before ++ (word ++ rest) = before ++ word ++ rest := (append_assoc ..).symm
  obtain ⟨inside, rfl⟩ := prefix_of_width_le ⟨_, rfl⟩ ⟨_, split.symm⟩ late
  obtain ⟨more, same⟩ := prefix_of_width_le ⟨_, split.symm⟩ ⟨_, whole.symm⟩ (Nat.le_of_not_le early)
  rw [append_assoc] at same split
  obtain rfl := append_cancel_left same
  rw [append_assoc] at split
  have next := append_cancel_left (append_cancel_left split)
  cases more with
  | nil => simp at early
  | cons d more =>
    cases next
    exact ⟨inside, more, rfl, rfl⟩

theorem Tiles.skip (skipped : isSkipped c)
    (h : Tiles (before ++ ([c] ++ rest)) (before ++ [c]).width tokens) :
    Tiles (before ++ ([c] ++ rest)) before.width tokens where
  placed := h.placed
  behind token member := Nat.le_trans (by simp) (h.behind token member)
  ordered := h.ordered
  covered left d right split late := by
    rcases inside_or_behind split late with ⟨inside, behind, rfl, same⟩ | later
    · rcases singleton_eq_append_iff.1 same with ⟨-, same⟩ | ⟨-, none⟩
      · exact .inl ((cons.inj same).1 ▸ skipped)
      · simp at none
    · exact h.covered left d right split later

theorem Tiles.cons {token : Token}
    (h : Tiles (before ++ (word ++ rest)) (before ++ word).width tokens)
    (placed : token.Placed (before ++ (word ++ rest)))
    (span : token.span = ⟨before.width, (before ++ word).width⟩) (isWord : kind.IsWord word) :
    Tiles (before ++ (word ++ rest)) before.width (token :: tokens) where
  placed := forall_mem_cons.2 ⟨placed, h.placed⟩
  behind := forall_mem_cons.2 ⟨by rw [span],
    fun later member => Nat.le_trans (by simp) (h.behind later member)⟩
  ordered := pairwise_cons.2 ⟨fun later member => span ▸ h.behind later member, h.ordered⟩
  covered left d right split late := by
    rcases inside_or_behind split late with ⟨inside, behind, rfl, rfl⟩ | later
    · refine .inr ⟨token, mem_cons_self, ?_⟩
      rw [span]
      simp only [width_append, width_cons]
      refine ⟨by omega, by omega, ?_⟩
      rintro rfl
      cases inside with
      | nil => simp
      | cons e inside => exact absurd (by simp) (bracket_not_mem_tail isWord)
    · exact (h.covered left d right split later).imp_right fun ⟨token, member, place⟩ =>
        ⟨token, mem_cons_of_mem _ member, place⟩

def Apart (before t : Text) : Prop :=
  ∀ d ∈ before.getLast?, ∀ c ∈ t.head?, isNameChar d → isNameChar c →
    ['<', '!', '-', '-'] <:+ before

theorem apart_of_isLongest (longest : kind.IsLongest word after) (before : Text) :
    Apart (before ++ word) after := by
  intro d last c next named goes
  obtain ⟨isWord, longest⟩ := longest
  rw [getLast?_append_of_ne_nil _ (ne_nil_of_isWord isWord)] at last
  cases kind with
  | commentOpen => exact ⟨before, by rw [← Option.some.inj isWord]⟩
  | endOfFile => cases isWord
  | name =>
    obtain ⟨rest, rfl⟩ := head?_eq_some_iff.1 next
    have longer := longest .name (word ++ [c]) ⟨by simp, by
      intro e member
      rcases mem_append.1 member with inside | behind
      · exact isWord.2 e inside
      · rwa [mem_singleton.1 behind]⟩ ⟨rest, by simp⟩
    grind
  | _ =>
    cases isWord
    cases last
    exact absurd named (by decide)

theorem exists_tiles {t : Text} (apart : Apart before t) : ∃ tokens,
    scanFrom before.width t = tokens ++ [⟨.endOfFile, .emptyAt (before ++ t).width⟩] ∧
      Tiles (before ++ t) before.width tokens := by
  induction before, t using reading_induction with
  | nil before =>
    refine ⟨[], by simp [scanFrom], by simp, by simp, .nil, fun left c right split late => ?_⟩
    have := congrArg width split
    have := c.utf8Size_pos
    simp at *
    omega
  | skip before c rest skipped ih =>
    have spaced : Apart (before ++ [c]) rest := by
      intro d last
      obtain rfl : c = d := by simpa using last
      simp [isNameChar, skipped]
    obtain ⟨tokens, read, tiles⟩ := ih spaced
    rw [append_assoc] at read tiles
    exact ⟨tokens, (scanFrom_skip skipped ..).trans read, tiles.skip skipped⟩
  | token before c t rest kind kept read ih =>
    have longest := isLongest_lead kept (t ++ rest)
    rw [read, take_left, drop_left] at longest
    have reads := reads_of_lead kept read
    obtain ⟨tokens, ahead, tiles⟩ := ih (apart_of_isLongest longest before)
    rw [append_assoc] at ahead tiles
    refine ⟨⟨kind, before.width, (before ++ c :: t).width⟩ :: tokens, ?_, ?_⟩
    · rw [reads.scanFrom, ahead]
      rfl
    · refine tiles.cons ⟨?_, before, _, rest, rfl, rfl, longest, ?_⟩ rfl longest.isWord
      · rw [width_append]
        exact Nat.lt_add_of_pos_right reads.width_pos
      · rintro rfl d last goes
        exact apart d last c rfl goes (longest.isWord.2 c mem_cons_self)

/-- The tokens of a source stand in it one after the other, each the longest word there, and only
blanks lie outside of them. There is no place at which a token could start and none would. -/
theorem scan_tiles (source : Text) :
    (∃ tokens, scan source = tokens ++ [⟨.endOfFile, .emptyAt source.width⟩] ∧
      Tiles source 0 tokens) ∧
    ∀ (before : Text) (c : Char) (after : Text), source = before ++ c :: after →
      isSkipped c = false → ∃ kind word, IsWord kind word ∧ word <+: c :: after := by
  have apart : Apart [] source := by simp [Apart]
  refine ⟨exists_tiles apart, fun before c after _ kept => ?_⟩
  exact ⟨_, _, (isLongest_lead kept after).isWord, ⟨after.drop (lead c after).2, by simp⟩⟩

end Token

end SfcJsx.Markup
