import SfcJsx.Markup.Parser
import SfcJsx.Proofs.ReaderPlace

/-!
What reading can do to a reader. Tags, comments, interpolations and raw blocks only pass tokens and
add faults, whatever the source holds. So a reader that is at a token has the text from that token
on ahead of it, and a reader without faults never had one.
-/

namespace SfcJsx.Markup

open List Text

namespace Token

/-- The text of a token, when its kind has only one. -/
def spelling? : TokenKind → Option Text
  | .commentOpen => some ['<', '!', '-', '-']
  | .closingOpen => some ['<', '/']
  | .tagOpen => some ['<']
  | .selfClose => some ['/', '>']
  | .tagClose => some ['>']
  | .equals => some ['=']
  | .doubleQuote => some ['"']
  | .singleQuote => some ['\'']
  | .interpolationOpen => some ['{', '{']
  | .interpolationClose => some ['}', '}']
  | .braceOpen => some ['{']
  | .braceClose => some ['}']
  | .slash => some ['/']
  | .newline => some ['\n']
  | .name | .endOfFile => none

theorem eq_of_spelling? (c : Char) (rest : Text) {s : Text}
    (spelled : spelling? (lead c rest).1 = some s) : c :: rest.take (lead c rest).2 = s := by
  revert spelled
  unfold lead
  split
  all_goals simp_all [spelling?]

theorem exists_reads (t : Text) :
    (∀ c ∈ t, isSkipped c) ∨ ∃ gap word rest kind, t = gap ++ (word ++ rest) ∧
      (∀ c ∈ gap, isSkipped c) ∧ Reads kind word rest ∧
        ∀ s, spelling? kind = some s → word = s := by
  induction t with
  | nil => exact .inl (by simp)
  | cons c t ih =>
    by_cases skipped : isSkipped c
    · rcases ih with blank | ⟨gap, word, rest, kind, rfl, blank, reads⟩
      · exact .inl (by simpa [skipped] using blank)
      · exact .inr ⟨c :: gap, word, rest, kind, rfl, by simpa [skipped] using blank, reads⟩
    · have kept : isSkipped c = false := by simpa using skipped
      refine .inr ⟨[], _, _, _, ?_, by simp, reads_lead kept t, fun s => eq_of_spelling? c t⟩
      simp

end Token

namespace Reader

open Token (scanFrom isSkipped Reads spelling? reading_induction scanFrom_skip reads_of_lead)

variable {r next : Reader} {before rest t : Text} {kind : TokenKind}

theorem expect_of_clean (clean : (r.expect kind).faults = []) :
    r.kind = kind ∧ r.expect kind = r.advance := by
  by_cases found : r.kind = kind
  · exact ⟨found, by rw [expect, if_pos found]⟩
  · rw [expect, if_neg found] at clean
    split at clean <;> simp [report, reportAt] at clean

theorem exists_scanFrom_eq {token : Token} {passed tokens : List Token}
    (split : scanFrom before.width t = token :: (passed ++ tokens)) (ne : tokens ≠ []) :
    ∃ read rest, t = read ++ rest ∧ tokens = scanFrom (before ++ read).width rest ∧
      lastEnd token.span.stop passed = (before ++ read).width := by
  induction before, t using reading_induction generalizing token passed with
  | nil before =>
    rw [scanFrom] at split
    have none : passed ++ tokens = [] := (cons.inj split).2.symm
    exact absurd (append_eq_nil_iff.1 none).2 ne
  | skip before c rest skipped ih =>
    rw [scanFrom_skip skipped] at split
    obtain ⟨read, rest, rfl, ahead⟩ := ih split
    exact ⟨c :: read, rest, rfl, by rwa [append_cons]⟩
  | token before c t rest kind kept read ih =>
    rw [(reads_of_lead kept read).scanFrom] at split
    obtain ⟨rfl, later⟩ := cons.inj split
    cases passed with
    | nil => exact ⟨c :: t, rest, rfl, later.symm, rfl⟩
    | cons next passed =>
      obtain ⟨more, rest, rfl, ahead⟩ := ih later
      exact ⟨c :: t ++ more, rest, (append_assoc ..).symm, by rwa [← append_assoc]⟩

/-- A reader right behind the token that it passed last. -/
structure Behind (r : Reader) (before rest : Text) : Prop where
  place : r.At before rest
  tokenEnd : r.tokenEnd = before.width

theorem Behind.reached (h : r.Behind before rest) : r.Reached before := by
  rw [Reached, consumed, h.tokenEnd]
  exact Nat.max_eq_left h.place.textEnd

theorem At.behind_advance {k : TokenKind} (h : r.At before (t ++ rest))
    (reads : Reads k t rest) : r.advance.Behind (before ++ t) rest :=
  ⟨h.advance reads, h.tokenEnd_advance reads⟩

theorem Passes.exists_at (h : r.Passes next) (stands : r.At before rest)
    (clean : next.faults = []) (more : next.tokens ≠ []) :
    ∃ read after, rest = read ++ after ∧ next.At (before ++ read) after ∧
      (read = [] ∧ next.tokenEnd = r.tokenEnd ∨ next.tokenEnd = (before ++ read).width) := by
  obtain ⟨passed, ahead, ends⟩ := h.tokens
  have tokens := stands.tokens.symm.trans ahead
  have textEnd := stands.textEnd
  cases passed with
  | nil =>
    refine ⟨[], rest, rfl, ?_, .inl ⟨rfl, ends⟩⟩
    rw [append_nil]
    exact ⟨h.source.trans stands.source, tokens.symm, ends ▸ stands.tokenEnd,
      h.textEnd ▸ textEnd, clean⟩
  | cons token passed =>
    obtain ⟨read, after, rfl, left, last⟩ := exists_scanFrom_eq tokens more
    have tokenEnd : next.tokenEnd = (before ++ read).width := ends.trans last
    refine ⟨read, after, rfl, ⟨?_, left, Nat.le_of_eq tokenEnd, ?_, clean⟩, .inr tokenEnd⟩
    · rw [h.source, stands.source, append_assoc]
    · rw [h.textEnd, width_append]
      exact Nat.le_add_right_of_le textEnd

theorem Passes.exists_behind (h : r.Passes next) (stands : r.Behind before rest)
    (clean : next.faults = []) (more : next.tokens ≠ []) :
    ∃ read after, rest = read ++ after ∧ next.Behind (before ++ read) after := by
  obtain ⟨read, after, whole, place, ⟨rfl, stays⟩ | tokenEnd⟩ := h.exists_at stands.place clean more
  · exact ⟨[], after, whole, place, by rw [stays, stands.tokenEnd, append_nil]⟩
  · exact ⟨read, after, whole, place, tokenEnd⟩

/-- The reader at the same place of its source, without the texts and faults on the way there. -/
def fresh (r : Reader) : Reader := { r with textEnd := 0, faults := [] }

@[simp] theorem fresh_advance (r : Reader) : r.advance.fresh = r.fresh.advance := by
  unfold advance fresh
  split <;> simp_all

theorem GoesOn.exists_behind {source : Text} (h : (ofSource source).GoesOn r)
    (more : r.tokens ≠ []) : ∃ before rest, r.fresh.Behind before rest := by
  obtain ⟨passed, ahead, ends⟩ := h.tokens
  have tokens : scanFrom (width []) source = passed ++ r.tokens := ahead
  cases passed with
  | nil => exact ⟨[], source, ⟨h.source, tokens.symm, Nat.le_of_eq ends, Nat.le_refl _, rfl⟩, ends⟩
  | cons token passed =>
    obtain ⟨read, rest, whole, left, last⟩ := exists_scanFrom_eq tokens more
    have tokenEnd : r.tokenEnd = read.width := ends.trans last
    exact ⟨read, rest, ⟨h.source.trans whole, left, Nat.le_of_eq tokenEnd, Nat.zero_le _, rfl⟩,
      tokenEnd⟩

theorem At.token (h : r.At before rest) (more : r.kind ≠ .endOfFile) :
    ∃ gap word after, rest = gap ++ (word ++ after) ∧ (∀ c ∈ gap, isSkipped c) ∧
      Reads r.kind word after ∧ r.At (before ++ gap) (word ++ after) ∧
        ∀ s, spelling? r.kind = some s → word = s := by
  rcases Token.exists_reads rest with blank | ⟨gap, word, after, kind, rfl, blank, reads, spelled⟩
  · have stands : r.At (before ++ rest) [] := At.skip (by simpa using h) blank
    exact absurd stands.kind_nil more
  · have stands := h.skip blank
    obtain rfl := stands.kind reads
    exact ⟨gap, word, after, rfl, blank, reads, stands, spelled⟩

theorem At.spelled {s : Text} (h : r.At before rest) (found : r.kind = kind)
    (spelling : spelling? kind = some s) :
    ∃ gap after, rest = gap ++ (s ++ after) ∧ (∀ c ∈ gap, isSkipped c) ∧
      Reads kind s after ∧ r.At (before ++ gap) (s ++ after) := by
  subst found
  have more : r.kind ≠ .endOfFile := by
    intro atEnd
    simp [atEnd, spelling?] at spelling
  obtain ⟨gap, word, after, rfl, blank, reads, stands, spelled⟩ := h.token more
  obtain rfl := spelled s spelling
  exact ⟨gap, after, rfl, blank, reads, stands⟩

def isSpacing (c : Char) : Bool := isSkipped c || c == '\n'

theorem exists_passWhile_newline {tokenEnd : Nat} (t : Text) (start : tokenEnd ≤ before.width) :
    ∃ spacing rest tokenEnd', t = spacing ++ rest ∧ spacing.all isSpacing ∧
      tokenEnd' ≤ (before ++ spacing).width ∧
        passWhile (fun token => decide (token.kind = .newline)) tokenEnd (scanFrom before.width t) =
          (scanFrom (before ++ spacing).width rest, tokenEnd') := by
  induction before, t using reading_induction generalizing tokenEnd with
  | nil before =>
    refine ⟨[], [], tokenEnd, rfl, rfl, ?_, ?_⟩ <;> rw [append_nil]
    · exact start
    · simp [scanFrom, passWhile]
  | skip before c rest skipped ih =>
    obtain ⟨spacing, rest, tokenEnd', rfl, all, passed⟩ := ih (Nat.le_trans start (by simp))
    refine ⟨c :: spacing, rest, tokenEnd', rfl, by simpa [isSpacing, skipped] using all, ?_⟩
    rwa [scanFrom_skip skipped, append_cons]
  | token before c t rest kind kept read ih =>
    have reads := reads_of_lead kept read
    rw [reads.scanFrom, passWhile]
    by_cases newline : kind = .newline
    · obtain ⟨spacing, rest, tokenEnd', rfl, all, passed⟩ := ih (Nat.le_refl _)
      obtain ⟨rfl, rfl⟩ : c = '\n' ∧ t = [] := by
        have word := Token.eq_of_spelling? c (t ++ (spacing ++ rest)) (by rw [read, newline]; rfl)
        simpa [read] using word
      refine ⟨'\n' :: spacing, rest, tokenEnd', rfl, by simpa [isSpacing] using all, ?_⟩
      rwa [if_pos (by simpa using newline), append_cons]
    · refine ⟨[], c :: t ++ rest, tokenEnd, rfl, rfl, ?_, ?_⟩ <;> rw [append_nil]
      · exact start
      · rw [if_neg (by simpa using newline), reads.scanFrom]

theorem At.exists_skipNewlines (h : r.At before rest) :
    ∃ spacing after, rest = spacing ++ after ∧ spacing.all isSpacing ∧
      r.skipNewlines.At (before ++ spacing) after := by
  have textEnd := h.textEnd
  obtain ⟨spacing, after, tokenEnd, rfl, all, bound, passed⟩ :=
    exists_passWhile_newline rest h.tokenEnd
  rw [← h.tokens] at passed
  refine ⟨spacing, after, rfl, all, ?_⟩
  simp only [Reader.skipNewlines, skipWhile, passed]
  refine ⟨by simp [h.source], rfl, bound, ?_, h.faults⟩
  rw [width_append]
  exact Nat.le_add_right_of_le textEnd

end Reader

end SfcJsx.Markup
