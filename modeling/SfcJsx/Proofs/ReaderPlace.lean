import SfcJsx.Markup.Reader
import SfcJsx.Proofs.TokenCut

/-!
Where a reader stands in its source. The tokens ahead are always those of the text ahead, so passing
a token, skipping blanks and seeking an offset are described by the text that they pass.
-/

theorem SfcJsx.Text.dropBytes_width_append (s t : Text) : (s ++ t).dropBytes s.width = t := by
  simp [dropBytes, from?_width_append]

namespace SfcJsx.Markup.Reader

open Text

open Token (scanFrom isSkipped Cut Parted Reads)

/-- A reader that has passed `before`, has `rest` ahead and has met no fault. -/
structure At (r : Reader) (before rest : Text) : Prop where
  source : r.source = before ++ rest
  tokens : r.tokens = scanFrom before.width rest
  tokenEnd : r.tokenEnd ≤ before.width
  textEnd : r.textEnd ≤ before.width
  faults : r.faults = []

def Reached (r : Reader) (before : Text) : Prop := r.consumed = before.width

variable {r : Reader} {before rest s : Text} {tokens passed : List Token} {sort : Token → Bool}

theorem at_ofSource (source : Text) : (ofSource source).At [] source :=
  ⟨rfl, rfl, Nat.le_refl _, Nat.le_refl _, rfl⟩

theorem ahead_of_source (h : r.source = before ++ rest) : r.ahead before.width = rest := by
  rw [ahead, h, dropBytes_width_append]

theorem At.slice {t : Text} (h : r.At before (t ++ rest)) :
    r.source.slice before.width (before.width + t.width) = t := by
  rw [Text.slice, h.source, ← List.append_assoc, Text.slice?_append]
  rfl

theorem At.skip {gap : Text} (h : r.At before (gap ++ rest))
    (skipped : ∀ c ∈ gap, isSkipped c) : r.At (before ++ gap) rest where
  source := by rw [h.source, List.append_assoc]
  tokens := by rw [h.tokens, Token.scanFrom_skipped skipped, width_append]
  tokenEnd := by have := h.tokenEnd; rw [width_append]; omega
  textEnd := by have := h.textEnd; rw [width_append]; omega
  faults := h.faults

section Current

variable {k : TokenKind} {t : Text}

section

variable (h : r.At before (t ++ rest))

include h

theorem At.current (reads : Reads k t rest) :
    r.current = ⟨k, ⟨before.width, before.width + t.width⟩⟩ := by
  rw [Reader.current, h.tokens, reads]
  rfl

theorem At.kind (reads : Reads k t rest) : r.kind = k := by
  rw [Reader.kind, h.current reads]

theorem At.offset (reads : Reads k t rest) : r.offset = before.width := by
  rw [Reader.offset, h.current reads]

theorem At.currentText (reads : Reads k t rest) : r.currentText = t := by
  rw [Reader.currentText, h.current reads]
  exact h.slice

theorem At.ahead_behind (reads : Reads k t rest) : r.ahead (r.offset + t.width) = rest := by
  rw [h.offset reads, ← width_append]
  exact ahead_of_source (by simp [h.source])

theorem At.tokenEnd_advance (reads : Reads k t rest) :
    r.advance.tokenEnd = (before ++ t).width := by
  rw [Reader.advance, h.tokens, reads, width_append]

theorem At.advance (reads : Reads k t rest) : r.advance.At (before ++ t) rest := by
  have tokens := h.tokens
  have textEnd := h.textEnd
  rw [reads] at tokens
  unfold Reader.advance
  rw [tokens]
  exact ⟨by simp [h.source], by simp, by simp, by simp; omega, h.faults⟩

theorem At.reached_advance (reads : Reads k t rest) : r.advance.Reached (before ++ t) := by
  have passed := h.tokenEnd_advance reads
  have bound := (h.advance reads).textEnd
  rw [Reached, consumed]
  omega

theorem At.expect (reads : Reads k t rest) : r.expect k = r.advance := by
  rw [Reader.expect, if_pos (h.kind reads)]

theorem At.skipNewlines (reads : Reads k t rest) (visible : k ≠ .newline) : r.skipNewlines = r := by
  have tokens := h.tokens
  rw [reads] at tokens
  have stays : passWhile (fun token => decide (token.kind = .newline)) r.tokenEnd r.tokens =
      (r.tokens, r.tokenEnd) := by
    rw [tokens]
    simp [passWhile, visible]
  simp only [Reader.skipNewlines, skipWhile, stays]

end

theorem At.nextName {name : Text} (h : r.At before (t ++ (name ++ rest)))
    (opens : Reads k t (name ++ rest)) (reads : Reads .name name rest) : r.nextName = name := by
  have tokens := h.tokens
  rw [opens, reads, ← width_append] at tokens
  have inside := h.advance opens
  have source : r.advance.source = r.source := by simp [inside.source, h.source]
  simp only [Reader.nextName, tokens, if_true, Span.slice, ← source]
  exact inside.slice

end Current

theorem At.kind_nil (h : r.At before []) : r.kind = .endOfFile := by
  rw [Reader.kind, Reader.current, h.tokens, scanFrom]
  rfl

theorem lastEnd_le {tokenEnd limit : Nat} (start : tokenEnd ≤ limit)
    (all : ∀ token ∈ tokens, token.span.stop ≤ limit) : lastEnd tokenEnd tokens ≤ limit := by
  induction tokens generalizing tokenEnd with
  | nil => exact start
  | cons token tokens ih =>
    exact ih (all token (by simp)) (List.forall_mem_cons.1 all).2

theorem passWhile_append (all : ∀ token ∈ passed, sort token) (tokenEnd : Nat)
    (tokens : List Token) :
    passWhile sort tokenEnd (passed ++ tokens) =
      passWhile sort (lastEnd tokenEnd passed) tokens := by
  induction passed generalizing tokenEnd with
  | nil => rfl
  | cons token passed ih =>
    rw [List.cons_append, passWhile, if_pos (all token (by simp)),
      ih (List.forall_mem_cons.1 all).2]
    rfl

theorem passWhile_eq_self (stops : ∀ token ∈ tokens.head?, sort token = false) (tokenEnd : Nat) :
    passWhile sort tokenEnd tokens = (tokens, tokenEnd) := by
  cases tokens with
  | nil => rfl
  | cons token tokens => simp [passWhile, stops token (by simp)]

theorem seek_eq {offset stop : Nat} (le : offset ≤ stop)
    (tokens : r.tokens = passed ++ scanFrom stop rest)
    (early : ∀ token ∈ passed, token.span.start < offset) :
    r.seek offset = { r with
      tokens := scanFrom stop rest, tokenEnd := lastEnd r.tokenEnd passed } := by
  have stops : ∀ token ∈ (scanFrom stop rest).head?,
      decide (token.span.start < offset) = false := by
    intro token first
    have := Token.le_start_of_mem_scanFrom (List.mem_of_mem_head? first)
    simp
    omega
  have all : ∀ token ∈ passed, decide (token.span.start < offset) := by
    simpa using early
  rw [seek, skipWhile, tokens, passWhile_append all, passWhile_eq_self stops]

theorem At.seek (h : r.At before (s ++ rest)) (cut : Cut s rest) :
    (r.seek (before ++ s).width).At (before ++ s) rest := by
  obtain ⟨passed, split, early⟩ := cut before.width
  have ends : lastEnd r.tokenEnd passed ≤ before.width + s.width :=
    lastEnd_le (Nat.le_add_right_of_le h.tokenEnd) fun token member => (early token member).2
  have textEnd := h.textEnd
  rw [← width_append] at split early ends
  rw [seek_eq (Nat.le_refl _) (h.tokens.trans split) fun token member => (early token member).1]
  exact ⟨by simp [h.source], rfl, ends, by simp; omega, h.faults⟩

theorem At.reached_seek {t : Text} {k : TokenKind} (h : r.At before (s ++ (t ++ rest)))
    (cut : Cut s (t ++ rest)) (reads : Reads k t rest) {offset : Nat}
    (after : (before ++ s).width < offset) (le : offset ≤ (before ++ s ++ t).width) :
    (r.seek offset).At (before ++ s ++ t) rest ∧ (r.seek offset).Reached (before ++ s ++ t) := by
  obtain ⟨passed, split, early⟩ := cut before.width
  have textEnd := h.textEnd
  have tokens : r.tokens =
      (passed ++ [⟨k, ⟨(before ++ s).width, (before ++ s ++ t).width⟩⟩]) ++
        scanFrom (before ++ s ++ t).width rest := by
    rw [h.tokens, split, reads]
    simp [Nat.add_assoc]
  have before_end : ∀ token ∈ passed ++
      [(⟨k, ⟨(before ++ s).width, (before ++ s ++ t).width⟩⟩ : Token)],
      token.span.start < offset := by
    intro token member
    rcases List.mem_append.1 member with member | member
    · have := (early token member).1
      rw [width_append] at after
      omega
    · obtain rfl := List.mem_singleton.1 member
      exact after
  rw [seek_eq le tokens before_end]
  refine ⟨⟨by simp [h.source], rfl, by simp [lastEnd], by simp; omega, h.faults⟩, ?_⟩
  simp [Reached, consumed, lastEnd]
  omega

theorem At.advance_seek {t : Text} {k : TokenKind} {offset : Nat} (h : r.At before (t ++ rest))
    (reads : Reads k t rest) (later : before.width < offset) :
    r.advance.seek offset = r.seek offset := by
  have tokens := h.tokens
  rw [reads] at tokens
  simp [Reader.advance, Reader.seek, skipWhile, tokens, passWhile, later]

theorem At.seek_enclosed {opening inside t : Text} {k last : TokenKind}
    (h : r.At before (opening ++ (inside ++ (t ++ rest))))
    (reads : Reads k opening (inside ++ (t ++ rest))) (ends : Reads last t rest)
    (parted : Parted (opening ++ inside) (t ++ rest)) :
    let after := r.advance.seek (before ++ (opening ++ inside ++ t)).width
    after.At (before ++ (opening ++ inside ++ t)) rest ∧
      after.Reached (before ++ (opening ++ inside ++ t)) := by
  have positive := reads.width_pos
  have whole : r.At before ((opening ++ inside) ++ (t ++ rest)) := by simpa using h
  rw [h.advance_seek reads (by simp; omega)]
  simpa using whole.reached_seek parted.cut ends (by simp; have := ends.width_pos; omega)
    (Nat.le_refl _)

end SfcJsx.Markup.Reader
