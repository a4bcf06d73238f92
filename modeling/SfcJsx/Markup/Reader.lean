import SfcJsx.Markup.Fault

/-!
A reader over the tokens of a source. Text, attribute values and block contents are taken from the
source itself, after which the reader skips to the first token at or after the place reached. Faults
are collected and never stop the reader.
-/

namespace SfcJsx.Markup

open List

structure Reader where
  source : Text
  /-- The tokens ahead, the current one first. -/
  tokens : List Token
  /-- Where the token passed last ended. -/
  tokenEnd : Nat
  /-- Where the text read last ended. -/
  textEnd : Nat
  faults : List Fault
  deriving Repr

namespace Reader

def ofSource (source : Text) : Reader := ⟨source, Token.scan source, 0, 0, []⟩

def current (r : Reader) : Token :=
  r.tokens.headD ⟨.endOfFile, .emptyAt r.source.width⟩

def kind (r : Reader) : TokenKind := r.current.kind

def offset (r : Reader) : Nat := r.current.span.start

def currentText (r : Reader) : Text := r.current.span.slice r.source

def ahead (r : Reader) (offset : Nat) : Text := r.source.dropBytes offset

def consumed (r : Reader) : Nat := max r.tokenEnd r.textEnd

def advance (r : Reader) : Reader :=
  match r.tokens with
  | [] => r
  | token :: rest => { r with tokens := rest, tokenEnd := token.span.stop }

@[simp] theorem tokens_advance (r : Reader) : r.advance.tokens = r.tokens.tail := by
  unfold advance
  split <;> simp_all

/-- Passes tokens as long as they are of a sort; `tokenEnd` is where the last one passed ended. -/
def passWhile (sort : Token → Bool) (tokenEnd : Nat) : List Token → List Token × Nat
  | [] => ([], tokenEnd)
  | token :: rest =>
    if sort token then passWhile sort token.span.stop rest else (token :: rest, tokenEnd)

def skipWhile (sort : Token → Bool) (r : Reader) : Reader :=
  let (tokens, tokenEnd) := passWhile sort r.tokenEnd r.tokens
  { r with tokens, tokenEnd }

def seek (r : Reader) (offset : Nat) : Reader := r.skipWhile fun token => token.span.start < offset

def skipNewlines (r : Reader) : Reader := r.skipWhile (·.kind = .newline)

def reportAt (r : Reader) (kind : FaultKind) (span : Span) : Reader :=
  { r with faults := r.faults ++ [⟨kind, span⟩] }

@[simp] theorem tokens_reportAt (r : Reader) (kind : FaultKind) (span : Span) :
    (r.reportAt kind span).tokens = r.tokens := rfl

def report (r : Reader) (kind : FaultKind) : Reader := r.reportAt kind r.current.span

@[simp] theorem tokens_report (r : Reader) (kind : FaultKind) :
    (r.report kind).tokens = r.tokens := rfl

def expect (r : Reader) (kind : TokenKind) : Reader :=
  if r.kind = kind then r.advance
  else if r.kind = .endOfFile then r.report (.unexpectedEnd (.token kind))
  else r.report (.unexpectedToken (.token kind) r.kind)

def nextName (r : Reader) : Text :=
  match r.tokens with
  | _ :: next :: _ => if next.kind = .name then next.span.slice r.source else []
  | _ => []

theorem tokens_ne_nil_of_kind {r : Reader} (h : r.kind ≠ .endOfFile) : r.tokens ≠ [] := by
  intro empty
  simp [kind, current, empty] at h

theorem length_advance_lt {r : Reader} (h : r.kind ≠ .endOfFile) :
    r.advance.tokens.length < r.tokens.length := by
  have := length_pos_iff.2 (tokens_ne_nil_of_kind h)
  simp
  omega

def lastEnd (tokenEnd : Nat) (tokens : List Token) : Nat :=
  tokens.foldl (fun _ token => token.span.stop) tokenEnd

/-- A reader goes on to another by passing tokens and adding faults, and may read texts. -/
structure GoesOn (r next : Reader) : Prop where
  source : next.source = r.source
  tokens : ∃ passed, r.tokens = passed ++ next.tokens ∧ next.tokenEnd = lastEnd r.tokenEnd passed
  faults : r.faults <+: next.faults

namespace GoesOn

variable {r next last : Reader}

theorem refl (r : Reader) : r.GoesOn r := ⟨rfl, ⟨[], rfl, rfl⟩, prefix_refl _⟩

theorem trans (h : r.GoesOn next) (later : next.GoesOn last) : r.GoesOn last := by
  obtain ⟨passed, ahead, ends⟩ := h.tokens
  obtain ⟨more, aheadLater, endsLater⟩ := later.tokens
  refine ⟨later.source.trans h.source, ⟨passed ++ more, ?_, ?_⟩, h.faults.trans later.faults⟩
  · rw [ahead, aheadLater, append_assoc]
  · rw [endsLater, ends, lastEnd, lastEnd, lastEnd, foldl_append]

theorem clean (h : r.GoesOn next) (none : next.faults = []) : r.faults = [] :=
  prefix_nil.1 (none ▸ h.faults)

theorem length_le (h : r.GoesOn next) : next.tokens.length ≤ r.tokens.length := by
  obtain ⟨passed, ahead, -⟩ := h.tokens
  rw [ahead, length_append]
  exact Nat.le_add_left _ _

theorem length_lt (h : r.advance.GoesOn next) (more : r.kind ≠ .endOfFile) :
    next.tokens.length < r.tokens.length := Nat.lt_of_le_of_lt h.length_le (length_advance_lt more)

end GoesOn

/-- A reader that goes on to another and reads no text on the way. -/
structure Passes (r next : Reader) : Prop where
  source : next.source = r.source
  tokens : ∃ passed, r.tokens = passed ++ next.tokens ∧ next.tokenEnd = lastEnd r.tokenEnd passed
  textEnd : next.textEnd = r.textEnd
  faults : r.faults <+: next.faults

namespace Passes

variable {r next last : Reader}

theorem refl (r : Reader) : r.Passes r := ⟨rfl, ⟨[], rfl, rfl⟩, rfl, prefix_refl _⟩

theorem goesOn (h : r.Passes next) : r.GoesOn next := ⟨h.source, h.tokens, h.faults⟩

theorem trans (h : r.Passes next) (later : next.Passes last) : r.Passes last := by
  have goesOn := h.goesOn.trans later.goesOn
  exact ⟨goesOn.source, goesOn.tokens, later.textEnd.trans h.textEnd, goesOn.faults⟩

theorem clean (h : r.Passes next) (none : next.faults = []) : r.faults = [] := h.goesOn.clean none

theorem tokens_ne_nil (h : r.Passes next) (more : next.tokens ≠ []) : r.tokens ≠ [] := by
  obtain ⟨passed, whole, -⟩ := h.tokens
  rw [whole]
  exact append_ne_nil_of_right_ne_nil _ more

end Passes

variable (r : Reader)

theorem passes_advance : r.Passes r.advance := by
  unfold advance
  split
  · exact .refl r
  · next token rest tokens => exact ⟨rfl, ⟨[token], tokens, rfl⟩, rfl, prefix_refl _⟩

theorem Passes.of_advance {r next : Reader} (h : r.advance.Passes next) : r.Passes next :=
  (passes_advance r).trans h

theorem GoesOn.of_advance {r next : Reader} (h : r.advance.GoesOn next) : r.GoesOn next :=
  (passes_advance r).goesOn.trans h

theorem passWhile_eq (sort : Token → Bool) (tokenEnd : Nat) (tokens : List Token) :
    ∃ passed, tokens = passed ++ (passWhile sort tokenEnd tokens).1 ∧
      (passWhile sort tokenEnd tokens).2 = lastEnd tokenEnd passed := by
  induction tokens generalizing tokenEnd with
  | nil => exact ⟨[], rfl, rfl⟩
  | cons token tokens ih =>
    rw [passWhile]
    split
    · obtain ⟨passed, split, ends⟩ := ih token.span.stop
      exact ⟨token :: passed, congrArg (token :: ·) split, ends⟩
    · exact ⟨[], rfl, rfl⟩

theorem passes_skipWhile (sort : Token → Bool) : r.Passes (r.skipWhile sort) :=
  ⟨rfl, passWhile_eq sort r.tokenEnd r.tokens, rfl, prefix_refl _⟩

theorem passes_seek (offset : Nat) : r.Passes (r.seek offset) := passes_skipWhile r _

theorem passes_skipNewlines : r.Passes r.skipNewlines := passes_skipWhile r _

theorem passes_reportAt (kind : FaultKind) (span : Span) : r.Passes (r.reportAt kind span) :=
  ⟨rfl, ⟨[], rfl, rfl⟩, rfl, prefix_append _ _⟩

theorem passes_report (kind : FaultKind) : r.Passes (r.report kind) := passes_reportAt r _ _

theorem advance_report (kind : FaultKind) :
    (r.report kind).advance = r.advance.reportAt kind r.current.span := by
  unfold advance
  split <;> simp_all [report, reportAt]

theorem passes_advance_report (kind : FaultKind) : r.advance.Passes (r.report kind).advance := by
  rw [advance_report]
  exact passes_reportAt _ _ _

theorem passes_expect (kind : TokenKind) : r.Passes (r.expect kind) := by
  unfold expect
  split
  · exact passes_advance r
  · split <;> exact passes_report r _

end Reader

end SfcJsx.Markup
