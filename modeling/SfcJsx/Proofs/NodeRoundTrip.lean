import SfcJsx.Proofs.EscapedText
import SfcJsx.Proofs.Identifiers
import SfcJsx.Proofs.NodePlaces
import SfcJsx.Proofs.TagRoundTrip

/-!
Printed text, interpolations and comments are read back. Blanks that no token covers are part of the
text around them: before markup they are a text node of their own.
-/

namespace SfcJsx.Markup

open List Text Written Token

variable {c : Char} {t body gap : Text}

def TokenKind.isPlain : TokenKind → Bool
  | .tagOpen | .closingOpen | .commentOpen | .interpolationOpen | .endOfFile => false
  | _ => true

theorem Token.isPlain_lead (bracket : c ≠ '<') (brace : c ≠ '{') (rest : Text) :
    (lead c rest).1.isPlain := by
  unfold lead
  split
  all_goals first | rfl | contradiction

namespace Reader

variable {r : Reader} {before rest : Text}

/-- The starts of markup that the template reader does not take for text. -/
inductive StartsMarkup : Text → Prop
  | closing (rest : Text) : StartsMarkup ('<' :: '/' :: rest)
  | comment (rest : Text) : StartsMarkup ('<' :: '!' :: '-' :: '-' :: rest)
  | interpolation (rest : Text) : StartsMarkup ('{' :: '{' :: rest)
  | tag {c : Char} (letter : c.isAlpha) (rest : Text) : StartsMarkup ('<' :: c :: rest)

theorem opensTag_of_letter (letter : c.isAlpha)
    (h : r.At before (['<'] ++ c :: rest)) : r.opensTag := by
  have next : r.ahead (r.offset + 1) = c :: rest := h.ahead_behind (reads_tagOpen letter)
  simp [opensTag, next, letter]

theorem At.atMarkup (h : r.At before t) (starts : StartsMarkup t) :
    r.atMarkup false ∧ r.offset = before.width := by
  cases starts with
  | closing rest =>
    have opens : r.At before (['<', '/'] ++ rest) := h
    have reads := reads_closingOpen rest
    exact ⟨by simp [Reader.atMarkup, opens.kind reads], opens.offset reads⟩
  | comment rest =>
    have opens : r.At before (['<', '!', '-', '-'] ++ rest) := h
    have reads := reads_commentOpen rest
    exact ⟨by simp [Reader.atMarkup, opens.kind reads], opens.offset reads⟩
  | interpolation rest =>
    have opens : r.At before (['{', '{'] ++ rest) := h
    have reads := reads_interpolationOpen rest
    exact ⟨by simp [Reader.atMarkup, opens.kind reads], opens.offset reads⟩
  | @tag c letter rest =>
    have opens : r.At before (['<'] ++ c :: rest) := h
    have reads : Reads .tagOpen ['<'] (c :: rest) := reads_tagOpen letter
    exact ⟨by simp [Reader.atMarkup, opens.kind reads, opensTag_of_letter letter opens],
      opens.offset reads⟩

theorem gap?_eq (h : r.At before (gap ++ t)) (reached : r.Reached before)
    (skipped : ∀ c ∈ gap, isSkipped c) (starts : StartsMarkup t) :
    r.gap? = if gap = [] then none
      else some (.text ⟨before.width, before.width + gap.width⟩ gap) := by
  have offset := ((h.skip skipped).atMarkup starts).2
  rw [gap?, reached, offset, width_append, h.slice]
  cases gap with
  | nil => simp
  | cons c gap =>
    have := c.utf8Size_pos
    simp
    omega

theorem readInterpolation_print {e : Text} (trimmed : e.trim = e)
    (closed : e.containsText ['}', '}'] = false)
    (h : r.At before ((interpolation e).print ++ rest)) :
    ∃ node after, r.readInterpolation = (node, after) ∧ node.unplaced = .interpolation nowhere e ∧
      after.At (before ++ (interpolation e).print) rest ∧
      after.Reached (before ++ (interpolation e).print) := by
  have first : ¬ (['}'] ++ ['}'] : Text) <:+: (' ' :: e) ++ [' '] ++ ['}'] := by
    rw [infix_concat_iff, infix_concat_iff_of_ne (by decide), suffix_concat_iff, infix_cons_iff]
    rintro ((empty | ⟨lead, same, ending⟩) | (start | inside))
    · simp at empty
    · obtain rfl : ['}'] = lead := append_inj_left' same rfl
      obtain empty | ⟨lead, same, -⟩ := suffix_concat_iff.1 ending
      · simp at empty
      · have := append_inj_right' (nil_append _ |>.trans same) rfl
        simp at this
    · simp at start
    · exact containsText_eq_false_iff.1 closed inside
  have opens : r.At before (['{', '{'] ++ ((' ' :: e ++ [' ']) ++ ['}', '}'] ++ rest)) := by
    simpa [print] using h
  obtain ⟨-, span, node, -, taken⟩ := opens.readInterpolation_eq (cut?_append (by simp) first rest)
  refine ⟨_, _, Prod.ext node rfl, ?_, by simpa [print] using taken⟩
  rw [Node.unplaced, trim_concat rfl, trim_cons rfl, trimmed]

theorem readComment_print {data : Text} (closed : data.containsText ['-', '-', '>'] = false)
    (h : r.At before ((comment data).print ++ rest)) :
    ∃ node after, r.readComment = (some node, after) ∧ node.unplaced = .comment nowhere data ∧
      after.At (before ++ (comment data).print) rest ∧
      after.Reached (before ++ (comment data).print) := by
  have first : ¬ (['-', '-'] ++ ['>'] : Text) <:+: data ++ ['-'] ++ ['-'] := by
    rw [infix_concat_iff_of_ne (by decide), infix_concat_iff_of_ne (by decide)]
    exact containsText_eq_false_iff.1 closed
  have opens : r.At before (['<', '!', '-', '-'] ++ (data ++ ['-', '-', '>'] ++ rest)) := by
    simpa [print] using h
  obtain ⟨-, span, node, -, taken⟩ :=
    opens.readComment_eq (cut?_append (by simp) (by simpa using first) rest)
  exact ⟨_, _, Prod.ext node rfl, by rw [Node.unplaced], by simpa [print] using taken⟩

theorem plainText_append (plain : isPlainText body)
    (starts : StartsMarkup t) : plainText false (body ++ t) = body := by
  induction body with
  | nil =>
    cases starts with
    | tag letter rest => simp [plainText, opensMarkup, letter]
    | _ => simp [plainText, opensMarkup]
  | cons c body ih =>
    have chars := isPlainText_iff.1 plain
    have inner : isPlainText body := isPlainText_iff.2 (forall_mem_cons.1 chars).2
    simp [plainText, opensMarkup, chars c (by simp), ih inner]

theorem readText_print (skipped : ∀ d ∈ gap, isSkipped d)
    (kept : isSkipped c = false) (plain : isPlainText (gap ++ c :: body))
    (starts : StartsMarkup rest) (h : r.At before (gap ++ c :: body ++ rest))
    (reached : r.Reached before) :
    r.kind.isPlain ∧ ∃ node after, r.readText false = (node, after) ∧
      node.unplaced = .text nowhere (gap ++ c :: body) ∧
      after.At (before ++ (gap ++ c :: body)) rest ∧
      after.Reached (before ++ (gap ++ c :: body)) := by
  have chars := isPlainText_iff.1 plain
  obtain ⟨bracket, -, brace⟩ := chars c (by simp)
  have inner : plainText false (body ++ rest) = body :=
    plainText_append (isPlainText_iff.2 fun d member => chars d (by simp [member])) starts
  have reads := reads_lead kept (body ++ rest)
  have token : c :: (body ++ rest).take (lead c (body ++ rest)).2 ++
      (body ++ rest).drop (lead c (body ++ rest)).2 = c :: (body ++ rest) := by simp
  have place : r.At before (gap ++ (c :: (body ++ rest).take (lead c (body ++ rest)).2 ++
      (body ++ rest).drop (lead c (body ++ rest)).2)) := by
    simpa using h
  refine ⟨by rw [(place.skip skipped).kind reads]; exact isPlain_lead bracket brace _, ?_⟩
  obtain ⟨span, after, split, node, -, taken⟩ :=
    place.readText_eq skipped reads token reached fun _ _ => brace
  rw [inner] at split node taken
  obtain rfl := append_cancel_left split
  refine ⟨_, _, Prod.ext node rfl, ?_, taken⟩
  rw [Node.unplaced, Entity.decode_eq_self fun d member => (chars d member).2.1]

end Reader

end SfcJsx.Markup
