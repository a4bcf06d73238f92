import SfcJsx.Markup.Entity

/-!
Escaping and decoding. Escaping writes six characters as named references and leaves all others.
Main statement: decoding gives back what was escaped, whatever text follows, since it goes on behind
a reference that it has read and never reads what the reference stands for.
-/

namespace SfcJsx.Markup.Entity

open List Text

variable {c : Char} {t tail : Text}

def namedReferences : List (Char × Text) :=
  [('&', "&amp;"), ('<', "&lt;"), ('>', "&gt;"), ('"', "&quot;"), ('\'', "&apos;"),
   ('\u00A0', "&nbsp;")]

def escapeChar (c : Char) : Text := (namedReferences.lookup c).getD [c]

/-- The text with a reference for each character that has one. -/
def escape (t : Text) : Text := t.flatMap escapeChar

theorem leading?_eq_none (plain : c ≠ '&') (rest : Text) : leading? (c :: rest) = none := by
  simp [leading?, references, after?, Ne.symm plain]

theorem leading?_append {entry : Text × Char} (known : entry ∈ references) (t : Text) :
    leading? (entry.1 ++ t) = some (entry.2, t) := by
  simp only [references, mem_cons, not_mem_nil, or_false] at known
  rcases known with rfl | rfl | rfl | rfl | rfl | rfl | rfl <;> rfl

theorem decode_of_leading? (found : leading? t = some (c, tail)) : decode t = c :: decode tail := by
  cases t with
  | nil => cases found
  | cons d rest =>
    rw [decode]
    split
    · next other =>
      rw [found] at other
      cases other
      rfl
    · next none =>
      rw [found] at none
      cases none

theorem decode_cons (plain : c ≠ '&') (rest : Text) : decode (c :: rest) = c :: decode rest := by
  rw [decode]
  split
  · next found =>
    rw [leading?_eq_none plain] at found
    cases found
  · rfl

theorem decode_eq_self (plain : ∀ c ∈ t, c ≠ '&') : decode t = t := by
  induction t with
  | nil => rw [decode]
  | cons c t ih =>
    obtain ⟨here, later⟩ := forall_mem_cons.1 plain
    rw [decode_cons here, ih later]

theorem escapeChar_cases (c : Char) :
    (escapeChar c, c) ∈ references ∨ c ≠ '&' ∧ escapeChar c = [c] := by
  by_cases escaped : c ∈ namedReferences.map Prod.fst
  · simp only [namedReferences, map_cons, map_nil, mem_cons, not_mem_nil, or_false] at escaped
    rcases escaped with rfl | rfl | rfl | rfl | rfl | rfl <;> exact .inl (by decide)
  · refine .inr ⟨?_, ?_⟩
    · rintro rfl
      exact escaped (by decide)
    · have absent : namedReferences.lookup c = none := by
        rw [lookup_eq_none_iff]
        intro entry known
        rw [bne_iff_ne]
        rintro rfl
        exact escaped (mem_map_of_mem known)
      rw [escapeChar, absent]
      rfl

theorem decode_escapeChar (c : Char) (t : Text) :
    decode (escapeChar c ++ t) = c :: decode t := by
  rcases escapeChar_cases c with known | ⟨plain, same⟩
  · exact decode_of_leading? (leading?_append known t)
  · rw [same]
    exact decode_cons plain t

theorem decode_escape_append (s t : Text) : decode (escape s ++ t) = s ++ decode t := by
  induction s with
  | nil => rfl
  | cons c s ih =>
    rw [escape, flatMap_cons, append_assoc, decode_escapeChar, ← escape, ih]
    rfl

/-- Decoding inverts escaping and goes over a text once: behind what was escaped, and behind each
reference, it reads the text that follows as it reads that text alone. -/
theorem decode_inverts_escape (s t : Text) :
    decode (escape s) = s ∧ decode (escape s ++ t) = s ++ decode t ∧
      ∀ entry ∈ references, decode (entry.1 ++ t) = entry.2 :: decode t := by
  have alone := decode_escape_append s []
  rw [append_nil, decode, append_nil] at alone
  exact ⟨alone, decode_escape_append s t, fun _ known =>
    decode_of_leading? (leading?_append known t)⟩

/-- A reference in the text that is escaped comes back as it was written. -/
theorem decode_inverts_escape_reference :
    (("&amp;" : Text), '&') ∈ references ∧ escape "&lt;" = "&amp;lt;".toList ∧
      decode "&amp;lt;" = "&lt;".toList ∧ decode "&amp;lt;" = '&' :: decode "lt;" :=
  ⟨by decide, by decide, (decode_inverts_escape "&lt;" []).1,
    (decode_inverts_escape [] "lt;").2.2 ("&amp;", '&') (by decide)⟩

end SfcJsx.Markup.Entity
