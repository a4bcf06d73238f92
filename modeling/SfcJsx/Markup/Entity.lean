import SfcJsx.Text.Basic

/-!
Character references in template text. Decoding is one pass from left to right, so what a reference
stands for is not read again; an unknown reference stays as written.
-/

namespace SfcJsx.Markup.Entity

def references : List (Text × Char) :=
  [("&lt;", '<'), ("&gt;", '>'), ("&quot;", '"'), ("&#39;", '\''), ("&apos;", '\''),
   ("&nbsp;", '\u00A0'), ("&amp;", '&')]

/-- The character that the reference at the start stands for, and the text after it. -/
def leading? (t : Text) : Option (Char × Text) :=
  references.findSome? fun (reference, c) => (Text.after? reference t).map (c, ·)

theorem length_of_findSome? {table : List (Text × Char)}
    (positive : table.all (!·.1.isEmpty) = true) {t tail : Text} {c : Char}
    (h : table.findSome? (fun entry => (Text.after? entry.1 t).map (entry.2, ·)) = some (c, tail)) :
    tail.length < t.length := by
  obtain ⟨⟨reference, d⟩, known, found⟩ := List.exists_of_findSome?_eq_some h
  obtain ⟨rest, (after : Text.after? reference t = _), same⟩ := Option.map_eq_some_iff.1 found
  obtain ⟨rfl, rfl⟩ := Prod.mk.inj same
  have ne : reference ≠ [] := by simpa using List.all_eq_true.1 positive _ known
  have := List.length_pos_iff.2 ne
  rw [Text.after?_eq_some_iff.1 after, List.length_append]
  omega

theorem length_of_leading? {t tail : Text} {c : Char} (h : leading? t = some (c, tail)) :
    tail.length < t.length :=
  length_of_findSome? (by decide) h

def decode : Text → Text
  | [] => []
  | c :: rest =>
    match _found : leading? (c :: rest) with
    | some (d, tail) => d :: decode tail
    | none => c :: decode rest
termination_by t => t.length
decreasing_by
  · exact length_of_leading? _found
  · simp

end SfcJsx.Markup.Entity
