import SfcJsx.Code.Word
import SfcJsx.Proofs.PieceCut

/-!
What goes with a statement that is taken out: blanks, a semicolon, blanks, a line break.
-/

namespace SfcJsx.Code

open List Text

def IsOptional (c : Char) (t : Text) : Prop := t = [] ∨ t = [c]

def IsStatementTail (t : Text) : Prop :=
  ∃ blanks semicolon trailing newline : Text,
    t = blanks ++ (semicolon ++ (trailing ++ newline)) ∧
      (∀ c ∈ blanks, (c == ' ' || c == '\t')) ∧ IsOptional ';' semicolon ∧
      (∀ c ∈ trailing, (c == ' ' || c == '\t' || c == '\r')) ∧ IsOptional '\n' newline

theorem exists_isOptional (c : Char) (t : Text) :
    ∃ mark, IsOptional c mark ∧ t = mark ++ (after? [c] t).getD t := by
  cases found : after? [c] t with
  | none => exact ⟨[], .inl rfl, rfl⟩
  | some rest => exact ⟨[c], .inr rfl, after?_eq_some_iff.1 found⟩

theorem exists_run (p : Char → Bool) (t : Text) :
    ∃ run, (∀ c ∈ run, p c) ∧ t = run ++ t.dropWhile p :=
  ⟨t.takeWhile p, all_eq_true.1 all_takeWhile, takeWhile_append_dropWhile.symm⟩

theorem exists_isStatementTail (t : Text) :
    ∃ tail, IsStatementTail tail ∧ t = tail ++ afterStatement t := by
  simp only [afterStatement]
  obtain ⟨blanks, blank, first⟩ := exists_run (fun c => c == ' ' || c == '\t') t
  obtain ⟨semicolon, mark, second⟩ := exists_isOptional ';' (t.dropWhile _)
  obtain ⟨trailing, trails, third⟩ :=
    exists_run (fun c => c == ' ' || c == '\t' || c == '\r') ((after? [';'] _).getD _)
  obtain ⟨newline, broken, fourth⟩ := exists_isOptional '\n' (dropWhile _ _)
  refine ⟨_, ⟨blanks, semicolon, trailing, newline, rfl, blank, mark, trails, broken⟩, ?_⟩
  simp only [append_assoc]
  rw [← fourth, ← third, ← second, ← first]

def tailMarks : Text := [' ', '\t', ';', '\r', '\n']

variable {t : Text}

theorem IsStatementTail.subset (ends : IsStatementTail t) : t ⊆ tailMarks := by
  obtain ⟨blanks, semicolon, trailing, newline, rfl, blank, mark, trails, broken⟩ := ends
  intro c mem
  simp only [mem_append] at mem
  rcases mem with mem | mem | mem | mem
  · have : c = ' ' ∨ c = '\t' := by simpa using blank c mem
    rcases this with rfl | rfl <;> decide
  · rcases mark with rfl | rfl
    · simp at mem
    · simp [tailMarks, mem_singleton.1 mem]
  · have : (c = ' ' ∨ c = '\t') ∨ c = '\r' := by simpa using trails c mem
    rcases this with (rfl | rfl) | rfl <;> decide
  · rcases broken with rfl | rfl
    · simp at mem
    · simp [tailMarks, mem_singleton.1 mem]

theorem IsStatementTail.isPlain (ends : IsStatementTail t) : ∀ c ∈ t, isPlain c := by
  have marks : tailMarks.all Code.isPlain := by decide
  exact fun c mem => all_eq_true.1 marks c (ends.subset mem)

theorem suffix_append_cases {s run : Text} (within : s <:+ run ++ t) :
    s <:+ t ∨ ∃ run', s = run' ++ t ∧ run' <:+ run := by
  rcases suffix_or_suffix_of_suffix within (suffix_append run t) with inside | ⟨run', rfl⟩
  · exact .inl inside
  · obtain ⟨lead, whole⟩ := within
    rw [← append_assoc] at whole
    exact .inr ⟨run', rfl, lead, append_cancel_right whole⟩

theorem dropWhile_suffix_of_run {p : Char → Bool} {s run : Text} (within : s <:+ run ++ t)
    (inside : ∀ c ∈ run, p c) : s.dropWhile p <:+ t := by
  rcases suffix_append_cases within with behind | ⟨run', rfl, part⟩
  · exact (dropWhile_suffix p).trans behind
  · rw [dropWhile_append_of_pos fun c mem => inside c (part.subset mem)]
    exact dropWhile_suffix p

theorem after?_suffix_of_optional {c : Char} {s mark : Text} (within : s <:+ mark ++ t)
    (optional : IsOptional c mark) : (after? [c] s).getD s <:+ t := by
  have shorter : (after? [c] s).getD s <:+ s := by
    cases found : after? [c] s with
    | none => exact suffix_refl s
    | some rest => exact ⟨[c], (after?_eq_some_iff.1 found).symm⟩
  rcases suffix_append_cases within with behind | ⟨mark', rfl, part⟩
  · exact shorter.trans behind
  · rcases optional with rfl | rfl
    · rw [suffix_nil.1 part] at shorter ⊢
      exact shorter
    · rcases suffix_cons_iff.1 part with rfl | empty
      · rw [after?_append]
        exact suffix_refl t
      · rw [suffix_nil.1 empty] at shorter ⊢
        exact shorter

theorem IsStatementTail.suffix {tail : Text} (ends : IsStatementTail tail) (rest : Text) :
    afterStatement (tail ++ rest) <:+ rest := by
  obtain ⟨blanks, semicolon, trailing, newline, rfl, blank, mark, trails, broken⟩ := ends
  simp only [append_assoc]
  refine after?_suffix_of_optional (dropWhile_suffix_of_run ?_ trails) broken
  exact after?_suffix_of_optional (dropWhile_suffix_of_run (suffix_refl _) blank) mark

end SfcJsx.Code
