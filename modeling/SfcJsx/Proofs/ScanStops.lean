import SfcJsx.Proofs.CodeBytes
import SfcJsx.Proofs.ModuleSplit
import SfcJsx.Proofs.SegmentReading
import SfcJsx.Script.Local

/-!
Every scan of code, read by its bytes, stops where the text can be cut: not before its start, not
behind the end and not inside a character. So what is cut out of a script or an expression is there.
-/

namespace SfcJsx

open List Text

variable {c : Char} {t u w rest : Text} {ms : Script.Marked}

namespace Script

namespace Marked

/-- The bytes of marked characters, each marked like its character. -/
def spread (ms : Marked) : Marked := ms.flatMap fun m => (encoded [m.1]).map (·, m.2)

theorem text_spread (ms : Marked) : text (spread ms) = encoded (text ms) := by
  induction ms with
  | nil => rfl
  | cons m ms ih =>
    rw [spread, flatMap_cons, text_append, ← spread, ih,
      show text (m :: ms) = [m.1] ++ text ms from rfl, encoded_append]
    simp [text, Function.comp_def]

theorem length_spread (ms : Marked) : (spread ms).length = (text ms).width := by
  rw [← length_encoded, ← text_spread, text, length_map]

theorem width_text_cons (m : Char × Bool) (ms : Marked) :
    (text (m :: ms)).width = (encoded [m.1]).length + (text ms).width := by
  rw [length_encoded, ← width_append]
  rfl

end Marked

open Marked

theorem sourceLength_wide (inside : ∀ d ∈ w, IsWide d) (afterCode flag : Bool) (more : Marked)
    (ne : w ≠ []) : sourceLength afterCode (w.map (·, flag) ++ more) =
      w.length + sourceLength flag more := by
  induction w generalizing afterCode with
  | nil => exact absurd rfl ne
  | cons d w ih =>
    obtain ⟨here, later⟩ := forall_mem_cons.1 inside
    have other : d ∉ ['\'', '"'] := not_mem_of_isWide here (by decide)
    simp only [mem_cons, not_mem_nil, or_false, not_or] at other
    rw [map_cons, cons_append, sourceLength, if_neg (by simp [other])]
    cases w with
    | nil => simp [Nat.add_comm]
    | cons e w =>
      rw [ih later flag (by simp)]
      simp only [length_cons]
      omega

theorem sourceLength_spread (afterCode : Bool) (ms : Marked) :
    sourceLength afterCode (spread ms) = (text (ms.take (sourceLength afterCode ms))).width := by
  induction ms generalizing afterCode with
  | nil => rfl
  | cons m ms ih =>
    obtain ⟨c, flag⟩ := m
    rw [spread, flatMap_cons, ← spread]
    rcases encoded_cases c with ⟨-, single⟩ | ⟨wide, ne, inside⟩
    · rw [single, map_singleton, singleton_append, sourceLength, sourceLength, text_spread]
      split
      · next starts =>
        have quoted : Code.isQuote c := by
          simp only [Bool.and_eq_true, Bool.or_eq_true, beq_iff_eq] at starts
          rcases starts.1.1 with rfl | rfl <;> decide
        have cut : text (ms.take (Code.literalTail c (text ms)).1.length) =
            (Code.literalTail c (text ms)).1 := by
          rw [text, map_take]
          exact (prefix_iff_eq_take.1 ⟨_, Code.literalTail_append c (text ms)⟩).symm
        rw [take_succ_cons, width_text_cons, single, cut, Code.literalTail_encoded quoted,
          length_encoded]
        exact Nat.add_comm _ _
      · rw [take_succ_cons, width_text_cons, single, ih]
        exact Nat.add_comm _ _
    · have other : c ∉ ['\'', '"'] := not_mem_of_isWide wide (by decide)
      simp only [mem_cons, not_mem_nil, or_false, not_or] at other
      rw [sourceLength_wide inside _ _ _ ne, sourceLength, if_neg (by simp [other]),
        take_succ_cons, width_text_cons, ih]

/-- Whether a statement goes on after the line break with `left` bytes behind it. -/
def goesOnAt? (t : Text) (left : Nat) : Option Bool := do
  let before ← t.slice? 0 (t.width - left - 1)
  let after ← t.from? (t.width - left)
  some (goesOn (Code.lastLine before) after)

/-- The number of bytes of an export statement, where the text is cut at a line break. -/
def exportBytes? (t : Text) (depth : Int) : Marked → Option Nat
  | [] => some 0
  | (c, isCode) :: rest =>
    if !isCode then (exportBytes? t depth rest).map (· + 1)
    else if c = ';' ∧ depth ≤ 0 then some 1
    else if c = '\n' ∧ depth ≤ 0 then
      (goesOnAt? t rest.length).bind fun more =>
        if more then (exportBytes? t depth rest).map (· + 1) else some 0
    else (exportBytes? t (depth + bracketStep c) rest).map (· + 1)

theorem goesOnAt?_append (before after : Text) :
    goesOnAt? (before ++ '\n' :: after) after.width =
      some (goesOn (Code.lastLine before) after) := by
  have size : (before ++ '\n' :: after).width = before.width + 1 + after.width := by
    rw [width_append, show '\n' :: after = ['\n'] ++ after from rfl, width_append]
    exact (Nat.add_assoc ..).symm
  have cut := slice?_append [] before ('\n' :: after)
  have behind := from?_width_append (before ++ ['\n']) after
  have same : before.width + 1 = (before ++ ['\n']).width := by rw [width_append]; rfl
  rw [append_assoc, singleton_append, ← same] at behind
  rw [nil_append, width_nil, Nat.zero_add] at cut
  rw [goesOnAt?, size, Nat.add_sub_cancel, Nat.add_sub_cancel, cut, behind]
  rfl

theorem bracketStep_wide (wide : IsWide c) : bracketStep c = 0 := by
  have other {a : Char} (narrow : ¬ IsWide a) : c ≠ a := ne_of_isWide wide narrow
  rw [bracketStep, if_neg, if_neg]
  all_goals
    simp only [not_or]
    exact ⟨other (by decide), other (by decide), other (by decide)⟩

theorem exportBytes?_wide (inside : ∀ d ∈ w, IsWide d) (depth : Int) (flag : Bool)
    (more : Marked) : exportBytes? t depth (w.map (·, flag) ++ more) =
      (exportBytes? t depth more).map (w.length + ·) := by
  induction w with
  | nil => simp
  | cons d w ih =>
    obtain ⟨here, later⟩ := forall_mem_cons.1 inside
    have other {a : Char} (narrow : ¬ IsWide a) : d ≠ a := ne_of_isWide here narrow
    have going (ends : Char) (narrow : ¬ IsWide ends) : ¬ (d = ends ∧ depth ≤ 0) :=
      fun both => other narrow both.1
    rw [map_cons, cons_append, exportBytes?, if_neg (going ';' (by decide)),
      if_neg (going '\n' (by decide)), bracketStep_wide here, Int.add_zero, ite_self, ih later,
      Option.map_map]
    congr 1
    funext n
    simp only [Function.comp_apply, length_cons]
    omega

theorem exportBytes?_spread {before line : Text} (whole : t = before ++ text ms)
    (last : line.reverse = Code.lastLine before) (depth : Int) : exportBytes? t depth (spread ms) =
      some (text (ms.take (exportLength depth line ms))).width := by
  induction ms generalizing before line depth with
  | nil => rfl
  | cons m ms ih =>
    obtain ⟨c, flag⟩ := m
    have nextLine : (if c = '\n' then [] else c :: line).reverse =
        Code.lastLine (before ++ [c]) := by
      split
      · next same => simp [Code.lastLine, same]
      · next other => rw [reverse_cons, last, Code.lastLine_append (by simpa using Ne.symm other)]
    have more (depth : Int) := ih (by rw [whole]; simp [text]) nextLine depth
    have onward (n : Nat) : (text (((c, flag) :: ms).take (n + 1))).width =
        (encoded [c]).length + (text (ms.take n)).width := by
      rw [take_succ_cons, width_text_cons]
    rw [spread, flatMap_cons, ← spread]
    rcases encoded_cases c with ⟨-, single⟩ | ⟨wide, -, inside⟩
    · have further (depth : Int) :
          (exportBytes? t depth (spread ms)).map (· + 1) = some (text (((c, flag) :: ms).take
            (exportLength depth (if c = '\n' then [] else c :: line) ms + 1))).width := by
        rw [more, onward, single]
        exact congrArg some (Nat.add_comm _ _)
      rw [single, map_singleton, singleton_append, exportBytes?, exportLength, further, further,
        length_spread]
      cases flag with
      | false => rfl
      | true =>
        simp only [Bool.not_true, Bool.false_eq_true, if_false, if_true]
        split
        · have := onward 0
          rw [single] at this
          rw [this]
          rfl
        · split
          · next ends =>
            obtain ⟨rfl, low⟩ := ends
            rw [whole, show text (('\n', true) :: ms) = '\n' :: text ms from rfl,
              goesOnAt?_append, ← last]
            cases goes : goesOn line.reverse (text ms) <;> simp [low, text, bracketStep]
          · next ends => simp only [← and_assoc, ends, false_and, if_false]
    · rw [exportBytes?_wide inside, more, exportLength]
      have other {a : Char} (narrow : ¬ IsWide a) : c ≠ a := ne_of_isWide wide narrow
      have flat := bracketStep_wide wide
      simp only [other (a := ';') (by decide), other (a := '\n') (by decide), false_and, if_false,
        flat, Int.add_zero, ite_self, onward, Option.map_some]

theorem Call.exists_statement {name : Text} {indices : List Nat} {call : Call}
    (found : Call.among? t name indices = some call) :
    ∃ statement, t = call.before ++ (statement ++ call.after) := by
  fun_induction Call.among? t name indices with
  | case1 | case3 => cases found
  | case2 index rest _ ih => exact ih found
  | case4 index rest typed content after read start =>
    cases found
    obtain ⟨head, before⟩ := prefix_statementStart (t.take index)
    obtain ⟨tail, behind⟩ := (suffix_of_readArguments read).1.trans
      (show t.drop (index + name.length) <:+ t.drop index by
        rw [← drop_drop]
        exact drop_suffix _ _)
    refine ⟨head ++ tail, ?_⟩
    rw [append_assoc, behind, ← append_assoc, before, take_append_drop]

theorem Local.afterAnnotation_suffix (before : Option Char) (depth : Int) (t : Text) :
    Local.afterAnnotation before depth t <:+ t := by
  fun_induction Local.afterAnnotation before depth t with
  | case1 => exact suffix_rfl
  | case4 => exact suffix_rfl
  | case2 _ _ _ _ _ ih | case3 _ _ _ _ _ _ ih | case5 _ _ _ _ _ _ _ ih =>
    exact ih.trans (suffix_cons _ _)

theorem Local.afterAnnotation_wide (inside : ∀ d ∈ w, IsWide d) (ne : w ≠ []) (depth : Int)
    (before : Option Char) (t : Text) : ∃ d, IsWide d ∧
      Local.afterAnnotation before depth (w ++ t) = Local.afterAnnotation (some d) depth t := by
  induction w generalizing before with
  | nil => exact absurd rfl ne
  | cons d w ih =>
    obtain ⟨here, later⟩ := forall_mem_cons.1 inside
    have other : d ∉ ['<', '(', '{', '[', '>', ')', '}', ']', '\n', ';', '='] :=
      not_mem_of_isWide here (by decide)
    simp only [mem_cons, not_mem_nil, or_false, not_or] at other
    have passed : Local.afterAnnotation before depth (d :: (w ++ t)) =
        Local.afterAnnotation (some d) depth (w ++ t) := by
      simp [Local.afterAnnotation, other]
    rw [cons_append, passed]
    cases w with
    | nil => exact ⟨d, here, rfl⟩
    | cons e w => exact ih later (by simp) (some d)

theorem Local.afterAnnotation_encoded {before before' : Option Char} (depth : Int) (t : Text)
    (alike : before' = some '=' ↔ before = some '=') :
    Local.afterAnnotation before' depth (encoded t) =
      encoded (Local.afterAnnotation before depth t) := by
  induction t using encoded_induction generalizing before before' depth with
  | nil => rfl
  | narrow c t narrow ih =>
    have arrow := head?_encoded (a := '>') (by decide) t
    simp only [Local.afterAnnotation, ne_eq, alike, arrow]
    split
    · exact ih _ Iff.rfl
    · split
      · exact ih _ Iff.rfl
      · split
        · rw [encoded_cons narrow]
        · exact ih _ Iff.rfl
  | wide c t w wide ne inside same ih =>
    obtain ⟨d, last, bytes⟩ := Local.afterAnnotation_wide inside ne depth before' (encoded t)
    obtain ⟨e, first, chars⟩ := Local.afterAnnotation_wide (w := [c])
      (forall_mem_singleton.2 wide) (by simp) depth before t
    have other {a : Char} (wide : IsWide a) : a ≠ '=' := ne_of_isWide wide (by decide)
    rw [bytes, ← singleton_append, chars]
    exact ih depth (by simp [other last, other first])

theorem Local.target?_suffix {names : List Text} {destructured : Bool}
    (found : Local.target? t = some (names, destructured, rest)) : rest <:+ t := by
  have pattern {opening closing : Char}
      (found : ((Code.balanced? opening closing t).map fun read =>
        (Code.patternNames (opening :: read.1 ++ [closing]), true, read.2)) =
          some (names, destructured, rest)) : rest <:+ t := by
    obtain ⟨⟨content, after⟩, read, same⟩ := Option.map_eq_some_iff.1 found
    obtain ⟨-, -, rfl⟩ : _ ∧ _ ∧ after = rest := by simpa using same
    exact (Code.suffix_of_balanced? read).1
  unfold Local.target? at found
  split at found
  · exact pattern found
  · exact pattern found
  · dsimp only at found
    split at found
    · cases found
    · obtain ⟨-, -, rfl⟩ : _ ∧ _ ∧ _ = rest := by simpa using found
      exact drop_suffix _ _

theorem Local.initialValue_suffix (t : Text) : Local.initialValue t <:+ t := by
  refine IsSuffix.trans ?_ (dropWhile_suffix isBlank)
  unfold Local.initialValue
  dsimp only
  split
  · next after read =>
    split
    · exact (dropWhile_suffix _).trans ⟨_, (after?_eq_some_iff.1 read).symm⟩
    · exact suffix_rfl
  · exact suffix_rfl

theorem Local.readVariable?_suffix {declared : Local}
    (found : Local.readVariable? t = some (declared, rest)) : rest <:+ t := by
  obtain ⟨⟨names, destructured, behind⟩, target, found⟩ := Option.bind_eq_some_iff.1 found
  have within := (Local.target?_suffix target).trans (dropWhile_suffix isBlank)
  have annotated : (if behind.trimStart.head? = some ':' then
      Local.afterAnnotation none 0 behind.trimStart else behind.trimStart) <:+ t := by
    refine IsSuffix.trans ?_ ((dropWhile_suffix isBlank).trans within)
    split
    · exact Local.afterAnnotation_suffix none 0 _
    · exact suffix_rfl
  dsimp only at found
  split at found
  · next value same =>
    rw [same] at annotated
    split at found
    · cases found
      rwa [same]
    · cases found
      exact (Local.initialValue_suffix value).trans ((suffix_cons _ _).trans annotated)
  · cases found
    exact annotated

end Script

theorem Expression.step_le (s : Expression.Scan) (c : Char) (rest : Text) :
    (Expression.step s c rest).1 ≤ rest.length := by
  by_cases delimits : c ∈ delimiters
  · obtain ⟨body, after, next, rfl, copies⟩ := copies_delimiter s delimits rest
    rw [copies.step, length_append]
    exact Nat.le_add_right _ _
  · rw [step_of_not_mem delimits]
    split
    · exact (List.takeWhile_prefix _).length_le
    · split
      · exact (List.takeWhile_prefix _).length_le
      · split <;> exact Nat.zero_le _

namespace Code

open Script Marked

/-- A scan of the bytes of `w` from the offset `start` on stops at `stop`, where the text can be
cut; behind it stands `rest`. -/
def StopsAt (w : Text) (start stop : Nat) (rest : Text) : Prop :=
  start ≤ stop ∧ stop ≤ w.width ∧ w.from? stop = some rest

theorem stopsAt_append (s taken : Text) (whole : taken ++ rest = u) :
    StopsAt (s ++ u) s.width (s.width + (encoded taken).length) rest := by
  subst whole
  rw [length_encoded, ← append_assoc]
  refine ⟨Nat.le_add_right _ _, ?_, ?_⟩
  · rw [width_append, width_append]
    omega
  · rw [← width_append]
    exact from?_width_append _ _

theorem stopsAt_take (s : Text) (ms : Marked) (n : Nat) :
    StopsAt (s ++ text ms) s.width (s.width + (text (ms.take n)).width) (text (ms.drop n)) := by
  have whole : text (ms.take n) ++ text (ms.drop n) = text ms := by
    rw [← text_append, take_append_drop]
  rw [← length_encoded (text _)]
  exact stopsAt_append s _ whole

theorem stopsAt_balanced? {opening closing : Char} (pair : IsEnclosing opening closing)
    {content after : Text} (found : balanced? opening closing u = some (content, after))
    (s : Text) : StopsAt (s ++ u) s.width (s.width + ((encoded content).length + 2)) after ∧
      (s ++ u).slice? (s.width + 1) (s.width + 1 + (encoded content).length) = some content := by
  have one {c : Char} (ascii : c.toNat < 128) : width [c] = 1 := by
    rw [← length_encoded, encoded_cons (Nat.not_le.2 ascii)]
    rfl
  have whole := eq_of_balanced? pair found
  have cut := slice?_append (s ++ [opening]) content (closing :: after)
  rw [width_append, one pair.1.1, ← length_encoded content] at cut
  have stops := stopsAt_append s (opening :: (content ++ [closing]))
    (show _ ++ after = u by simp [whole])
  have narrow {c : Char} (ascii : c.toNat < 128) : ¬ IsWide c := Nat.not_le.2 ascii
  rw [encoded_cons (narrow pair.1.1), encoded_append, encoded_cons (narrow pair.1.2.1)] at stops
  refine ⟨by simpa using stops, ?_⟩
  rwa [append_assoc, append_assoc, singleton_append, ← whole] at cut

theorem stopsAt_suffix (s : Text) (behind : rest <:+ u) :
    StopsAt (s ++ u) s.width ((s ++ u).width - (encoded rest).length) rest := by
  obtain ⟨taken, whole⟩ := behind
  have size : (s ++ u).width - (encoded rest).length = s.width + (encoded taken).length := by
    rw [length_encoded, length_encoded, ← whole, width_append, width_append]
    omega
  rw [size]
  exact stopsAt_append s taken whole

/-- Pieces of a text that follow one another, each of them the slice between its two offsets. -/
structure CutsInto (u : Text) (pieces : List Text) : Prop where
  whole : pieces.flatten = u
  slices : ∀ earlier piece later, pieces = earlier ++ piece :: later →
    u.slice? (width earlier.flatten) (width earlier.flatten + piece.width) = some piece

theorem cutsInto_of_flatten {pieces : List Text} (whole : pieces.flatten = u) :
    CutsInto u pieces := by
  refine ⟨whole, ?_⟩
  rintro earlier piece later rfl
  have cut := slice?_append earlier.flatten piece later.flatten
  rwa [append_assoc, ← List.flatten_cons, ← List.flatten_append, whole] at cut

/-- Behind any text `s`, the scans of the bytes of `u` stop where the text can be cut. -/
structure ScansStop (s u : Text) : Prop where
  literal : ∀ quote rest, isQuote quote → u = quote :: rest →
    StopsAt (s ++ u) s.width (s.width + (1 + (literalTail quote (encoded rest)).1.length))
      (literalTail quote rest).2
  lineComment : StopsAt (s ++ u) s.width
    (s.width + ((encoded u).takeWhile (· != '\n')).length) (u.dropWhile (· != '\n'))
  blockComment : ∀ rest, u = '/' :: '*' :: rest →
    StopsAt (s ++ u) s.width (s.width + (2 + (blockTail (encoded rest)).1.length))
      (blockTail rest).2
  brackets : ∀ pair ∈ [('(', ')'), ('[', ']'), ('\x7b', '\x7d'), ('<', '>')],
    balanced? pair.1 pair.2 (encoded u) =
        (balanced? pair.1 pair.2 u).map (fun found => (encoded found.1, encoded found.2)) ∧
      ∀ content after, balanced? pair.1 pair.2 u = some (content, after) →
        StopsAt (s ++ u) s.width (s.width + ((encoded content).length + 2)) after ∧
        (s ++ u).slice? (s.width + 1) (s.width + 1 + (encoded content).length) = some content
  statement : StopsAt (s ++ u) s.width
    ((s ++ u).width - (afterStatement (encoded u)).length) (afterStatement u)
  importStatement : ∀ ms : Marked, text ms = u → ∀ afterCode,
    StopsAt (s ++ u) s.width (s.width + sourceLength afterCode (spread ms))
      (text (ms.drop (sourceLength afterCode ms)))
  exportStatement : ∀ ms : Marked, text ms = u → ∀ depth,
    ∃ size, exportBytes? u depth (spread ms) = some size ∧
      StopsAt (s ++ u) s.width (s.width + size) (text (ms.drop (exportLength depth [] ms)))
  annotation : StopsAt (s ++ u) s.width
    ((s ++ u).width - (Local.afterAnnotation none 0 (encoded u)).length)
      (Local.afterAnnotation none 0 u)

theorem scansStop (s u : Text) : ScansStop s u where
  literal := by
    rintro quote rest quoted rfl
    have stops := stopsAt_append s (quote :: (literalTail quote rest).1)
      (congrArg (quote :: ·) (literalTail_append quote rest))
    rw [encoded_cons (not_isWide_of_isQuote quoted).1, length_cons, Nat.add_comm _ 1] at stops
    rwa [literalTail_encoded quoted]
  lineComment := by
    rw [(line_encoded u).1]
    exact stopsAt_append s _ takeWhile_append_dropWhile
  blockComment := by
    rintro rest rfl
    have stops := stopsAt_append s ('/' :: '*' :: (blockTail rest).1)
      (congrArg ('/' :: '*' :: ·) (blockTail_append rest))
    rw [encoded_cons (by decide), encoded_cons (by decide), length_cons, length_cons,
      Nat.add_comm _ 2] at stops
    rwa [blockTail_encoded]
  brackets := by
    intro pair among
    have enclosing : IsEnclosing pair.1 pair.2 := by
      revert pair
      decide
    exact ⟨balanced?_encoded enclosing u, fun content after found =>
      stopsAt_balanced? enclosing found s⟩
  statement := by
    obtain ⟨tail, -, whole⟩ := exists_isStatementTail u
    rw [afterStatement_encoded]
    exact stopsAt_suffix s ⟨tail, whole.symm⟩
  importStatement := by
    rintro ms rfl afterCode
    rw [sourceLength_spread]
    exact stopsAt_take s ms _
  exportStatement := by
    rintro ms rfl depth
    exact ⟨_, exportBytes?_spread (nil_append _).symm rfl depth, stopsAt_take s ms _⟩
  annotation := by
    rw [Local.afterAnnotation_encoded 0 u Iff.rfl]
    exact stopsAt_suffix s (Local.afterAnnotation_suffix none 0 u)

/-- What declaration calls, module statements, declared variables and segments of expressions cut
out of `u` are slices of it. -/
structure CallersCut (u : Text) : Prop where
  call : ∀ name i call, Call.find? u name i = some call →
    ∃ statement, CutsInto u [call.before, statement, call.after]
  chunks : ∀ hoist, CutsInto u ((chunks hoist 0 (marked u)).map Chunk.text)
  declaration : ∀ declared rest, Local.readVariable? u = some (declared, rest) →
    ∃ taken, CutsInto u [taken, rest]
  segments : CutsInto u ((Expression.segments u).map (·.text))
  step : ∀ scan c rest, u = c :: rest → (Expression.step scan c rest).1 ≤ rest.length

theorem callersCut (u : Text) : CallersCut u where
  call name i call found := by
    obtain ⟨statement, whole⟩ := Call.exists_statement found
    exact ⟨statement, cutsInto_of_flatten (by simp [whole])⟩
  chunks hoist := by
    obtain ⟨kept, chunked⟩ := exists_chunked hoist 0 (marked u)
    apply cutsInto_of_flatten
    rw [← flatMap_def, chunked.texts.1, text_marked]
  declaration declared rest found := by
    obtain ⟨taken, whole⟩ := Local.readVariable?_suffix found
    exact ⟨taken, cutsInto_of_flatten (by simp [whole])⟩
  segments := cutsInto_of_flatten (flatMap_def ▸ Expression.flatMap_segmentsFrom {} u)
  step scan c rest _ := Expression.step_le scan c rest

/-- Every scan of bytes stops where the text can be cut, and so what is cut out is there. -/
theorem scans_stop_at_boundaries (s u : Text) : ScansStop s u ∧ CallersCut u :=
  ⟨scansStop s u, callersCut u⟩

/-- A backslash before a character of two bytes. -/
theorem scans_stop_at_boundaries_escaped : StopsAt "é='\\é'+1" 3 8 "+1" := by
  have stops := (scans_stop_at_boundaries "é=" "'\\é'+1").1.literal '\'' "\\é'+1" (by decide) rfl
  exact stops

end Code

end SfcJsx
