import SfcJsx.Options.Declared
import SfcJsx.Proofs.CommentedLayout
import SfcJsx.Proofs.EnclosedCode
import SfcJsx.Proofs.RuntimeConstructors

/-!
Props from a type, with the type of each one as an annotation, and without the annotations. Main
statement: where the types of the members have matching brackets, dropping the annotations leaves
the constructors and nothing of the types.
-/

namespace SfcJsx

open List Text

variable {t : Text} {m : Options.TypeMember}

namespace Code

theorem pieces_concat_of_parts {c d : Char} (parts : Parts (t ++ [c]) [d]) (plain : isPlain c)
    (next : isPlain d) (goes : d ≠ '\n') : pieces (t ++ [c]) = pieces t ++ [.code c] := by
  have single : marked [d] = [(d, true)] := by
    rw [marked_eq_flatMap, pieces_cons_of_isPlain next, pieces]
    rfl
  have texts := map_fst_marked (t ++ [c])
  obtain ⟨a, flag, split⟩ : ∃ a flag, marked (t ++ [c]) = a ++ [(c, flag)] := by
    obtain ⟨a, b, whole, -, last⟩ := map_eq_append_iff.1 texts
    obtain ⟨⟨c', flag⟩, rfl, same⟩ := map_eq_singleton_iff.1 last
    obtain rfl : c' = c := same
    exact ⟨a, flag, whole⟩
  have whole : marked (t ++ [c] ++ [d]) = a ++ (c, flag) :: (d, true) :: [] := by
    rw [parts.marked_append, single, split, append_assoc]
    rfl
  obtain rfl := isCode_of_isPlain_before whole plain goes
  obtain ⟨s, u, same, -, none, read⟩ := exists_of_marked_eq split
  have empty : u = [] := by simpa [none] using (map_fst_marked u).symm
  subst empty
  obtain rfl : t = s := (append_inj_left' same rfl)
  rw [read, pieces]

theorem IsEnclosed.of_arrow {s : Text} (h : IsEnclosed '<' '>' (s ++ ['=', '>', ' '])) :
    IsEnclosed '<' '>' (s ++ ['=', '>']) := by
  have split : s ++ ['=', '>'] = (s ++ ['=']) ++ ['>'] := by simp
  have split' : s ++ ['=', '>', ' '] = (s ++ ['=']) ++ ['>'] ++ [' '] := by simp
  rw [split'] at h
  have blank := pieces_concat_of_parts h.ends rfl rfl (by decide)
  have parts : Parts (s ++ ['='] ++ ['>']) [' '] := by
    rw [Parts, blank, pieces_cons_of_isPlain rfl, pieces]
  have arrow := pieces_concat_of_parts parts rfl rfl (by decide)
  have level : depthAfter true 0 none (pieces (s ++ ['='] ++ ['>']) ++ [.code ' ']) = some 0 := by
    rw [← blank]
    exact h.level
  obtain ⟨depth, level, stays⟩ := exists_depthAfter level
  obtain rfl : depth = 0 := Option.some.inj stays
  rw [split]
  refine ⟨level, EndsPlain.parts (.inr ⟨_, _, arrow, rfl⟩) _, ?_⟩
  rw [arrow, codeAfter_concat]
  rfl

end Code

namespace Options

namespace TypeMember

def resultOf (after : Text) : Text :=
  ((after? ":" after.trimStart).map trim).getD "void"

theorem resultOf_cases (after : Text) : resultOf after = [] ∨ (resultOf after).IsTrimmed := by
  unfold resultOf
  cases after? ":" after.trimStart with
  | none => exact .inr ⟨by simp, rfl, rfl⟩
  | some result =>
    by_cases empty : result.trim = []
    · exact .inl empty
    · exact .inr (isTrimmed_trim empty)

theorem exists_functionType? {signature type : Text} (read : functionType? signature = some type) :
    ∃ (c : Char) (middle after : Text), isBlank c = false ∧
      type = c :: (middle ++ (") => ".toList ++ resultOf after)) := by
  have close {generics rest : Text} (starts : generics.head?.any isBlank = false)
      (read : ((Code.balanced? '(' ')' rest).bind fun found =>
        some (generics ++ "(" ++ found.1 ++ ") => " ++ resultOf found.2)) = some type) :
      ∃ (c : Char) (middle after : Text), isBlank c = false ∧
        type = c :: (middle ++ (") => ".toList ++ resultOf after)) := by
    obtain ⟨⟨parameters, after⟩, -, same⟩ := Option.bind_eq_some_iff.1 read
    cases same
    cases generics with
    | nil => exact ⟨'(', parameters, after, rfl, by simp⟩
    | cons c generics => exact ⟨c, generics ++ '(' :: parameters, after, starts, by simp⟩
  unfold functionType? at read
  split at read
  · obtain ⟨⟨generics, rest⟩, cut, read⟩ := Option.bind_eq_some_iff.1 read
    obtain ⟨⟨content, behind⟩, -, pair⟩ := Option.map_eq_some_iff.1 cut
    cases pair
    exact close rfl read
  · obtain ⟨⟨generics, rest⟩, cut, read⟩ := Option.bind_eq_some_iff.1 read
    cases cut
    exact close rfl read

theorem trim_type_of_parse? {piece : Text} (read : parse? piece = some m) :
    m.type.trim = m.type ∨
      ∃ s, m.type = s ++ ['=', '>', ' '] ∧ m.type.trim = s ++ ['=', '>'] := by
  obtain ⟨-, -, read⟩ := Option.bind_eq_some_iff.1 read
  obtain ⟨⟨name, rest⟩, -, read⟩ := Option.bind_eq_some_iff.1 read
  obtain ⟨-, -, read⟩ := Option.bind_eq_some_iff.1 read
  dsimp only at read
  split at read
  · obtain ⟨type, found, same⟩ := Option.bind_eq_some_iff.1 read
    cases same
    obtain ⟨c, middle, after, other, whole⟩ := exists_functionType? found
    rcases resultOf_cases after with none | trimmed
    · right
      have arrow : Text.IsTrimmed (c :: (middle ++ [')', ' '] ++ ['=', '>'])) :=
        isTrimmed_cons other _ ⟨by simp, rfl, rfl⟩
      have nothing : ∀ d ∈ ([] : Text), isBlank d := by simp
      have blank : ∀ d ∈ [' '], isBlank d := all_eq_true.1 rfl
      have trim := arrow.trim_eq nothing blank
      refine ⟨c :: (middle ++ [')', ' ']), ?_, ?_⟩
      · simp [whole, none]
      · simpa [whole, none] using trim
    · left
      have all := isTrimmed_cons other (middle ++ ") => ".toList) trimmed
      rw [append_assoc] at all
      exact whole ▸ all.trim_self
  · obtain ⟨type, -, same⟩ := Option.bind_eq_some_iff.1 read
    cases same
    exact .inl (trim_trim _)

theorem isEnclosed_trim {literal : Text} (listed : m ∈ ofLiteral literal)
    (enclosed : Code.IsEnclosed '<' '>' m.type) : Code.IsEnclosed '<' '>' m.type.trim := by
  obtain ⟨piece, -, read⟩ := mem_filterMap.1 listed
  rcases trim_type_of_parse? read with same | ⟨s, whole, trim⟩
  · rwa [same]
  · rw [trim]
    rw [whole] at enclosed
    exact enclosed.of_arrow

end TypeMember

namespace RuntimeType

theorem cut?_annotation_eq_none (plain : 'P' ∉ t) : cut? " as PropType" t = none := by
  rw [← Option.not_isSome_iff_eq_none, isSome_cut?_iff]
  exact fun occurs => plain (occurs.subset (contains_iff_mem.1 rfl))

theorem dropAnnotations_of_not_mem (plain : 'P' ∉ t) : dropAnnotations t = t := by
  unfold dropAnnotations
  split
  · rfl
  · next found =>
    rw [cut?_annotation_eq_none plain] at found
    cases found

theorem dropAnnotations_annotated {before type : Text} (plain : 'P' ∉ before)
    (enclosed : Code.IsEnclosed '<' '>' type) (rest : Text) :
    dropAnnotations (before ++ " as PropType" ++ '<' :: (type ++ '>' :: rest)) =
      before ++ dropAnnotations rest := by
  have cut : cut? " as PropType" (before ++ " as PropType" ++ '<' :: (type ++ '>' :: rest)) =
      some (before, '<' :: (type ++ '>' :: rest)) :=
    cut?_append_of_mem (contains_iff_mem.1 rfl) plain _
  have closed := enclosed.balanced? (by decide) rest
  rw [dropAnnotations]
  split
  · next none =>
    rw [cut] at none
    cases none
  · next found =>
    rw [cut] at found
    cases found
    split
    · next same =>
      rw [closed] at same
      cases same
      rfl
    · next none =>
      rw [closed] at none
      cases none

/-- The constructors of a type, without the annotation. -/
def bare (t : RuntimeType) : Text :=
  if t.needsPropType then ((cut? " as PropType<" t.expression).map (·.1)).getD t.expression
  else t.expression

theorem bare_ofType (type : Text) : (ofType type).bare = baseText type := by
  have cut : cut? " as PropType<" (baseText type ++ " as PropType<" ++ (type.trim ++ ">")) =
      some (baseText type, type.trim ++ ">") :=
    cut?_append_of_mem (contains_iff_mem.1 rfl) (not_mem_baseText type) _
  rw [ofType_eq]
  split
  · rw [bare, append_assoc, cut]
    rfl
  · rfl

theorem exists_baseText (type : Text) :
    ∃ names ⊆ constructorNames, baseText type = listText names := by
  unfold baseText
  split
  · exact ⟨["null"], by simp [constructorNames], rfl⟩
  · exact ⟨constructors type, constructors_subset type, rfl⟩

end RuntimeType

namespace TypeMember

def required (m : TypeMember) : Text := if m.isOptional then "false" else "true"

def requirement (m : TypeMember) : Text := ", required: " ++ m.required ++ " \x7d"

/-- What is declared for a member, without the annotation. -/
def bareValue (m : TypeMember) : Text :=
  "\x7b type: " ++ (RuntimeType.ofType m.type).bare ++ m.requirement

theorem not_mem_requirement (m : TypeMember) : 'P' ∉ m.requirement := by
  have plain : m.requirement.contains 'P' = false := by
    unfold requirement required
    cases m.isOptional <;> rfl
  simpa using plain

theorem bareValue_eq (m : TypeMember) :
    m.bareValue = "\x7b type: " ++ RuntimeType.baseText m.type ++ m.requirement := by
  show "\x7b type: ".toList ++ (RuntimeType.ofType m.type).bare ++ m.requirement = _
  rw [RuntimeType.bare_ofType]

theorem not_mem_typed (type : Text) : 'P' ∉ "\x7b type: ".toList ++ RuntimeType.baseText type := by
  have plain : 'P' ∉ "\x7b type: ".toList := by simp
  rw [mem_append, not_or]
  exact ⟨plain, RuntimeType.not_mem_baseText type⟩

theorem not_mem_bareValue (m : TypeMember) : 'P' ∉ m.bareValue := by
  rw [bareValue_eq, mem_append, not_or]
  exact ⟨not_mem_typed m.type, not_mem_requirement m⟩

theorem value_entryOf (m : TypeMember) : (Props.entryOf [] m).value =
    "\x7b type: " ++ (RuntimeType.ofType m.type).expression ++ m.requirement := by
  have whole : (Props.entryOf [] m).value =
      "\x7b type: ".toList ++ (RuntimeType.ofType m.type).expression ++ ", required: ".toList ++
        m.required ++ [] ++ " \x7d".toList := rfl
  have tail : m.requirement = ", required: ".toList ++ m.required ++ " \x7d".toList := rfl
  rw [whole, tail, append_nil]
  simp only [append_assoc]

theorem dropAnnotations_entryOf (enclosed : Code.IsEnclosed '<' '>' m.type.trim) :
    RuntimeType.dropAnnotations (Props.entryOf [] m).value = m.bareValue := by
  rw [value_entryOf, RuntimeType.ofType_eq]
  split
  · have whole : "\x7b type: ".toList ++
          (RuntimeType.baseText m.type ++ " as PropType<" ++ m.type.trim ++ ">") ++ m.requirement =
        ("\x7b type: ".toList ++ RuntimeType.baseText m.type) ++ " as PropType" ++
          '<' :: (m.type.trim ++ '>' :: m.requirement) := by
      simp
    rw [whole, RuntimeType.dropAnnotations_annotated (not_mem_typed m.type) enclosed,
      RuntimeType.dropAnnotations_of_not_mem (not_mem_requirement m), bareValue_eq]
  · rw [← bareValue_eq]
    exact RuntimeType.dropAnnotations_of_not_mem (not_mem_bareValue m)

end TypeMember

/-- Where the types of all members fill the angle brackets around them, dropping the annotations of
the props leaves the constructors of each type, and no text of an annotation. -/
theorem Props.dropAnnotation_ofType (literal : Text) (balanced : ∀ m ∈ TypeMember.ofLiteral literal,
      Code.balanced? '<' '>' ('<' :: (m.type ++ ['>'])) = some (m.type, [])) :
    (Props.ofType literal none).entries.map Declared.dropAnnotation =
      (TypeMember.ofLiteral literal).map (fun m => ⟨m.name, m.bareValue⟩) ∧
    ∀ m ∈ TypeMember.ofLiteral literal, m.bareValue.containsText "PropType" = false ∧
      ∃ names ⊆ RuntimeType.constructorNames,
        (RuntimeType.ofType m.type).bare = RuntimeType.listText names := by
  refine ⟨?_, fun m listed => ⟨?_, ?_⟩⟩
  · show ((TypeMember.ofLiteral literal).map (Props.entryOf [])).map Declared.dropAnnotation = _
    rw [map_map]
    refine map_congr_left fun m listed => ?_
    have enclosed := (Code.balanced?_enclosed_iff (by decide)).1 (balanced m listed)
    exact congrArg (Entry.mk m.name)
      (TypeMember.dropAnnotations_entryOf (TypeMember.isEnclosed_trim listed enclosed))
  · rw [Text.containsText_eq_false_iff]
    exact fun occurs =>
      TypeMember.not_mem_bareValue m (occurs.subset (contains_iff_mem.1 rfl))
  · rw [RuntimeType.bare_ofType]
    exact RuntimeType.exists_baseText m.type

def annotatedSample : Text :=
  "\x7b on: (by: Map<string, '>'>) => void; to?: A<B as PropType<C>>; close(): \x7d"

theorem Props.dropAnnotation_sample :
    (∀ m ∈ TypeMember.ofLiteral annotatedSample,
      Code.balanced? '<' '>' ('<' :: (m.type ++ ['>'])) = some (m.type, [])) ∧
    (Props.ofType annotatedSample none).entries.map Declared.dropAnnotation =
      [⟨"on", "\x7b type: Function, required: true \x7d"⟩,
        ⟨"to", "\x7b type: Object, required: false \x7d"⟩,
        ⟨"close", "\x7b type: Function, required: true \x7d"⟩] := by
  have balanced : ∀ m ∈ TypeMember.ofLiteral annotatedSample,
      Code.balanced? '<' '>' ('<' :: (m.type ++ ['>'])) = some (m.type, []) := by decide +kernel
  refine ⟨balanced, (Props.dropAnnotation_ofType annotatedSample balanced).1.trans ?_⟩
  decide +kernel

end Options

end SfcJsx
