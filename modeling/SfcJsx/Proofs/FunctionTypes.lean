import SfcJsx.Proofs.CommentedLayout
import SfcJsx.Proofs.EnclosedCode
import SfcJsx.Proofs.RuntimeConstructors

/-!
Types of functions at run time. A union is split before its members are looked at, and an array is
told by its end before a function is told by its start. Main statement: a function type becomes
`Function` exactly if the first alternative of its result does not end as an array does and the
others, which are taken for members beside the function, are functions or left out.
-/

namespace SfcJsx

open List Text Code

variable {t name type m : Text} {members names : List Text}

namespace Text

theorem isDecimal_parenthesis (t : Text) : isDecimal ('(' :: t) = false := by
  have mantissa (u : Text) : isMantissa ('(' :: u) = false := by
    obtain ⟨piece, pieces, read⟩ := @exists_fields_cons (· == '.') u
    rw [isMantissa, fields, read]
    cases pieces with
    | nil => rfl
    | cons second rest =>
      cases rest with
      | nil => rfl
      | cons third rest => rfl
  have sign : dropSign ('(' :: t) = '(' :: t := rfl
  have word : decimalWords.contains (('(' :: t).map Char.toLower) = false := rfl
  obtain ⟨piece, pieces, read⟩ := @exists_fields_cons (fun c => c == 'e' || c == 'E') t
  have split : fields (fun c => c == 'e' || c == 'E') ('(' :: t) = ('(' :: piece) :: pieces := by
    rw [fields, read]
    rfl
  rw [isDecimal]
  simp only [sign, word, split, Bool.false_or]
  cases pieces with
  | nil => exact mantissa piece
  | cons second rest =>
    cases rest with
    | nil =>
      show (isMantissa ('(' :: piece) && _) = false
      rw [mantissa, Bool.false_and]
    | cons third rest => rfl

end Text

namespace Options.RuntimeType

/-- A function type with its parameters. -/
def arrowText (parameters result : Text) : Text := "(" ++ parameters ++ ") => " ++ result

/-- Text with matching brackets, angle brackets counted or not, that may stand in parentheses. -/
@[mk_iff] structure IsBalanced (t : Text) : Prop where
  level (angles : Bool) : IsLevel angles t
  ends : Code.Parts t [')']

instance (t : Text) : Decidable (IsBalanced t) := decidable_of_iff' _ (isBalanced_iff t)

theorem IsBalanced.isEnclosed (h : IsBalanced t) : IsEnclosed '(' ')' t :=
  ⟨h.level false, h.ends, rfl⟩

def arrowHead (parameters : Text) : Text := '(' :: (parameters ++ [')']) ++ " => "

theorem arrowText_eq (p r : Text) : arrowText p r = arrowHead p ++ r := by
  simp [arrowText, arrowHead]

theorem endsPlain_parentheses {p : Text} (h : IsBalanced p) : EndsPlain ('(' :: (p ++ [')'])) := by
  have read := @pieces_enclosed '(' ')' rfl rfl p h.ends []
  rw [pieces] at read
  exact .inr ⟨.code '(' :: pieces p, ')', read, rfl⟩

theorem arrowHead_spec {p : Text} (h : IsBalanced p) (angles : Bool) :
    EndsPlain (arrowHead p) ∧ IsLevel angles (arrowHead p) ∧
      outer angles 0 none (pieces (arrowHead p)) = " => ".toList ∧
      codeAfter none (pieces (arrowHead p)) = some ' ' := by
  have plain : ∀ c ∈ " => ".toList, isPlain c := all_eq_true.1 rfl
  have arrow : IsLevel angles " => " ∧
      outer angles 0 none (pieces " => ") = " => ".toList := by
    rw [IsLevel, pieces_of_isPlain plain]
    cases angles <;> exact ⟨rfl, rfl⟩
  obtain ⟨level, none⟩ := isLevel_parentheses (h.level angles) h.ends
  have ends := endsPlain_parentheses h
  obtain ⟨whole, outer⟩ := level.append (ends.parts " => ") arrow.1
  rw [none, arrow.2] at outer
  refine ⟨ends.append (endsPlain_of_isPlain plain), whole, outer, ?_⟩
  have read : pieces (arrowHead p) =
      pieces ('(' :: (p ++ [')'])) ++ " =>".toList.map .code ++ [.code ' '] := by
    rw [arrowHead, show pieces ('(' :: (p ++ [')']) ++ " => ") = _ from ends.parts _,
      pieces_of_isPlain plain, append_assoc]
    rfl
  rw [read, codeAfter_concat]
  rfl

theorem IsBalanced.arrowText {p r : Text} (parameters : IsBalanced p) (result : IsBalanced r) :
    IsBalanced (arrowText p r) := by
  have starts := (arrowHead_spec parameters true).1
  rw [arrowText_eq]
  refine ⟨fun angles => ?_, ?_⟩
  · have level := (arrowHead_spec parameters angles).2.1
    exact (level.append (starts.parts r) (result.level angles)).1
  · have ends : pieces (r ++ [')']) = _ := result.ends
    have beside (t : Text) : pieces (arrowHead p ++ t) = _ := starts.parts t
    rw [Code.Parts, append_assoc, beside, ends, beside, append_assoc]

def arrowConstructor (result : Text) : Text :=
  if result.endsWith "[]" then "Array" else "Function"

theorem arrowConstructor_eq_function_iff {result : Text} :
    arrowConstructor result = "Function".toList ↔ result.endsWith "[]" = false := by
  unfold arrowConstructor
  cases result.endsWith "[]" <;> decide

theorem constructorOf_arrow {p : Text} (h : IsBalanced p) (rest : Text) :
    constructorOf ('(' :: (p ++ ')' :: (" =>".toList ++ rest))) =
      (arrowConstructor (" =>".toList ++ rest), true) := by
  generalize same : " =>".toList ++ rest = behind
  have array : isArrayType ('(' :: (p ++ ')' :: behind)) = endsWith behind "[]" := by
    have ends : endsWith ('(' :: (p ++ ')' :: behind)) "[]" = endsWith behind "[]" :=
      endsWith_append_of_not_mem (by simp) ('(' :: p) behind
    rw [isArrayType, ends]
    simp [startsWith, after?]
  have function : isFunctionType ('(' :: (p ++ ')' :: behind)) := by
    have found := h.isEnclosed.balanced? (by decide) behind
    rw [isFunctionType]
    split
    · next after read =>
      obtain ⟨-, rfl⟩ := Prod.mk.inj (Option.some.inj (found.symm.trans read))
      rw [← same]
      rfl
    · next none => cases found.symm.trans none
  unfold constructorOf
  rw [isDecimal_parenthesis, array, function, arrowConstructor]
  cases endsWith behind "[]" <;> rfl

/-- The types between the bars of a union. -/
def alternatives (t : Text) : List Text :=
  (segments ['|'] true 0 none (pieces t)).map trim

/-- Alternatives that stand for no value. -/
def isAbsent (t : Text) : Bool := t.isEmpty || t == "undefined" || t == "null"

def memberConstructor (t : Text) : Text × Bool := constructorOf (dropParentheses t)

theorem found_eq (type : Text) : found type =
    ((alternatives (dropParentheses type)).filter (!isAbsent ·)).map memberConstructor := by
  have kept (t undefined null : Text) : (decide (t ≠ undefined ∧ t ≠ null) && !t.isEmpty) =
      !(t.isEmpty || t == undefined || t == null) := by
    grind
  rw [found, unionParts, splitTop, filter_filter]
  exact congrArg (map memberConstructor) (filter_congr fun t _ => kept t _ _)

theorem memberConstructor_trim (t : Text) : memberConstructor t.trim = memberConstructor t := by
  rw [memberConstructor, memberConstructor, dropParentheses, dropParentheses, trim_trim]

theorem isAbsent_of_function (function : (memberConstructor t).1 = "Function".toList) :
    isAbsent t = false := by
  rw [← Bool.not_eq_true]
  intro absent
  simp only [isAbsent, Bool.or_eq_true, List.isEmpty_iff, beq_iff_eq] at absent
  rcases absent with (rfl | rfl) | rfl <;> exact absurd function (by decide)

theorem dropParentheses_enclosed (h : IsBalanced t) :
    dropParentheses ('(' :: (t ++ [')'])) = t.trim := by
  have trimmed : IsTrimmed ('(' :: (t ++ [')'])) := isTrimmed_cons rfl t ⟨by simp, rfl, rfl⟩
  have found := h.isEnclosed.balanced? (by decide) []
  rw [dropParentheses, trimmed.trim_self, found]

theorem dropParentheses_of_outer (trimmed : t.IsTrimmed)
    (outside : outer false 0 none (pieces t) ≠ []) : dropParentheses t = t := by
  rw [dropParentheses, trimmed.trim_self]
  split
  · next inner found =>
    have whole := eq_of_balanced? (by decide) found
    rw [whole] at found
    have enclosed := (balanced?_enclosed_iff (by decide)).1 found
    rw [whole] at outside
    exact absurd (isLevel_parentheses enclosed.level enclosed.ends).2 outside
  · rfl

theorem dropParentheses_arrow {p : Text} (h : IsBalanced p) {rest : Text}
    (trimmed : IsTrimmed ('(' :: (p ++ ')' :: (" =>".toList ++ rest)))) :
    dropParentheses ('(' :: (p ++ ')' :: (" =>".toList ++ rest))) =
      '(' :: (p ++ ')' :: (" =>".toList ++ rest)) := by
  have found := h.isEnclosed.balanced? (by decide) (" =>".toList ++ rest)
  rw [dropParentheses, trimmed.trim_self, found]
  rfl

theorem exists_segments_arrowText {p : Text} (h : IsBalanced p) (r : Text) :
    ∃ first others, segments ['|'] true 0 none (pieces r) = first :: others ∧
      segments ['|'] true 0 none (pieces (arrowText p r)) =
        (arrowHead p ++ first) :: others := by
  obtain ⟨ends, level, outer, last⟩ := arrowHead_spec h true
  obtain ⟨first, others, read⟩ := exists_cons_of_ne_nil
    (@segments_ne_nil ['|'] true 0 none (pieces r))
  have single : segments ['|'] true 0 none (pieces (arrowHead p)) = [arrowHead p] := by
    rw [segments_of_not_mem (by rw [outer]; decide), flatten_pieces]
  refine ⟨first, others, read, ?_⟩
  rw [arrowText_eq, show pieces (arrowHead p ++ r) = _ from ends.parts r,
    segments_append level, single, last, segments_of_ne (by decide), read]
  rfl

theorem endsWith_blanks {blanks : Text} (blank : ∀ c ∈ blanks, isBlank c)
    (s t : Text) : endsWith (s ++ ' ' :: (blanks ++ t)) "[]" = endsWith t "[]" := by
  obtain ⟨init, c, last⟩ := (eq_nil_or_concat (' ' :: blanks)).resolve_left (by simp)
  have isBlank : isBlank c := by
    have listed : c ∈ ' ' :: blanks := by simp [last]
    rcases mem_cons.1 listed with rfl | later
    · rfl
    · exact blank c later
  have apart : c ∉ "[]".toList := not_mem_of_any isBlank (by decide)
  have split : s ++ ' ' :: (blanks ++ t) = (s ++ init) ++ c :: t := by
    rw [← cons_append, last]
    simp
  rw [split, endsWith_append_of_not_mem apart]

theorem exists_trim_arrowHead (p first : Text) : ∃ rest,
    (arrowHead p ++ first).trim = '(' :: (p ++ ')' :: (" =>".toList ++ rest)) ∧
      arrowConstructor (" =>".toList ++ rest) = arrowConstructor first.trim := by
  have arrow : IsTrimmed ('(' :: ((p ++ [')', ' ']) ++ ['=', '>'])) :=
    isTrimmed_cons rfl _ ⟨by simp, rfl, rfl⟩
  have nothing : ∀ c ∈ ([] : Text), isBlank c := by simp
  obtain ⟨rest, trim, -, shape⟩ := exists_trim_append arrow nothing first
  refine ⟨rest, by simpa [arrowHead] using trim, ?_⟩
  rcases shape with ⟨rfl, empty⟩ | ⟨gap, blank, rfl⟩
  · rw [empty]
    rfl
  · rw [arrowConstructor, endsWith_blanks blank, arrowConstructor]

theorem memberConstructor_arrowHead {p : Text} (h : IsBalanced p) (first : Text) :
    isAbsent (arrowHead p ++ first).trim = false ∧
      memberConstructor (arrowHead p ++ first).trim = (arrowConstructor first.trim, true) := by
  obtain ⟨rest, trim, same⟩ := exists_trim_arrowHead p first
  have trimmed : IsTrimmed ('(' :: (p ++ ')' :: (" =>".toList ++ rest))) := by
    rw [← trim]
    exact isTrimmed_trim (by simp [trim])
  rw [trim, memberConstructor, dropParentheses_arrow h trimmed, constructorOf_arrow h, same]
  exact ⟨rfl, rfl⟩

theorem dropParentheses_arrowText {p r : Text} (h : IsBalanced p) (trimmed : r.IsTrimmed) :
    dropParentheses (arrowText p r) = arrowText p r ∧ (arrowText p r).IsTrimmed := by
  have split : arrowText p r = '(' :: (p ++ ')' :: (" =>".toList ++ ' ' :: r)) := by
    simp [arrowText]
  have whole : (arrowText p r).IsTrimmed := by
    have starts := @isTrimmed_cons '(' rfl (p ++ ") => ".toList) r trimmed
    rwa [append_assoc, ← append_assoc] at starts
  rw [split] at whole ⊢
  exact ⟨dropParentheses_arrow h whole, whole⟩

theorem found_arrowText {p r : Text} (h : IsBalanced p) (trimmed : r.IsTrimmed) :
    ∃ first others, alternatives r = first :: others ∧ found (arrowText p r) =
      (arrowConstructor first, true) :: (others.filter (!isAbsent ·)).map memberConstructor := by
  obtain ⟨first, others, result, whole⟩ := exists_segments_arrowText h r
  obtain ⟨present, constructor⟩ := memberConstructor_arrowHead h first
  refine ⟨first.trim, others.map trim, by rw [alternatives, result]; rfl, ?_⟩
  rw [found_eq, (dropParentheses_arrowText h trimmed).1, alternatives, whole, map_cons,
    filter_cons_of_pos (by simp [present]), map_cons, constructor]

theorem eraseDups_of_forall (ne : names ≠ []) (same : ∀ other ∈ names, other = name) :
    names.eraseDups = [name] := by
  obtain ⟨first, rest, rfl⟩ := exists_cons_of_ne_nil ne
  obtain rfl := same first (by simp)
  have none : rest.filter (fun other => !other == first) = [] := by
    simpa using (forall_mem_cons.1 same).2
  rw [eraseDups_cons, none]
  rfl

theorem count_eraseDups (name : Text) : (names : List Text) →
    names.eraseDups.count name = if name ∈ names then 1 else 0
  | [] => by simp
  | first :: rest => by
    have later := count_eraseDups name (rest.filter fun other => !other == first)
    rw [eraseDups_cons, count_cons, later]
    by_cases same : name = first
    · simp [same]
    · simp [same, Ne.symm same]
termination_by names => names.length
decreasing_by exact Nat.lt_succ_of_le (length_filter_le _ _)

theorem eq_of_listText (bare : name.head? ≠ some '[') (same : listText names = name) :
    names = [name] := by
  unfold listText at same
  split at same
  · rw [same]
  · exact absurd (by rw [← same]; rfl) bare

theorem ofType_of_annotated (annotated : (found type).any (·.2)) :
    constructors type ≠ [] ∧ ofType type =
      if "null".toList ∈ constructors type then ⟨"null", false⟩
      else ⟨listText (constructors type) ++ " as PropType<" ++ type.trim ++ ">", true⟩ := by
  have some : constructors type ≠ [] := by
    obtain ⟨f, listed, -⟩ := any_eq_true.1 annotated
    exact ne_nil_of_mem (mem_eraseDups.2 (mem_map_of_mem listed))
  have unchecked : isUnchecked type = decide ("null".toList ∈ constructors type) := by
    rw [isUnchecked, isEmpty_eq_false_iff.2 some]
    simp
  refine ⟨some, ?_⟩
  rw [ofType_eq, isAnnotated, baseText, unchecked, annotated]
  by_cases null : "null".toList ∈ constructors type
  · rw [decide_eq_true null, if_pos null]
    rfl
  · rw [decide_eq_false null, if_neg null]
    rfl

theorem ofType_eq_function_iff (annotated : (found type).any (·.2)) :
    ofType type = ⟨"Function as PropType<" ++ type.trim ++ ">", true⟩ ↔
      ∀ f ∈ found type, f.1 = "Function".toList := by
  obtain ⟨some, whole⟩ := ofType_of_annotated annotated
  rw [whole]
  constructor
  · intro same f listed
    have only : constructors type = ["Function".toList] := by
      split at same
      · cases congrArg needsPropType same
      · exact eq_of_listText (by decide) (append_cancel_right
          (append_cancel_right (append_cancel_right (congrArg expression same))))
    have member : f.1 ∈ constructors type := mem_eraseDups.2 (mem_map_of_mem listed)
    rw [only] at member
    exact mem_singleton.1 member
  · intro all
    have only : constructors type = ["Function".toList] := by
      refine eraseDups_of_forall (fun none => some ?_) fun name listed => ?_
      · rw [constructors, none]
        rfl
      · obtain ⟨f, member, rfl⟩ := mem_map.1 listed
        exact all f member
    rw [only]
    rfl

theorem ofType_arrowText_iff {p r : Text} (h : IsBalanced p) (trimmed : r.IsTrimmed) :
    ofType (arrowText p r) = ⟨"Function as PropType<" ++ arrowText p r ++ ">", true⟩ ↔
      (alternatives r).head?.any (·.endsWith "[]") = false ∧
      ∀ t ∈ (alternatives r).tail,
        isAbsent t ∨ (memberConstructor t).1 = "Function".toList := by
  obtain ⟨first, others, result, whole⟩ := found_arrowText h trimmed
  have iff := @ofType_eq_function_iff (arrowText p r) (by rw [whole]; rfl)
  rw [(dropParentheses_arrowText h trimmed).2.trim_self, whole, forall_mem_cons] at iff
  rw [iff, result, arrowConstructor_eq_function_iff]
  refine and_congr Iff.rfl ⟨fun all t listed => ?_, fun all f listed => ?_⟩
  · cases absent : isAbsent t with
    | true => exact .inl rfl
    | false =>
      exact .inr (all _ (mem_map_of_mem (mem_filter.2 ⟨listed, by simp [absent]⟩)))
  · obtain ⟨t, kept, rfl⟩ := mem_map.1 listed
    obtain ⟨member, present⟩ := mem_filter.1 kept
    exact (all t member).resolve_left (by simpa using present)

/-- A text that is one member of a union. -/
@[mk_iff] structure IsMember (t : Text) : Prop extends IsBalanced t where
  whole : '|' ∉ outer true 0 none (pieces t)

instance (t : Text) : Decidable (IsMember t) := decidable_of_iff' _ (isMember_iff t)

def unionText (members : List Text) : Text := intercalate "|" members

theorem unionText_cons (m : Text) (ne : members ≠ []) :
    unionText (m :: members) = m ++ '|' :: unionText members := by
  obtain ⟨m', members, rfl⟩ := exists_cons_of_ne_nil ne
  rfl

theorem IsBalanced.parts_bar (h : IsBalanced t) (u : Text) : Code.Parts t ('|' :: u) :=
  h.ends.before_plain (by decide) rfl (by decide) u

theorem segments_unionText (ne : members ≠ []) (all : ∀ m ∈ members, IsMember m)
    (before : Option Char) :
    segments ['|'] true 0 before (pieces (unionText members)) = members := by
  induction members generalizing before with
  | nil => exact absurd rfl ne
  | cons m members ih =>
    have h := all m (by simp)
    by_cases last : members = []
    · obtain ⟨-, same⟩ := depthAfter_before (h.level true) before
      rw [last, unionText, intercalate_singleton,
        segments_of_not_mem (by rw [same]; exact h.whole), flatten_pieces]
    · have later := ih last (forall_mem_cons.1 all).2 (some '|')
      rw [unionText_cons m last, segments_separated (by decide) rfl rfl (h.level true) h.whole
        (h.parts_bar _), later]

theorem outer_unionText (two : 1 < members.length) (all : ∀ m ∈ members, IsMember m) :
    outer false 0 none (pieces (unionText members)) ≠ [] := by
  cases members with
  | nil => cases two
  | cons m members =>
    have more : members ≠ [] := by
      rintro rfl
      exact absurd two (by simp)
    have h := all m (by simp)
    rw [unionText_cons m more, show pieces (m ++ '|' :: unionText members) = _ from
      h.parts_bar _, outer_append (h.level false), pieces_cons_of_isPlain rfl, outer]
    simp [isOpening, isClosing]

theorem found_unionText (two : 1 < members.length) (all : ∀ m ∈ members, IsMember m)
    (trimmed : (unionText members).IsTrimmed) :
    found (unionText members) =
      ((members.map trim).filter (!isAbsent ·)).map memberConstructor := by
  have ne : members ≠ [] := by
    rintro rfl
    cases two
  rw [found_eq, dropParentheses_of_outer trimmed (outer_unionText two all), alternatives,
    segments_unionText ne all]

theorem isLevel_blanks (blank : ∀ c ∈ t, isBlank c) (angles : Bool) :
    IsLevel angles t ∧ outer angles 0 none (pieces t) = t := by
  have plain : ∀ c ∈ t, isPlain c := fun c member =>
    isPlain_of_isBlank (blank c member)
  have flat : ∀ c ∈ t, isUnbracketed c := fun c member =>
    isUnbracketed_of_isBlank (blank c member)
  rw [IsLevel, pieces_of_isPlain plain]
  exact ⟨depthAfter_map_code flat 0 none, outer_map_code flat 0 none⟩

theorem isMember_parentheses (h : IsBalanced t) (same : m.trim = "(" ++ t ++ ")") : IsMember m := by
  obtain ⟨lead, tail, blankLead, blankTail, whole⟩ := exists_trim m
  rw [same, append_assoc lead] at whole
  have ends := (endsPlain_parentheses h).append (endsPlain_of_isBlank blankTail)
  have spec (angles : Bool) : IsLevel angles m ∧
      outer angles 0 none (pieces m) = lead ++ tail := by
    obtain ⟨levelLead, outerLead⟩ := isLevel_blanks blankLead angles
    obtain ⟨levelTail, outerTail⟩ := isLevel_blanks blankTail angles
    obtain ⟨level, none⟩ := isLevel_parentheses (h.level angles) h.ends
    obtain ⟨levelEnd, outerEnd⟩ := level.append ((endsPlain_parentheses h).parts tail) levelTail
    obtain ⟨levelAll, outerAll⟩ :=
      levelLead.append ((endsPlain_of_isBlank blankLead).parts _) levelEnd
    rw [outerEnd, none, outerLead, outerTail] at outerAll
    rw [whole]
    exact ⟨levelAll, outerAll⟩
  refine ⟨⟨fun angles => (spec angles).1, ?_⟩, ?_⟩
  · rw [whole]
    exact ((endsPlain_of_isBlank blankLead).append ends).parts _
  · rw [(spec true).2]
    intro member
    have blank : isBlank '|' := (mem_append.1 member).elim (blankLead '|') (blankTail '|')
    exact absurd blank (by decide)

theorem memberConstructor_parentheses {p r : Text} (parameters : IsBalanced p)
    (result : IsBalanced r) (trimmed : r.IsTrimmed) (same : m.trim = "(" ++ arrowText p r ++ ")") :
    memberConstructor m = (arrowConstructor r, true) := by
  have split : arrowText p r = '(' :: (p ++ ')' :: (" =>".toList ++ ' ' :: r)) := by
    simp [arrowText]
  have ends : arrowConstructor (" =>".toList ++ ' ' :: r) = arrowConstructor r := by
    rw [arrowConstructor, endsWith_append_of_not_mem (by simp), arrowConstructor]
  rw [← memberConstructor_trim, same, memberConstructor]
  have inside := dropParentheses_enclosed (parameters.arrowText result)
  rw [(dropParentheses_arrowText parameters trimmed).2.trim_self] at inside
  rw [show "(".toList ++ arrowText p r ++ ")".toList = '(' :: (arrowText p r ++ [')']) from rfl,
    inside, split, constructorOf_arrow parameters, ends]

/-- The function type `arrow` in parentheses, in a union with other members. -/
structure IsFunctionUnion (arrow : Text) (before : List Text) (member : Text) (after : List Text) :
    Prop where
  arrow : member.trim = "(" ++ arrow ++ ")"
  others : before ++ after ≠ []
  members : ∀ m ∈ before ++ after, IsMember m
  trimmed : (unionText (before ++ member :: after)).IsTrimmed

namespace IsFunctionUnion

variable {p r member : Text} {before after : List Text}

section

variable (h : IsFunctionUnion (arrowText p r) before member after)

include h

theorem found_eq (parameters : IsBalanced p) (result : IsBalanced r) :
    found (unionText (before ++ member :: after)) =
      (((before ++ member :: after).map trim).filter (!isAbsent ·)).map memberConstructor := by
  refine found_unionText ?_ (fun m listed => ?_) h.trimmed
  · have some := length_pos_iff.2 h.others
    simp only [length_append, length_cons] at some ⊢
    omega
  · rcases mem_append.1 listed with first | later
    · exact h.members m (by simp [first])
    · rcases mem_cons.1 later with rfl | last
      · exact isMember_parentheses (parameters.arrowText result) h.arrow
      · exact h.members m (by simp [last])

theorem mem_found (parameters : IsBalanced p) (result : IsBalanced r) (trimmed : r.IsTrimmed) :
    (arrowConstructor r, true) ∈ found (unionText (before ++ member :: after)) := by
  have present : isAbsent member.trim = false := by
    rw [h.arrow]
    rfl
  have listed : member.trim ∈ (before ++ member :: after).map trim := mem_map_of_mem (by simp)
  rw [h.found_eq parameters result, ← memberConstructor_parentheses parameters result trimmed
    h.arrow, ← memberConstructor_trim]
  exact mem_map_of_mem (mem_filter.2 ⟨listed, by simp [present]⟩)

theorem function_mem_iff
    (parameters : IsBalanced p) (result : IsBalanced r) (trimmed : r.IsTrimmed) :
    "Function".toList ∈ (found (unionText (before ++ member :: after))).map (·.1) ↔
      r.endsWith "[]" = false ∨
        ∃ m ∈ before ++ after, (memberConstructor m).1 = "Function".toList := by
  have own := memberConstructor_parentheses parameters result trimmed h.arrow
  constructor
  · intro listed
    rw [h.found_eq parameters result, map_map] at listed
    obtain ⟨t, kept, function⟩ := mem_map.1 listed
    obtain ⟨m, listed, rfl⟩ := mem_map.1 (mem_filter.1 kept).1
    rw [Function.comp, memberConstructor_trim] at function
    rcases mem_append.1 listed with first | later
    · exact .inr ⟨m, by simp [first], function⟩
    · rcases mem_cons.1 later with rfl | last
      · rw [own] at function
        exact .inl (arrowConstructor_eq_function_iff.1 function)
      · exact .inr ⟨m, by simp [last], function⟩
  · rintro (noArray | ⟨m, listed, function⟩)
    · rw [← arrowConstructor_eq_function_iff.2 noArray]
      exact mem_map_of_mem (h.mem_found parameters result trimmed)
    · have listed : m ∈ before ++ member :: after := by
        rcases mem_append.1 listed with first | last
        · simp [first]
        · simp [last]
      rw [← memberConstructor_trim] at function
      have present := isAbsent_of_function function
      rw [h.found_eq parameters result, ← function]
      exact mem_map_of_mem (mem_map_of_mem
        (mem_filter.2 ⟨mem_map_of_mem listed, by simp [present]⟩))

end

end IsFunctionUnion

/-- A function type becomes `Function`, annotated with it, exactly if the first alternative of its
result does not end as an array does and no other one is taken for a member that is no function. In
parentheses in a union it gives `Function` once exactly if its result does not end as an array does
or another member is a function. -/
theorem ofType_arrowText {p r : Text} (parameters : IsBalanced p) (result : IsBalanced r)
    (trimmed : r.IsTrimmed) :
    (ofType (arrowText p r) = ⟨"Function as PropType<" ++ arrowText p r ++ ">", true⟩ ↔
      (alternatives r).head?.any (·.endsWith "[]") = false ∧
      ∀ t ∈ (alternatives r).tail,
        isAbsent t = true ∨ (memberConstructor t).1 = "Function".toList) ∧
    ∀ (before : List Text) (member : Text) (after : List Text) (union : Text),
      IsFunctionUnion (arrowText p r) before member after →
      union = unionText (before ++ member :: after) →
      ofType union = (if "null".toList ∈ constructors union then ⟨"null", false⟩
        else ⟨listText (constructors union) ++ " as PropType<" ++ union ++ ">", true⟩) ∧
      ((constructors union).count "Function".toList = 1 ↔
        r.endsWith "[]" = false ∨
          ∃ m ∈ before ++ after, (memberConstructor m).1 = "Function".toList) := by
  refine ⟨ofType_arrowText_iff parameters trimmed, ?_⟩
  rintro before member after union h rfl
  have annotated : (found (unionText (before ++ member :: after))).any (·.2) = true :=
    any_eq_true.2 ⟨_, h.mem_found parameters result trimmed, rfl⟩
  have whole := (ofType_of_annotated annotated).2
  rw [h.trimmed.trim_self] at whole
  refine ⟨whole, ?_⟩
  rw [constructors, count_eraseDups, ← h.function_mem_iff parameters result trimmed]
  split
  · next listed => exact ⟨fun _ => listed, fun _ => rfl⟩
  · next absent => exact ⟨fun one => absurd one Nat.zero_ne_one, fun listed => absurd listed absent⟩

def lookupParameters : Text := "key: string, by?: Map<K, '|'>"

def lookupResult : Text := "Promise<A | B> | undefined"

def lookupMember : Text := " (" ++ arrowText lookupParameters lookupResult ++ ") "

theorem isBalanced_lookupParameters : IsBalanced lookupParameters := by decide +kernel

theorem isBalanced_lookupResult : IsBalanced lookupResult := by decide +kernel

theorem isFunctionUnion_lookup : IsFunctionUnion (arrowText lookupParameters lookupResult)
    ["string "] lookupMember [" number[]"] where
  arrow := by decide +kernel
  others := by simp
  members := by decide +kernel
  trimmed := ⟨by decide +kernel, by decide +kernel, by decide +kernel⟩

theorem ofType_arrowText_lookup :
    IsBalanced lookupParameters ∧ IsBalanced lookupResult ∧ lookupResult.IsTrimmed ∧
    IsFunctionUnion (arrowText lookupParameters lookupResult) ["string "] lookupMember
      [" number[]"] ∧
    ofType (arrowText lookupParameters lookupResult) =
      ⟨"Function as PropType<" ++ arrowText lookupParameters lookupResult ++ ">", true⟩ ∧
    (constructors (unionText ["string ", lookupMember, " number[]"])).count "Function".toList =
      1 := by
  have trimmed : lookupResult.IsTrimmed := ⟨by decide, rfl, rfl⟩
  obtain ⟨alone, inUnion⟩ :=
    ofType_arrowText isBalanced_lookupParameters isBalanced_lookupResult trimmed
  have union := inUnion _ _ _ _ isFunctionUnion_lookup rfl
  refine ⟨isBalanced_lookupParameters, isBalanced_lookupResult, trimmed, isFunctionUnion_lookup,
    alone.2 ⟨by decide +kernel, by decide +kernel⟩, union.2.2 (.inl (by decide +kernel))⟩

/-- A union as a result is split at its bar, and an array as a result hides the function. -/
theorem ofType_arrowText_misread :
    IsBalanced "a: string" ∧ IsBalanced "string | number" ∧ IsBalanced "string[]" ∧
    ofType (arrowText "a: string" "string | number") =
      ⟨"[Function, Number] as PropType<(a: string) => string | number>", true⟩ ∧
    ofType (arrowText "a: string" "string[]") =
      ⟨"Array as PropType<(a: string) => string[]>", true⟩ ∧
    ofType "((a: string) => string[]) | string" =
      ⟨"[Array, String] as PropType<((a: string) => string[]) | string>", true⟩ := by
  decide +kernel

end Options.RuntimeType

end SfcJsx
