import SfcJsx.Proofs.OperandScan
import SfcJsx.Proofs.Requalify

/-!
Conditionals and statements that are qualified as a whole, and operand by operand. The two give the
same text exactly when no name that changes in its operand is bound in the whole expression. Such a
name can be bound there in two ways. The body of an arrow function is taken to reach past the end of
its operand, up to the next comma; and behind a parenthesis and a colon, any later arrow makes the
parenthesis a parameter list.
-/

namespace SfcJsx.Expression

open List

variable {s : Scan} {rest : List (Text × Text)} {first separator expression before : Text}
  {c : Char}

def separators : List Text := [" ? ", " : ", "; "]

theorem apart_separator (listed : separator ∈ separators) (t : Text) : Apart (separator ++ t) := by
  simp only [separators, mem_cons, not_mem_nil, or_false] at listed
  rcases listed with rfl | rfl | rfl <;> exact ⟨rfl, rfl, by simp, rfl⟩

theorem segmentsFrom_mark (mark : c ∈ ['?', ':', ';'])
    (outside : s.frames = []) (t : Text) :
    ∃ next : Scan, segmentsFrom s (c :: ' ' :: t) =
        ⟨[c], none⟩ :: ⟨[' '], none⟩ :: segmentsFrom next t ∧ Tracks {} next := by
  have calm : c ∉ ',' :: delimiters ∧ Text.isIdentStart c = false ∧ c.isDigit = false ∧
      Text.isBlank c = false ∧ c ∉ '>' :: turningChars ∧ c ≠ '.' := by
    simp only [mem_cons, not_mem_nil, or_false] at mark
    rcases mark with rfl | rfl | rfl <;> decide
  obtain ⟨plain, start, digit, solid, still, other⟩ := calm
  have blank : Text.isBlank ' ' := by decide
  have first := reads_mark plain start digit solid s (' ' :: t)
  have second := reads_blank blank { s.mark c with seen := c :: s.seen } t
  have settled := settled_mark s still
  refine ⟨_, by rw [first.segments, second.segments], ⟨?_, ?_, .nil, ?_⟩, ?_⟩
  · refine ⟨outside.symm, settled.afterArrow.symm, fun d turning => iff_of_false ?_ ?_⟩
    · simp
    · exact settled.previous d turning
  · exact nil_subset _
  · exact fun arrow inForce => absurd inForce not_mem_nil
  · intro more
    have nothing : more ++ ({} : Scan).seen = more := append_nil more
    rw [nothing]
    refine (isMemberAfter_append_of_head? ?_ ?_ more).symm
    · exact fun same => absurd (Option.some.inj same) (by decide)
    · rw [dropWhile_cons_of_pos blank, dropWhile_cons_of_neg (by simp [solid])]
      exact fun same => other (Option.some.inj same)

def separatorSegments (separator : Text) : List Segment := separator.map fun c => ⟨[c], none⟩

theorem flatMap_separatorSegments {copy : Segment → Text}
    (copies : ∀ text, copy ⟨text, none⟩ = text)
    (separator : Text) : (separatorSegments separator).flatMap copy = separator := by
  rw [separatorSegments, flatMap_map]
  simp only [copies]
  exact flatMap_singleton' separator

theorem segmentsFrom_separator (listed : separator ∈ separators) (outside : s.frames = [])
    (t : Text) :
    ∃ next : Scan, segmentsFrom s (separator ++ t) =
        separatorSegments separator ++ segmentsFrom next t ∧ Tracks {} next := by
  have blank (t : Text) := reads_blank (c := ' ') (by decide) s t
  simp only [separators, mem_cons, not_mem_nil, or_false] at listed
  rcases listed with rfl | rfl | rfl
  · obtain ⟨next, read, fresh⟩ := segmentsFrom_mark (c := '?') (by decide)
      (s := { s with seen := ' ' :: s.seen }) outside t
    exact ⟨next, (blank ('?' :: ' ' :: t)).segments.trans (congrArg _ read), fresh⟩
  · obtain ⟨next, read, fresh⟩ := segmentsFrom_mark (c := ':') (by decide)
      (s := { s with seen := ' ' :: s.seen }) outside t
    exact ⟨next, (blank (':' :: ' ' :: t)).segments.trans (congrArg _ read), fresh⟩
  · exact segmentsFrom_mark (c := ';') (by decide) outside t

def joined (first : Text) (rest : List (Text × Text)) : Text :=
  first ++ rest.flatMap fun part => part.1 ++ part.2

def segmentsApart (first : Text) (rest : List (Text × Text)) : List Segment :=
  segments first ++ rest.flatMap fun part => separatorSegments part.1 ++ segments part.2

theorem segmentsApart_cons (first : Text) (part : Text × Text) (rest : List (Text × Text)) :
    segmentsApart first (part :: rest) =
      segments first ++ (separatorSegments part.1 ++ segmentsApart part.2 rest) := by
  simp only [segmentsApart, flatMap_cons, append_assoc]

theorem bindsMore_separatorSegments (separator : Text) :
    List.Forall₂ Segment.BindsMore (separatorSegments separator) (separatorSegments separator) := by
  rw [separatorSegments, forall₂_map_left_iff, forall₂_map_right_iff, forall₂_same]
  exact fun c _ => ⟨rfl, .copied⟩

theorem bindsMore_joined (balanced : IsBalanced first)
    (each : ∀ part ∈ rest, part.1 ∈ separators ∧ IsBalanced part.2) (fresh : Tracks {} s) :
    List.Forall₂ Segment.BindsMore (segmentsApart first rest)
      (segmentsFrom s (joined first rest)) := by
  induction rest generalizing first s with
  | nil =>
    obtain ⟨items, next, read, binds, -⟩ := exists_bindsMore apart_nil fresh balanced
    have whole : segmentsFrom s (joined first []) = items := by
      rw [joined, flatMap_nil, read, segmentsFrom, append_nil]
    rw [whole, segmentsApart, flatMap_nil, append_nil]
    exact binds
  | cons part rest ih =>
    obtain ⟨listed, inner⟩ := each part mem_cons_self
    have apart := apart_separator listed (joined part.2 rest)
    obtain ⟨items, next, read, binds, outside⟩ := exists_bindsMore apart fresh balanced
    obtain ⟨again, readOn, freshAgain⟩ := segmentsFrom_separator listed outside (joined part.2 rest)
    have later := ih inner (forall_mem_cons.1 each).2 freshAgain
    have whole : joined first (part :: rest) = first ++ (part.1 ++ joined part.2 rest) := by
      simp only [joined, flatMap_cons, append_assoc]
    rw [whole, segmentsApart_cons, read, readOn]
    exact rel_append binds (rel_append (bindsMore_separatorSegments part.1) later)

section Weight

variable {env : Environment}

def solidLength (t : Text) : Nat := t.countP (· != '$')

theorem solidLength_append (s t : Text) : solidLength (s ++ t) = solidLength s + solidLength t :=
  countP_append

theorem solidLength_pos (other : c ≠ '$') (t : Text) : 0 < solidLength (c :: t) :=
  countP_pos_iff.2 ⟨c, mem_cons_self, by simpa using other⟩

/-- How what a free name becomes differs from the name: not at all, or it has lost its `$`, or it
has more characters other than `$`. -/
def Outweighs (free bound : Text) : Prop :=
  free = bound ∨ '$' :: free = bound ∨ solidLength bound < solidLength free

theorem outweighs_of_outcome {name result : Text} {use : NameUse}
    (outcome : Outcome env name use result) : Outweighs result name := by
  have longer {c : Char} (other : c ≠ '$') (more : Text) :
      solidLength name < solidLength (name ++ c :: more) := by
    have := solidLength_pos other more
    rw [solidLength_append]
    omega
  cases outcome with
  | same => exact .inl rfl
  | special listed =>
    have dollars : ∀ entry ∈ specialNames, '$' :: entry.2 = entry.1 := by decide
    exact .inr (.inl (dollars _ listed))
  | input =>
    have := solidLength_pos (c := 'p') (by decide) ['r', 'o', 'p', 's', '.']
    refine .inr (.inr ?_)
    rw [append_cons, solidLength_append]
    exact Nat.lt_add_of_pos_left this
  | inputShorthand | reference | referenceShorthand => exact .inr (.inr (longer (by decide) _))

theorem outweighs_text (segment : Segment) : Outweighs (segment.qualified env) segment.text := by
  obtain ⟨text, use⟩ := segment
  cases use with
  | none => exact .inl rfl
  | some use =>
    rw [qualified_name]
    exact outweighs_of_outcome (outcome_qualifiedName env text use)

theorem eq_of_flatten_eq {free bound : List Text} (outweigh : List.Forall₂ Outweighs free bound)
    (same : free.flatten = bound.flatten) : free = bound := by
  have weighs : solidLength bound.flatten ≤ solidLength free.flatten ∧
      (solidLength bound.flatten = solidLength free.flatten →
        free.flatten.length ≤ bound.flatten.length ∧
          (free.flatten.length = bound.flatten.length → free = bound)) := by
    clear same
    induction outweigh with
    | nil => exact ⟨Nat.le_refl _, fun _ => ⟨Nat.le_refl _, fun _ => rfl⟩⟩
    | @cons f b free bound first _ ih =>
      obtain ⟨solid, later⟩ := ih
      simp only [flatten_cons, solidLength_append, length_append]
      rcases first with rfl | rfl | less
      · refine ⟨by omega, fun even => ?_⟩
        obtain ⟨short, rest⟩ := later (by omega)
        exact ⟨by omega, fun long => by rw [rest (by omega)]⟩
      · have dollar : solidLength ('$' :: f) = solidLength f := countP_cons_of_neg (by simp)
        simp only [length_cons]
        exact ⟨by omega, fun long => by omega⟩
      · exact ⟨by omega, fun even => by omega⟩
  rw [same] at weighs
  exact (weighs.2 rfl).2 rfl

end Weight

section Capture

variable {env : Environment}

theorem BindsMore.eq_or {use₀ use : Option NameUse} (h : BindsMore use₀ use) :
    use = use₀ ∨ use.any (·.isBound) := by
  cases h with
  | copied => exact .inl rfl
  | @name use₀ use place unwrapped bound =>
    obtain ⟨isBound, _, _⟩ := use
    obtain ⟨isBound₀, _, _⟩ := use₀
    cases isBound with
    | true => exact .inr rfl
    | false =>
      cases isBound₀ with
      | true => cases bound rfl
      | false =>
        cases place
        cases unwrapped
        exact .inl rfl

theorem qualified_of_isBound {segment : Segment} (bound : segment.use.any (·.isBound)) :
    segment.qualified env = segment.text := by
  obtain ⟨text, use⟩ := segment
  cases use with
  | none => cases bound
  | some use =>
    rw [qualified_name]
    exact qualifiedName_of_isBound bound

namespace Segment.BindsMore

variable {alone inside : Segment}

section

variable (h : Segment.BindsMore alone inside)

include h

theorem eq_or : inside = alone ∨ inside.use.any (·.isBound) := by
  obtain ⟨text, use⟩ := inside
  obtain ⟨rfl, use⟩ := h
  rcases use.eq_or with rfl | bound
  · exact .inl rfl
  · exact .inr bound

theorem outweighs : Outweighs (alone.qualified env) (inside.qualified env) := by
  rcases h.eq_or with rfl | bound
  · exact .inl rfl
  · rw [qualified_of_isBound bound, h.text]
    exact outweighs_text alone

theorem qualified_eq_iff :
    alone.qualified env = inside.qualified env ↔
      (alone.qualified env ≠ alone.text → inside.use.any (·.isBound) = false) := by
  constructor
  · intro same changes
    cases bound : inside.use.any (·.isBound) with
    | false => rfl
    | true =>
      rw [qualified_of_isBound bound, h.text] at same
      exact absurd same changes
  · intro free
    rcases h.eq_or with rfl | bound
    · rfl
    · by_cases kept : alone.qualified env = alone.text
      · rw [qualified_of_isBound bound, h.text, kept]
      · rw [free kept] at bound
        cases bound

end

end Segment.BindsMore

theorem flatMap_qualified_eq_iff {alone inside : List Segment}
    (binds : List.Forall₂ Segment.BindsMore alone inside) :
    alone.flatMap (·.qualified env) = inside.flatMap (·.qualified env) ↔
      List.Forall₂ (fun a b => a.qualified env ≠ a.text → b.use.any (·.isBound) = false)
        alone inside := by
  have oneByOne : alone.flatMap (·.qualified env) = inside.flatMap (·.qualified env) ↔
      alone.map (·.qualified env) = inside.map (·.qualified env) := by
    refine ⟨eq_of_flatten_eq ?_, congrArg flatten⟩
    rw [forall₂_map_left_iff, forall₂_map_right_iff]
    exact binds.imp fun _ _ bindsMore => bindsMore.outweighs
  rw [oneByOne]
  clear oneByOne
  induction binds with
  | nil => exact iff_of_true rfl .nil
  | cons first _ ih =>
    rw [map_cons, map_cons, cons.injEq, forall₂_cons]
    exact and_congr first.qualified_eq_iff ih

/-- Whether an expression has a bound name right behind the text `before`. -/
def isBoundBehind (expression before : Text) : Bool :=
  (occurrences [] (segments expression)).any fun place =>
    place.1 == before && place.2.use.any (·.isBound)

/-- Whether some name of an operand changes when the operand is qualified alone, but is bound in the
expression that has the operand behind the text `before`. -/
def captures (env : Environment) (expression before operand : Text) : Bool :=
  (occurrences [] (segments operand)).any fun place =>
    place.2.qualified env != place.2.text && isBoundBehind expression (before ++ place.1)

/-- Whether no name is captured in an expression that has these operands behind `before`. -/
def Uncaptured (env : Environment) (expression before first : Text) : List (Text × Text) → Prop
  | [] => captures env expression before first = false
  | part :: rest => captures env expression before first = false ∧
      Uncaptured env expression (before ++ first ++ part.1) part.2 rest

theorem length_le_of_mem_occurrences {items : List Segment} {place : Text × Segment}
    (inside : place ∈ occurrences before items) : before.length ≤ place.1.length := by
  induction items generalizing before with
  | nil => cases inside
  | cons segment items ih =>
    rcases mem_cons.1 inside with rfl | inside
    · exact Nat.le_refl _
    · have := ih inside
      rw [length_append] at this
      omega

theorem occurrences_append (before : Text) (first later : List Segment) :
    occurrences before (first ++ later) =
      occurrences before first ++ occurrences (before ++ first.flatMap (·.text)) later := by
  induction first generalizing before with
  | nil => simp [occurrences]
  | cons segment first ih => simp [occurrences, ih]

theorem occurrences_behind (before earlier : Text) (items : List Segment) :
    occurrences (before ++ earlier) items =
      (occurrences earlier items).map fun place => (before ++ place.1, place.2) := by
  induction items generalizing earlier with
  | nil => rfl
  | cons segment items ih =>
    rw [occurrences, occurrences, map_cons, append_assoc, ih]

theorem forall₂_iff_places {R : Segment → Segment → Prop} {alone inside : List Segment}
    (binds : List.Forall₂ Segment.BindsMore alone inside)
    (solid : ∀ segment ∈ alone, segment.text ≠ []) (before : Text) :
    List.Forall₂ R alone inside ↔ ∀ place ∈ occurrences before alone,
      ∀ there ∈ occurrences before inside, there.1 = place.1 → R place.2 there.2 := by
  induction binds generalizing before with
  | nil => exact ⟨fun _ _ member => absurd member not_mem_nil, fun _ => .nil⟩
  | @cons a b alone inside first _ ih =>
    obtain ⟨firstSolid, laterSolid⟩ := forall_mem_cons.1 solid
    have positive := length_pos_iff.2 firstSolid
    have behind {place : Text × Segment} {items : List Segment}
        (member : place ∈ occurrences (before ++ a.text) items) : place.1 ≠ before := by
      rintro same
      have := length_le_of_mem_occurrences member
      rw [same, length_append] at this
      omega
    rw [forall₂_cons, ih laterSolid (before ++ a.text), occurrences, occurrences, first.text]
    constructor
    · rintro ⟨related, later⟩ place member there memberThere same
      rcases mem_cons.1 member with rfl | member
      · rcases mem_cons.1 memberThere with rfl | memberThere
        · exact related
        · exact absurd same (behind memberThere)
      · rcases mem_cons.1 memberThere with rfl | memberThere
        · exact absurd same.symm (behind member)
        · exact later place member there memberThere same
    · intro every
      refine ⟨every _ mem_cons_self _ mem_cons_self rfl, ?_⟩
      intro place member there memberThere
      exact every place (mem_cons_of_mem _ member) there (mem_cons_of_mem _ memberThere)

theorem text_ne_nil {t : Text} : ∀ segment ∈ segmentsFrom s t, segment.text ≠ [] := by
  fun_induction segmentsFrom s t with
  | case1 => exact fun _ member => absurd member not_mem_nil
  | case2 s c rest more use next h text ih =>
    rintro segment (_ | ⟨_, member⟩)
    · exact cons_ne_nil _ _
    · exact ih segment member

theorem text_ne_nil_of_mem_segmentsApart :
    ∀ segment ∈ segmentsApart first rest, segment.text ≠ [] := by
  intro segment member
  rw [segmentsApart, mem_append, mem_flatMap] at member
  rcases member with member | ⟨part, -, member⟩
  · exact text_ne_nil segment member
  · rcases mem_append.1 member with member | member
    · obtain ⟨c, -, rfl⟩ := mem_map.1 member
      exact cons_ne_nil _ _
    · exact text_ne_nil segment member

theorem flatMap_qualified_segmentsApart (first : Text) (rest : List (Text × Text))
    (found : Findings) : (segmentsApart first rest).flatMap (·.qualified env) =
      joined (qualify first env found).1
        (rest.map fun part => (part.1, (qualify part.2 env found).1)) := by
  rw [segmentsApart, joined, flatMap_append, qualify_text, flatMap_assoc, flatMap_map]
  congr 1
  apply flatMap_congr
  intro part _
  rw [flatMap_append, flatMap_separatorSegments qualified_copied, qualify_text]
  rfl

theorem captures_eq_false_iff {operand : Text} :
    captures env expression before operand = false ↔
      ∀ place ∈ occurrences before (segments operand),
        place.2.qualified env ≠ place.2.text → isBoundBehind expression place.1 = false := by
  rw [captures, any_eq_false, ← append_nil before, occurrences_behind, append_nil, forall_mem_map]
  refine forall₂_congr fun place _ => ?_
  rw [Bool.and_eq_true, bne_iff_ne, not_and, Bool.not_eq_true]

theorem uncaptured_iff (before : Text) :
    Uncaptured env expression before first rest ↔
      ∀ place ∈ occurrences before (segmentsApart first rest),
        place.2.qualified env ≠ place.2.text → isBoundBehind expression place.1 = false := by
  induction rest generalizing before first with
  | nil =>
    rw [segmentsApart, flatMap_nil, append_nil]
    exact captures_eq_false_iff
  | cons part rest ih =>
    have operand : (segments first).flatMap (·.text) = first := flatMap_segmentsFrom {} first
    have separator :=
      flatMap_separatorSegments (fun _ => rfl : ∀ text, Segment.text ⟨text, none⟩ = _)
    -- A separator has no names, so that nothing is asked of its places.
    have copied : ∀ place ∈ occurrences (before ++ first) (separatorSegments part.1),
        place.2.qualified env ≠ place.2.text → isBoundBehind expression place.1 = false := by
      intro place member changes
      obtain ⟨c, -, same⟩ := mem_map.1 (mem_of_mem_occurrences member)
      rw [← same] at changes
      exact absurd rfl changes
    rw [Uncaptured, ih, captures_eq_false_iff, segmentsApart_cons, occurrences_append,
      occurrences_append, forall_mem_append, forall_mem_append, operand, separator]
    exact and_congr_right fun _ => (and_iff_right copied).symm

theorem qualify_joined_iff (found : Findings) (balanced : IsBalanced first)
    (each : ∀ part ∈ rest, part.1 ∈ separators ∧ IsBalanced part.2) :
    (qualify (joined first rest) env found).1 =
        joined (qualify first env found).1
          (rest.map fun part => (part.1, (qualify part.2 env found).1)) ↔
      Uncaptured env (joined first rest) [] first rest := by
  have fresh : Tracks {} {} := ⟨⟨⟨rfl, rfl, fun _ _ => Iff.rfl⟩, List.Subset.refl _, .nil,
    fun _ inForce => absurd inForce not_mem_nil⟩, fun _ => rfl⟩
  have binds := bindsMore_joined balanced each fresh
  rw [← flatMap_qualified_segmentsApart, qualify_text, eq_comm, qualifiedFrom,
    flatMap_qualified_eq_iff binds, forall₂_iff_places binds text_ne_nil_of_mem_segmentsApart [],
    uncaptured_iff]
  refine forall₂_congr fun place _ => ?_
  rw [isBoundBehind, any_eq_false]
  constructor
  · intro free changes there member here
    rw [Bool.and_eq_true, beq_iff_eq] at here
    rw [free there member here.1 changes] at here
    cases here.2
  · intro free there member same changes
    have unbound := free changes there member
    rwa [same, beq_self_eq_true, Bool.not_eq_true] at unbound

end Capture

/-- A conditional becomes what its operands become, and two statements become what each of them
becomes, exactly when no name that changes in its operand is bound in the whole expression. -/
theorem qualify_compositional_iff (env : Environment) (found : Findings) {c t f : Text}
    (condition : IsBalanced c) (consequent : IsBalanced t) (alternative : IsBalanced f) :
    ((qualify (c ++ " ? " ++ t ++ " : " ++ f) env found).1 =
        (qualify c env found).1 ++ " ? " ++ (qualify t env found).1 ++ " : " ++
          (qualify f env found).1 ↔
      captures env (c ++ " ? " ++ t ++ " : " ++ f) [] c = false ∧
        captures env (c ++ " ? " ++ t ++ " : " ++ f) (c ++ " ? ") t = false ∧
        captures env (c ++ " ? " ++ t ++ " : " ++ f) (c ++ " ? " ++ t ++ " : ") f = false) ∧
    ((qualify (t ++ "; " ++ f) env found).1 =
        (qualify t env found).1 ++ "; " ++ (qualify f env found).1 ↔
      captures env (t ++ "; " ++ f) [] t = false ∧
        captures env (t ++ "; " ++ f) (t ++ "; ") f = false) := by
  have conditional (c t f : Text) : c ++ " ? " ++ t ++ " : " ++ f =
      joined c [(" ? ", t), (" : ", f)] := by
    simp only [joined, flatMap_cons, flatMap_nil, append_assoc, append_nil]
  have sequence (t f : Text) : t ++ "; " ++ f = joined t [("; ", f)] := by
    simp only [joined, flatMap_cons, flatMap_nil, append_assoc, append_nil]
  constructor
  · have operands : ∀ part ∈ [((" ? " : Text), t), (" : ", f)],
        part.1 ∈ separators ∧ IsBalanced part.2 := by
      simp [separators, consequent, alternative]
    rw [conditional, conditional]
    exact qualify_joined_iff found condition operands
  · have operands : ∀ part ∈ [(("; " : Text), f)], part.1 ∈ separators ∧ IsBalanced part.2 := by
      simp [separators, alternative]
    rw [sequence, sequence]
    exact qualify_joined_iff found consequent operands

/-- The parameter `id` is in force between the parentheses only. -/
theorem qualify_compositional_closedArrow :
    (qualify "label ? list.map(id => id) : id" counterEnvironment {}).1 =
        "props.label ? list.map(id => id) : id.value".toList ∧
      (qualify "list.map(id => id); id" counterEnvironment {}).1 =
        "list.map(id => id); id.value".toList := by
  obtain ⟨conditional, sequence⟩ := @qualify_compositional_iff counterEnvironment {} "label"
    "list.map(id => id)" "id" (by decide +kernel) (by decide +kernel) (by decide)
  exact ⟨(conditional.2 (by decide +kernel)).trans (by decide +kernel),
    (sequence.2 (by decide +kernel)).trans (by decide +kernel)⟩

/-- The parameter `id` stays in force behind the semicolon and behind the colon. -/
theorem qualify_compositional_openArrow :
    (IsBalanced "id => id" ∧ IsBalanced "id" ∧ IsBalanced "a") ∧
      (qualify "id => id; id" counterEnvironment {}).1 = "id => id; id".toList ∧
      (qualify "id => id" counterEnvironment {}).1 ++ "; " ++
          (qualify "id" counterEnvironment {}).1 = "id => id; id.value".toList ∧
      (qualify "a ? id => id : id" counterEnvironment {}).1 = "a.value ? id => id : id".toList ∧
      (qualify "a" counterEnvironment {}).1 ++ " ? " ++
          (qualify "id => id" counterEnvironment {}).1 ++ " : " ++
          (qualify "id" counterEnvironment {}).1 =
        "a.value ? id => id : id.value".toList := by
  decide +kernel

/-- Behind a parenthesis and a colon any arrow will do, so that `id` is taken for a parameter. -/
example :
    (qualify "a ? (id) : x => x" counterEnvironment {}).1 = "a.value ? (id) : x => x".toList ∧
      (qualify "(id)" counterEnvironment {}).1 = "(id.value)".toList := by
  decide +kernel

end SfcJsx.Expression
