import Mathlib.Data.List.Chain
import SfcJsx.Markup.Token

/-!
Where a source can be cut without cutting a token. Two neighbouring characters belong to one token
only if they `join`; between two that do not, the tokens of the whole are the tokens of the parts.
-/

namespace SfcJsx.Markup.Token

open List Text

variable {c : Char} {rest s t : Text} {kind : TokenKind}

def joins (a b : Char) : Bool :=
  (isNameChar a && isNameChar b) || (a == '<' && (b == '!' || b == '/')) ||
    (a == '/' && b == '>') || (a == '{' && b == '{') || (a == '}' && b == '}')

theorem joins_bracket (a : Char) : joins a '<' = false := by
  simp [joins, isNameChar, isPunctuation]

theorem lead_of_isNameChar (named : isNameChar c) (rest : Text) :
    lead c rest = (.name, (rest.takeWhile isNameChar).length) := by
  unfold lead
  split
  all_goals first | rfl | exact absurd named (by decide)

theorem eq_of_not_isNameChar (kept : isSkipped c = false) (h : isNameChar c = false) :
    c = '\n' ∨ c = '"' ∨ c = '\'' ∨ c = '<' ∨ c = '>' ∨ c = '/' ∨ c = '=' ∨ c = '{' ∨ c = '}' := by
  simpa only [isNameChar, kept, isPunctuation, Bool.false_or, Bool.not_eq_false', Bool.or_eq_true,
    beq_iff_eq, or_assoc] using h

theorem isChain_name (named : isNameChar c) (all : ∀ d ∈ t, isNameChar d) :
    List.IsChain (fun a b => joins a b) (c :: t) := by
  induction t generalizing c with
  | nil => exact .singleton c
  | cons d t ih =>
    have next := all d (by simp)
    refine .cons_cons (by simp [joins, named, next]) (ih next ?_)
    intro e member
    exact all e (by simp [member])

theorem isChain_lead (kept : isSkipped c = false) (rest : Text) :
    List.IsChain (fun a b => joins a b) (c :: rest.take (lead c rest).2) := by
  by_cases named : isNameChar c
  · rw [lead_of_isNameChar named]
    have run : rest.take (rest.takeWhile isNameChar).length = rest.takeWhile isNameChar :=
      (prefix_iff_eq_take.1 (List.takeWhile_prefix _)).symm
    rw [run]
    exact isChain_name named fun d member => all_eq_true.1 all_takeWhile d member
  · rcases eq_of_not_isNameChar kept (by simpa using named) with
      rfl | rfl | rfl | rfl | rfl | rfl | rfl | rfl | rfl
    all_goals
      unfold lead
      split <;> simp_all [joins] <;> decide

theorem scanFrom_skipped {gap : Text} (skipped : ∀ c ∈ gap, isSkipped c) (offset : Nat)
    (rest : Text) : scanFrom offset (gap ++ rest) = scanFrom (offset + gap.width) rest := by
  induction gap generalizing offset with
  | nil => simp
  | cons c gap ih =>
    rw [cons_append, scanFrom, if_pos (skipped c (by simp)), ih (forall_mem_cons.1 skipped).2]
    simp [Nat.add_assoc]

theorem le_start_of_mem_scanFrom {offset : Nat} {token : Token}
    (h : token ∈ scanFrom offset t) : offset ≤ token.span.start := by
  fun_induction scanFrom offset t with
  | case1 offset =>
    obtain rfl := mem_singleton.1 h
    simp [Span.emptyAt]
  | case2 offset c rest _ ih => exact Nat.le_trans (Nat.le_add_right _ _) (ih h)
  | case3 offset c rest _ kind more _ stop ih =>
    rcases mem_cons.1 h with rfl | later
    · exact Nat.le_refl _
    · have := ih later
      omega

/-- Whether the last character of a text and the first of the next can stand inside one token. -/
def Parted (s rest : Text) : Prop :=
  ∀ a ∈ s.getLast?, ∀ b ∈ rest.head?, joins a b = false

theorem parted_append_singleton {a : Char}
    (apart : ∀ b ∈ rest.head?, joins a b = false) : Parted (s ++ [a]) rest := by
  intro last member
  obtain rfl : a = last := by simpa using member
  exact apart

theorem lead_le_length (c : Char) (rest : Text) : (lead c rest).2 ≤ rest.length := by
  unfold lead
  split
  all_goals first | exact (List.takeWhile_prefix _).length_le | simp

theorem lead_le_of_parted (kept : isSkipped c = false)
    (parted : Parted (c :: s) rest) : (lead c (s ++ rest)).2 ≤ s.length := by
  cases rest with
  | nil =>
    rw [append_nil]
    exact lead_le_length c s
  | cons b rest =>
    by_contra beyond
    obtain ⟨n, taken⟩ : ∃ n, (lead c (s ++ b :: rest)).2 = s.length + (n + 1) :=
      ⟨(lead c (s ++ b :: rest)).2 - s.length - 1, by omega⟩
    have chain := isChain_lead kept (s ++ b :: rest)
    rw [taken, take_length_add_append, ← cons_append, isChain_append] at chain
    obtain ⟨a, last⟩ : ∃ a, a ∈ (c :: s).getLast? :=
      ⟨(c :: s).getLast (by simp), getLast?_eq_some_getLast (by simp)⟩
    have joined := chain.2.2 a last b (by simp)
    simp [parted a last b (by simp)] at joined

theorem Parted.of_append (parted : Parted (s ++ t) rest) (ne : t ≠ []) : Parted t rest := by
  intro a last
  exact parted a (by rwa [getLast?_append_of_ne_nil _ ne])

def Cut (s rest : Text) : Prop :=
  ∀ offset, ∃ passed, scanFrom offset (s ++ rest) = passed ++ scanFrom (offset + s.width) rest ∧
    ∀ token ∈ passed, token.span.start < offset + s.width ∧ token.span.stop ≤ offset + s.width

theorem Cut.append (first : Cut s (t ++ rest)) (second : Cut t rest) : Cut (s ++ t) rest := by
  intro offset
  obtain ⟨passed, split, early⟩ := first offset
  obtain ⟨more, split', early'⟩ := second (offset + s.width)
  refine ⟨passed ++ more, by simp [split, split', Nat.add_assoc], fun token member => ?_⟩
  rw [width_append]
  rcases mem_append.1 member with member | member
  · have := early token member
    omega
  · have := early' token member
    omega

theorem Parted.cut (parted : Parted s rest) : Cut s rest := by
  intro offset
  induction length : s.length using Nat.strong_induction_on generalizing s offset with
  | _ n ih =>
    cases s with
    | nil => exact ⟨[], by simp, by simp⟩
    | cons c s =>
      have shorter : s.length < n := by simp at length; omega
      -- What is left after the first step is parted from the rest, or empty.
      have remains : ∀ k, Parted (s.drop k) rest := by
        intro k
        by_cases empty : s.drop k = []
        · simp [Parted, empty]
        · refine Parted.of_append (s := c :: s.take k) ?_ empty
          simpa using parted
      rw [cons_append, scanFrom]
      by_cases skipped : isSkipped c
      · obtain ⟨passed, split, early⟩ := ih s.length shorter (remains 0) (offset + c.utf8Size) rfl
        rw [if_pos skipped, width_cons, ← Nat.add_assoc]
        exact ⟨passed, split, early⟩
      · have kept : isSkipped c = false := by simpa using skipped
        have inside := lead_le_of_parted kept parted
        rcases found : lead c (s ++ rest) with ⟨kind, more⟩
        rw [found] at inside
        have ends : offset + c.utf8Size + width (s.take more) + width (s.drop more) =
            offset + width (c :: s) := by
          have := congrArg width (take_append_drop more s)
          rw [width_append] at this
          rw [width_cons]
          omega
        obtain ⟨passed, split, early⟩ := ih (s.drop more).length (by simp; omega) (remains more)
          (offset + c.utf8Size + width (s.take more)) rfl
        rw [ends] at split early
        refine ⟨⟨kind, ⟨offset, offset + c.utf8Size + width (s.take more)⟩⟩ :: passed, ?_, ?_⟩
        · simp only [skipped, Bool.false_eq_true, if_false, take_append_of_le_length inside,
            drop_append_of_le_length inside, split, cons_append]
        · intro token member
          rcases mem_cons.1 member with rfl | later
          · have := c.utf8Size_pos
            dsimp only
            omega
          · exact early token later

def Reads (kind : TokenKind) (t rest : Text) : Prop :=
  ∀ offset, scanFrom offset (t ++ rest) =
    ⟨kind, ⟨offset, offset + t.width⟩⟩ :: scanFrom (offset + t.width) rest

theorem Reads.width_pos (h : Reads kind t rest) : 0 < t.width := by
  by_contra empty
  cases t with
  | nil => simpa using congrArg length (h 0)
  | cons c t =>
    have := c.utf8Size_pos
    simp at empty
    omega

theorem Reads.cut (h : Reads kind t rest) : Cut t rest := fun offset =>
  ⟨[_], h offset, by simpa using h.width_pos⟩

theorem Reads.ne_nil (h : Reads kind t rest) : t ≠ [] := by
  rintro rfl
  exact absurd h.width_pos (by simp)

theorem reads_of_lead (kept : isSkipped c = false) (h : lead c (t ++ rest) = (kind, t.length)) :
    Reads kind (c :: t) rest := by
  intro offset
  rw [cons_append, scanFrom]
  simp [kept, h, Nat.add_assoc]

theorem reads_lead (kept : isSkipped c = false) (rest : Text) :
    Reads (lead c rest).1 (c :: rest.take (lead c rest).2) (rest.drop (lead c rest).2) := by
  refine reads_of_lead kept ?_
  rw [take_append_drop, length_take, Nat.min_eq_left (lead_le_length c rest)]

theorem scanFrom_skip (skipped : isSkipped c) (before rest : Text) :
    scanFrom before.width (c :: rest) = scanFrom (before ++ [c]).width rest := by
  rw [scanFrom, if_pos skipped, width_append, width_cons, width_nil, Nat.add_zero]

theorem Reads.scanFrom (h : Reads kind t rest) (before : Text) :
    Token.scanFrom before.width (t ++ rest) =
      ⟨kind, before.width, (before ++ t).width⟩ :: Token.scanFrom (before ++ t).width rest := by
  rw [width_append, h]

theorem reading_induction {P : Text → Text → Prop} (nil : ∀ before, P before [])
    (skip : ∀ before c rest, isSkipped c → P (before ++ [c]) rest → P before (c :: rest))
    (token : ∀ before c t rest kind, isSkipped c = false → lead c (t ++ rest) = (kind, t.length) →
      P (before ++ c :: t) rest → P before (c :: t ++ rest)) (before t : Text) : P before t := by
  induction length : t.length using Nat.strong_induction_on generalizing before t with
  | _ n ih =>
    subst length
    cases t with
    | nil => exact nil before
    | cons c t =>
      by_cases skipped : isSkipped c
      · exact skip before c t skipped (ih _ (by simp) _ _ rfl)
      · have split : t.take (lead c t).2 ++ t.drop (lead c t).2 = t := take_append_drop ..
        have first := token before c (t.take (lead c t).2) (t.drop (lead c t).2) (lead c t).1
          (by simpa using skipped) (by simp [split, lead_le_length]) (ih _ (by grind) _ _ rfl)
        rwa [cons_append, split] at first

theorem reads_name {name : Text} (ne : name ≠ []) (all : ∀ c ∈ name, isNameChar c)
    (stops : ∀ c ∈ rest.head?, isNameChar c = false) : Reads .name name rest := by
  cases name with
  | nil => exact absurd rfl ne
  | cons c name =>
    have named := all c (by simp)
    have kept : isSkipped c = false := by
      simp only [isNameChar, Bool.not_eq_true', Bool.or_eq_false_iff] at named
      exact named.1.1
    have whole : (name ++ rest).takeWhile isNameChar = name := by
      rw [takeWhile_append_of_pos (forall_mem_cons.1 all).2]
      cases rest with
      | nil => simp
      | cons d rest => simp [stops d (by simp)]
    exact reads_of_lead kept (by rw [lead_of_isNameChar named, whole])

theorem reads_word {word : Text} (ne : word ≠ []) (all : ∀ c ∈ word, isNameChar c) (rest : Text) :
    Reads .name (word ++ rest.takeWhile isNameChar) (rest.dropWhile isNameChar) := by
  refine reads_name (by simp [ne]) ?_ ?_
  · intro c member
    rcases mem_append.1 member with inside | after
    · exact all c inside
    · exact all_eq_true.1 all_takeWhile c after
  · intro c first
    have stops := head?_dropWhile_not isNameChar rest
    rw [Option.mem_def.1 first] at stops
    exact stops

theorem reads_tagOpen (letter : c.isAlpha) : Reads .tagOpen ['<'] (c :: rest) := by
  refine reads_of_lead (by decide) ?_
  unfold lead
  split <;> simp_all

section

variable (rest : Text)

theorem reads_closingOpen : Reads .closingOpen ['<', '/'] rest := reads_of_lead (by decide) rfl

theorem reads_commentOpen : Reads .commentOpen ['<', '!', '-', '-'] rest :=
  reads_of_lead (by decide) rfl

theorem reads_selfClose : Reads .selfClose ['/', '>'] rest := reads_of_lead (by decide) rfl

theorem reads_tagClose : Reads .tagClose ['>'] rest := reads_of_lead (by decide) rfl

theorem reads_equals : Reads .equals ['='] rest := reads_of_lead (by decide) rfl

theorem reads_doubleQuote : Reads .doubleQuote ['"'] rest := reads_of_lead (by decide) rfl

theorem reads_interpolationOpen : Reads .interpolationOpen ['{', '{'] rest :=
  reads_of_lead (by decide) rfl

theorem reads_interpolationClose : Reads .interpolationClose ['}', '}'] rest :=
  reads_of_lead (by decide) rfl

end

end SfcJsx.Markup.Token
