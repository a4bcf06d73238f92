import SfcJsx.Jsx.TextNode
import SfcJsx.Markup.Entity
import SfcJsx.Proofs.TextSearch

/-!
Text nodes in JSX. A reader of the output decodes its references again. Main statement: the words of
a text node are shown as they are, and nothing but white space that may be condensed is lost exactly
if the text holds no other white space.
-/

namespace SfcJsx

open List Text

variable {data t tail w : Text} {c : Char} {ws : List Text}

namespace Text

theorem isBlank_of_mem_words (word : w ∈ t.words) : ∀ c ∈ w, isBlank c = false := by
  intro c member
  have inWords : c ∈ t.words.flatten := mem_flatten.2 ⟨w, word, member⟩
  rw [flatten_words] at inWords
  simpa using (mem_filter.1 inWords).2

theorem ne_nil_of_mem_words (word : w ∈ t.words) : w ≠ [] := by
  simpa using (mem_filter.1 word).2

theorem words_eq_nil_of_forall (blank : ∀ c ∈ t, isBlank c) : t.words = [] := by
  refine eq_nil_iff_forall_not_mem.2 fun w word => ?_
  obtain ⟨c, rest, rfl⟩ := exists_cons_of_ne_nil (ne_nil_of_mem_words word)
  have inText : c ∈ t.filter (!isBlank ·) := by
    rw [← flatten_words]
    exact mem_flatten.2 ⟨_, word, by simp⟩
  have shown := isBlank_of_mem_words word c (by simp)
  rw [blank c (mem_filter.1 inText).1] at shown
  cases shown

theorem words_intercalate (ne : ∀ w ∈ ws, w ≠ []) (inside : ∀ w ∈ ws, ∀ c ∈ w, isBlank c = false) :
    words (intercalate " " ws) = ws := by
  induction ws with
  | nil => rfl
  | cons w rest ih =>
    have here := words_of_forall (ne w (by simp)) (inside w (by simp))
    by_cases last : rest = []
    · simpa [last] using here
    · have later := ih (forall_mem_cons.1 ne).2 (forall_mem_cons.1 inside).2
      have joined : intercalate " " (w :: rest) = w ++ ' ' :: intercalate " " rest := by
        rw [intercalate_cons_of_ne_nil last, append_assoc]
        rfl
      rw [joined, words_append_cons rfl, here, later, singleton_append]

theorem eq_space_of_mem_intercalate (inside : ∀ w ∈ ws, ∀ c ∈ w, isBlank c = false)
    (member : c ∈ intercalate (" " : Text) ws) (blank : isBlank c) : c = ' ' := by
  rcases mem_of_mem_intercalate member with between | ⟨w, listed, here⟩
  · exact mem_singleton.1 between
  · rw [inside w listed c here] at blank
    cases blank

end Text

namespace Jsx

def references : List (Text × Char) :=
  [("&amp;", '&'), ("&lt;", '<'), ("&gt;", '>'), ("&#123;", '{'), ("&#125;", '}')]

def reference? (t : Text) : Option (Char × Text) :=
  references.findSome? fun (reference, c) => (after? reference t).map (c, ·)

theorem length_of_reference? (h : reference? t = some (c, tail)) : tail.length < t.length :=
  Markup.Entity.length_of_findSome? (by decide) h

/-- The text that JSX shows: one character for each reference, from left to right. -/
def decode : Text → Text
  | [] => []
  | c :: rest =>
    match _found : reference? (c :: rest) with
    | some (d, tail) => d :: decode tail
    | none => c :: decode rest
termination_by t => t.length
decreasing_by
  · exact length_of_reference? _found
  · simp

theorem decode_of_reference? (found : reference? t = some (c, tail)) :
    decode t = c :: decode tail := by
  cases t with
  | nil => cases found
  | cons d rest =>
    rw [decode]
    split
    · next other =>
      rw [found] at other
      cases other
      rfl
    · next none =>
      rw [found] at none
      cases none

theorem decode_cons (plain : c ≠ '&') (rest : Text) : decode (c :: rest) = c :: decode rest := by
  have none : reference? (c :: rest) = none := by
    simp [reference?, references, after?, Ne.symm plain]
  rw [decode]
  split
  · next found =>
    rw [none] at found
    cases found
  · rfl

theorem decode_escapeChar (c : Char) (rest : Text) :
    decode (escapeChar c ++ rest) = c :: decode rest := by
  unfold escapeChar
  split
  · next amp => exact amp ▸ decode_of_reference? rfl
  split
  · next less => exact less ▸ decode_of_reference? rfl
  split
  · next greater => exact greater ▸ decode_of_reference? rfl
  split
  · next opening => exact opening ▸ decode_of_reference? rfl
  split
  · next closing => exact closing ▸ decode_of_reference? rfl
  · next plain _ _ _ _ => exact decode_cons plain rest

theorem decode_escape_append (t rest : Text) : decode (escape t ++ rest) = t ++ decode rest := by
  induction t with
  | nil => rfl
  | cons c t ih =>
    rw [escape, flatMap_cons, ← escape, append_assoc, decode_escapeChar, ih]
    rfl

/-- What a text node shows. One that is left out shows nothing. -/
def shown (data : Text) : Text := decode ((renderText data).getD [])

theorem edge_cases (blanks : Text) : edge blanks = [] ∨ edge blanks = [' '] := by
  unfold edge
  split
  · exact .inl rfl
  · exact .inr rfl

theorem eq_space_of_mem_edge {blanks : Text} (member : c ∈ edge blanks) : c = ' ' := by
  rcases edge_cases blanks with none | one
  · rw [none] at member
    cases member
  · simpa [one] using member

theorem shown_of_isBlankText (blank : data.isBlankText) : shown data = [] ∨ shown data = [' '] := by
  have alone : decode [' '] = [' '] := by
    rw [decode_cons (by decide), decode]
  rw [shown, renderText, if_pos blank]
  split
  · exact .inl (by rw [Option.getD_none, decode])
  · exact .inr alone

theorem shown_eq (some : data.isBlankText = false) : shown data =
    edge data.leadingBlanks ++ (intercalate " " data.words ++ edge data.trailingBlanks) := by
  have space (t : Text) : decode (' ' :: t) = ' ' :: decode t := decode_cons (by decide) t
  have edges (blanks t : Text) : decode (edge blanks ++ t) = edge blanks ++ decode t := by
    rcases edge_cases blanks with none | one
    · rw [none, nil_append, nil_append]
    · rw [one]
      exact space t
  have behind : decode (edge data.trailingBlanks) = edge data.trailingBlanks := by
    have alone := edges data.trailingBlanks []
    rwa [decode, append_nil] at alone
  rw [shown, renderText, if_neg (by simp [some]), Option.getD_some, append_assoc, edges,
    decode_escape_append, behind]

theorem words_shown (data : Text) : (shown data).words = data.words := by
  cases blank : data.isBlankText with
  | true =>
    rw [words_eq_nil_of_forall (all_eq_true.1 blank)]
    rcases shown_of_isBlankText blank with none | one
    · rw [none]
      rfl
    · rw [one]
      rfl
  | false =>
    have whole : words (intercalate " " data.words) = data.words :=
      words_intercalate (fun _ => ne_nil_of_mem_words)
        fun _ => isBlank_of_mem_words
    have front (blanks t : Text) : words (edge blanks ++ t) = t.words := by
      rcases edge_cases blanks with none | one
      · rw [none, nil_append]
      · rw [one]
        exact words_append_cons rfl [] t
    have back (blanks t : Text) : words (t ++ edge blanks) = t.words := by
      rcases edge_cases blanks with none | one
      · rw [none, append_nil]
      · rw [one, words_append_cons rfl]
        exact append_nil _
    rw [shown_eq blank, front, back, whole]

theorem eq_space_of_mem_shown (member : c ∈ shown data) (blank : isBlank c) : c = ' ' := by
  cases all : data.isBlankText with
  | true =>
    rcases shown_of_isBlankText all with none | one
    · rw [none] at member
      cases member
    · simpa [one] using member
  | false =>
    rw [shown_eq all, mem_append, mem_append] at member
    rcases member with front | inside | back
    · exact eq_space_of_mem_edge front
    · exact eq_space_of_mem_intercalate (fun _ => isBlank_of_mem_words) inside blank
    · exact eq_space_of_mem_edge back

/-- Characters that text in JSX cannot hold. -/
def marks : List Char := ['<', '>', '{', '}']

theorem not_mem_marks_of_mem_escape (member : c ∈ escape t) : c ∉ marks := by
  obtain ⟨d, -, inside⟩ := mem_flatMap.1 member
  have known (reference : Text) (free : reference.all (!marks.contains ·))
      (listed : c ∈ reference) : c ∉ marks := by
    simpa using all_eq_true.1 free c listed
  unfold escapeChar at inside
  split at inside
  · exact known "&amp;" rfl inside
  split at inside
  · exact known "&lt;" rfl inside
  split at inside
  · exact known "&gt;" rfl inside
  split at inside
  · exact known "&#123;" rfl inside
  split at inside
  · exact known "&#125;" rfl inside
  · next less greater opening closing =>
    obtain rfl := mem_singleton.1 inside
    simp [marks, less, greater, opening, closing]

theorem not_mem_marks_of_mem_renderText (member : c ∈ (renderText data).getD []) : c ∉ marks := by
  have edges {blanks : Text} (inEdge : c ∈ edge blanks) : c ∉ marks := by
    rw [eq_space_of_mem_edge inEdge]
    decide
  rw [renderText] at member
  split at member
  · split at member
    · cases member
    · obtain rfl : c = ' ' := mem_singleton.1 member
      decide
  · rw [Option.getD_some, mem_append, mem_append] at member
    rcases member with (front | inside) | back
    · exact edges front
    · exact not_mem_marks_of_mem_escape inside
    · exact edges back

/-- White space that may be condensed. -/
def isCollapsible (c : Char) : Bool :=
  c == ' ' || c == '\t' || c == '\n' || c == '\r' || c == '\x0c'

theorem isBlank_of_isCollapsible (collapsible : isCollapsible c) : isBlank c := by
  simp only [isCollapsible, Bool.or_eq_true, beq_iff_eq] at collapsible
  rcases collapsible with (((rfl | rfl) | rfl) | rfl) | rfl <;> rfl

theorem filter_shown (data : Text) :
    (shown data).filter (!isCollapsible ·) = data.filter (!isBlank ·) := by
  rw [← flatten_words, ← words_shown, flatten_words]
  refine filter_congr fun c member => congrArg _ ?_
  refine Bool.eq_iff_iff.2 ⟨isBlank_of_isCollapsible, fun blank => ?_⟩
  rw [eq_space_of_mem_shown member blank]
  rfl

/-- A text node shows the words of its text, and no character of JSX stands in it unescaped. It is
the text up to white space that may be condensed exactly if it has no other white space. -/
theorem shown_eq_up_to_collapsible_iff (data : Text) :
    (shown data).words = data.words ∧ (∀ c ∈ (renderText data).getD [], c ∉ marks) ∧
    ((shown data).filter (!isCollapsible ·) = data.filter (!isCollapsible ·) ↔
      ∀ c ∈ data, Text.isBlank c = true → isCollapsible c = true) := by
  refine ⟨words_shown data, fun c => not_mem_marks_of_mem_renderText, ?_⟩
  rw [filter_shown]
  constructor
  · intro same c member blank
    cases other : isCollapsible c with
    | true => rfl
    | false =>
      have kept : c ∈ data.filter (!Text.isBlank ·) := by
        rw [same]
        exact mem_filter.2 ⟨member, by simp [other]⟩
      simp [blank] at kept
  · intro only
    refine filter_congr fun c member => congrArg _ ?_
    exact Bool.eq_iff_iff.2 ⟨only c member, isBlank_of_isCollapsible⟩

/-- The character of `&nbsp;` is shown as a space. -/
theorem shown_noBreakSpace :
    Markup.Entity.decode "10&nbsp;km" = "10\u00a0km".toList ∧
    renderText "10\u00a0km" = some "10 km".toList ∧
    (shown "10\u00a0km").filter (!isCollapsible ·) ≠
      ("10\u00a0km" : Text).filter (!isCollapsible ·) := by
  decide +kernel

end Jsx

end SfcJsx
