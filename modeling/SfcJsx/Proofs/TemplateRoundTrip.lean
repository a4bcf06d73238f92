import SfcJsx.Proofs.NodeRoundTrip

/-!
Printed templates are read back. A walk over the markup of some siblings adds them to the innermost
element and stands right after them; over an element it opens it, walks its children and closes it.
A walk reads blanks as a node before it reads the markup behind them, so the two halves of a step,
adding the blanks and the rest, are taken apart here.
-/

namespace SfcJsx.Markup

open List Written Reader Node Bool Token

variable {data gap t : Text} {node : Written} {selfClosing : Bool} {k : TokenKind}

namespace Frame

theorem addAll_nil (frame : Frame) : frame.addAll [] = frame := by
  simp [addAll]

theorem addAll_addAll (frame : Frame) (nodes more : List Node) :
    (frame.addAll nodes).addAll more = frame.addAll (nodes ++ more) := by
  simp [addAll]

end Frame

namespace Walk

/-- The rest of a walk when the blanks before the next markup are added already. -/
def resume (w : Walk) : List Node × Reader :=
  match w.dispatch with
  | .done children reader => (children, reader)
  | .going next => next.run

theorem run_eq_resume (w : Walk) : w.run = w.addGap.resume := by
  have half : w.addGap.dispatch = w.step := rfl
  rw [run, resume, half]
  split <;> next stepped => rw [stepped]

theorem resume_of_going {w next : Walk} (h : w.dispatch = .going next) : w.resume = next.run := by
  rw [resume, h]

/-- `next` is `w` with nodes added to the innermost element, which are `added` up to places. -/
structure Grows (w next : Walk) (added : List Node) : Prop where
  outer : next.outer = w.outer
  top : ∃ nodes, next.top = w.top.addAll nodes ∧ Node.unplacedAll nodes = added

namespace Grows

variable {w next last : Walk} {added more : List Node}

theorem trans (h : Grows w next added) (later : Grows next last more) :
    Grows w last (added ++ more) := by
  obtain ⟨nodes, top, same⟩ := h.top
  obtain ⟨others, lastTop, lastSame⟩ := later.top
  refine ⟨later.outer.trans h.outer, nodes ++ others, ?_, ?_⟩
  · rw [lastTop, top, Frame.addAll_addAll]
  · rw [unplacedAll_append, same, lastSame]

theorem literal (h : Grows w next added) : next.top.literal = w.top.literal := by
  obtain ⟨nodes, top, -⟩ := h.top
  rw [top]
  rfl

theorem name (h : Grows w next added) : next.top.name = w.top.name := by
  obtain ⟨nodes, top, -⟩ := h.top
  rw [top]
  rfl

end Grows

theorem grows_add (w : Walk) (reader : Reader) {node : Node} {written : Written}
    (same : node.unplaced = written.toNode) :
    Grows w ⟨reader, w.top.add node, w.outer⟩ [written.toNode] :=
  ⟨rfl, [node], rfl, by rw [unplacedAll, unplacedAll, same]⟩

section Siblings

variable {before rest : Text} {w : Walk} {nodes : List Written}

theorem grows_addGap (h : w.reader.At before (gap ++ t))
    (reached : w.reader.Reached before) (skipped : ∀ c ∈ gap, isSkipped c)
    (starts : StartsMarkup t) (nonliteral : w.top.literal = false) :
    Grows w w.addGap (if gap = [] then [] else [.text nowhere gap]) := by
  have marked := ((h.skip skipped).atMarkup starts).1
  have added : w.addGap = { w with top := w.top.addAll w.reader.gap?.toList } := by
    rw [addGap, nonliteral, if_pos marked]
  rw [added]
  refine ⟨rfl, _, rfl, ?_⟩
  rw [gap?_eq h reached skipped starts]
  split
  · rfl
  · simp [unplacedAll, unplaced]

theorem addGap_of_isPlain (plain : w.reader.kind.isPlain) : w.addGap = w := by
  have unmarked : w.reader.atMarkup w.top.literal = false := by
    unfold atMarkup
    split <;> simp_all [TokenKind.isPlain]
  rw [addGap, unmarked]
  rfl

theorem dispatch_of_isPlain (plain : w.reader.kind.isPlain) : w.dispatch = .going w.addText := by
  unfold dispatch
  split <;> simp_all [TokenKind.isPlain]

/-- One node, whose blanks are added already, is added by what is left of a step. -/
def Steps (node : Written) : Prop :=
  ∀ ⦃w before rest⦄, w.top.literal = false → w.reader.At before (node.print ++ rest) →
    ∃ next, w.resume = run next ∧ Grows w next [node.toNode] ∧
      next.reader.At (before ++ node.print) rest ∧ next.reader.Reached (before ++ node.print)

/-- A walk that has added the blanks before some nodes adds the nodes. -/
def Resumes (nodes : List Written) : Prop :=
  ∀ ⦃w before rest⦄, w.top.literal = false → StartsMarkup rest →
    w.reader.At before (Written.printAll nodes ++ rest) →
    ∃ next, w.resume = resume next ∧ Grows w next (Written.toNodes nodes) ∧
      next.reader.At (before ++ Written.printAll nodes) rest

/-- A walk adds nodes that come next, and the blanks between them. -/
def Runs (nodes : List Written) : Prop :=
  ∀ ⦃w before rest⦄, w.top.literal = false → StartsMarkup rest →
    w.reader.At before (Written.printAll nodes ++ rest) → w.reader.Reached before →
    ∃ next, w.run = resume next ∧ Grows w next (Written.toNodes nodes) ∧
      next.reader.At (before ++ Written.printAll nodes) rest

theorem startsMarkup_print (wf : node.isWellFormed)
    (markup : node.isText = false) (rest : Text) : StartsMarkup (node.print ++ rest) := by
  cases node with
  | element name attributes selfClosing children =>
    simp only [isWellFormed, and_eq_true] at wf
    obtain ⟨c, tail, rfl, letter, -⟩ := isAlpha_of_isTagName wf.1.1.1
    exact .tag letter _
  | text data => simp [isText] at markup
  | interpolation expression =>
    exact .interpolation _
  | comment data =>
    exact .comment _

theorem startsMarkup_printAll (wf : areWellFormed nodes) (markup : nodes.head?.any isText = false)
    (starts : StartsMarkup rest) : StartsMarkup (printAll nodes ++ rest) := by
  cases nodes with
  | nil => exact starts
  | cons node nodes =>
    simp only [areWellFormed, and_eq_true] at wf
    rw [printAll, append_assoc]
    exact startsMarkup_print wf.1.1 (by simpa using markup) _

theorem resumes_nil : Resumes [] := by
  intro w before rest _ _ h
  exact ⟨w, rfl, ⟨rfl, [], (Frame.addAll_nil _).symm, rfl⟩, by simpa [printAll] using h⟩

theorem resumes_cons (first : Steps node) (later : Runs nodes) : Resumes (node :: nodes) := by
  intro w before rest nonliteral starts h
  rw [printAll, append_assoc] at h
  obtain ⟨next, resumed, grows, stands, reached⟩ := first nonliteral h
  obtain ⟨last, ran, growsLater, standsLater⟩ :=
    later (grows.literal.trans nonliteral) starts stands reached
  refine ⟨last, resumed.trans ran, ?_, ?_⟩
  · simpa [toNodes] using grows.trans growsLater
  · simpa [printAll] using standsLater

theorem exists_resume_of_blank (skipped : ∀ c ∈ gap, isSkipped c)
    (wf : areWellFormed nodes) (markup : nodes.head?.any isText = false)
    (resumes : Resumes nodes) (nonliteral : w.top.literal = false) (starts : StartsMarkup rest)
    (h : w.reader.At before (gap ++ (printAll nodes ++ rest))) (reached : w.reader.Reached before) :
    ∃ next, w.run = resume next ∧
      Grows w next ((if gap = [] then [] else [.text nowhere gap]) ++ toNodes nodes) ∧
      next.reader.At (before ++ gap ++ printAll nodes) rest := by
  have grows := grows_addGap h reached skipped (startsMarkup_printAll wf markup starts) nonliteral
  obtain ⟨next, resumed, growsLater, stands⟩ :=
    resumes (grows.literal.trans nonliteral) starts (by rw [reader_addGap]; exact h.skip skipped)
  exact ⟨next, (run_eq_resume w).trans resumed, grows.trans growsLater, stands⟩

theorem runs_of_resumes (wf : areWellFormed nodes)
    (markup : nodes.head?.any isText = false) (resumes : Resumes nodes) : Runs nodes := by
  intro w before rest nonliteral starts h reached
  have unspaced : w.reader.At before ([] ++ (printAll nodes ++ rest)) := h
  simpa using exists_resume_of_blank (by simp) wf markup resumes nonliteral starts unspaced reached

theorem runs_blank (ne : data ≠ []) (skipped : ∀ c ∈ data, isSkipped c)
    (wf : areWellFormed nodes) (markup : nodes.head?.any isText = false)
    (resumes : Resumes nodes) : Runs (.text data :: nodes) := by
  intro w before rest nonliteral starts h reached
  rw [printAll, append_assoc] at h
  simpa [printAll, print, toNodes, toNode, ne] using
    exists_resume_of_blank skipped wf markup resumes nonliteral starts h reached

theorem runs_text {body : Text} {c : Char} (skipped : ∀ d ∈ gap, isSkipped d)
    (kept : isSkipped c = false) (plain : isPlainText (gap ++ c :: body))
    (wf : areWellFormed nodes) (markup : nodes.head?.any isText = false)
    (runs : Runs nodes) : Runs (.text (gap ++ c :: body) :: nodes) := by
  intro w before rest nonliteral starts h reached
  rw [printAll, append_assoc] at h
  obtain ⟨isPlain, node, after, read, same, stands, reachedAfter⟩ :=
    readText_print skipped kept plain (startsMarkup_printAll wf markup starts) h reached
  have stepped : w.run = (w.addText).run := by
    rw [run_eq_resume, addGap_of_isPlain isPlain, resume_of_going (dispatch_of_isPlain isPlain)]
  have added : w.addText = { w with reader := after, top := w.top.add node } := by
    rw [addText, nonliteral, read]
  have grows : Grows w w.addText [toNode (.text (gap ++ c :: body))] :=
    added ▸ grows_add w after (by rw [same, toNode])
  obtain ⟨last, ran, growsLater, standsLater⟩ :=
    runs (w := w.addText) (grows.literal.trans nonliteral) starts (by rwa [added]) (by rwa [added])
  refine ⟨last, stepped.trans ran, ?_, ?_⟩
  · simpa [toNodes] using grows.trans growsLater
  · simpa [printAll, print] using standsLater

theorem runs_cons_text (own : (text data).isWellFormed)
    (wf : areWellFormed nodes) (markup : nodes.head?.any isText = false)
    (runs : Runs nodes) (resumes : Resumes nodes) : Runs (.text data :: nodes) := by
  simp only [isWellFormed, and_eq_true, not_eq_true', isEmpty_eq_false_iff] at own
  have whole := takeWhile_append_dropWhile (p := isSkipped) (l := data)
  have skipped : ∀ c ∈ data.takeWhile isSkipped, isSkipped c := all_eq_true.1 all_takeWhile
  cases shown : data.dropWhile isSkipped with
  | nil =>
    rw [shown, append_nil] at whole
    exact runs_blank own.1 (whole ▸ skipped) wf markup resumes
  | cons c body =>
    rw [shown] at whole
    have kept : isSkipped c = false := by
      have := head?_dropWhile_not isSkipped data
      simpa [shown] using this
    rw [← whole]
    exact runs_text skipped kept (whole.symm ▸ own.2) wf markup runs

theorem steps_interpolation {expression : Text}
    (wf : (interpolation expression).isWellFormed) : Steps (.interpolation expression) := by
  intro w before rest nonliteral h
  simp only [isWellFormed, and_eq_true, beq_iff_eq, not_eq_true'] at wf
  obtain ⟨node, after, read, same, stands, reached⟩ := readInterpolation_print wf.1 wf.2 h
  have kind : w.reader.kind = .interpolationOpen := by
    have opens :
        w.reader.At before (['{', '{'] ++ (' ' :: expression ++ [' ', '}', '}'] ++ rest)) := by
      simpa [print] using h
    exact opens.kind (reads_interpolationOpen _)
  refine ⟨_, resume_of_going ?_, grows_add w after (by rw [same, toNode]), stands, reached⟩
  simp [dispatch, kind, nonliteral, addInterpolation, read]

theorem steps_comment (wf : (comment data).isWellFormed) : Steps (.comment data) := by
  intro w before rest _ h
  simp only [isWellFormed, not_eq_true'] at wf
  obtain ⟨node, after, read, same, stands, reached⟩ := readComment_print wf h
  have kind : w.reader.kind = .commentOpen := by
    have opens : w.reader.At before
        (['<', '!', '-', '-'] ++ (data ++ ['-', '-', '>'] ++ rest)) := by
      simpa [print] using h
    exact opens.kind (reads_commentOpen _)
  refine ⟨_, resume_of_going ?_, grows_add w after (by rw [same, toNode]), stands, reached⟩
  simp [dispatch, kind, addComment, read]
  rfl

theorem dispatch_of_closingTag (kind : w.reader.kind = .closingOpen)
    (own : w.reader.nextName = w.top.name) : w.dispatch = w.close := by
  simp [dispatch, kind, own]

section Element

variable {name : Text} {attributes : List WrittenAttribute}

theorem resume_element (named : isTagName name)
    (h : w.reader.At before (['<'] ++ (name ++ rest))) : w.resume = w.enter.run := by
  have kind := h.kind (reads_tagOpen_name named rest)
  obtain ⟨c, tail, rfl, letter, -⟩ := isAlpha_of_isTagName named
  apply resume_of_going
  simp [dispatch, kind, opensTag_of_letter letter h]

theorem enter_print (named : isTagName name)
    (wf : attributes.all WrittenAttribute.isWellFormed) (ends : Reader.EndsTag gap t rest k)
    (nonliteral : w.top.literal = false) (h : w.reader.At before (['<'] ++ (name ++
      (WrittenAttribute.printAll attributes ++ (gap ++ (t ++ rest)))))) :
    ∃ (opening : OpenTag) (after : Reader), opening.name = name ∧
      opening.attributes.map Attribute.unplaced = attributes.map WrittenAttribute.toAttribute ∧
      opening.literal = false ∧
      after.At (before ++ '<' :: name ++ WrittenAttribute.printAll attributes ++ gap) (t ++ rest) ∧
      w.enter =
        if after.kind = .selfClose then
          { w with
            reader := after.advance
            top := w.top.add (.element (opening.tag after.advance.tokenEnd true) []) }
        else if isVoid name then
          { w with
            reader := after.expect .tagClose
            top := w.top.add (.element (opening.tag (after.expect .tagClose).tokenEnd false) []) }
        else ⟨after.expect .tagClose, { opening with }, w.top :: w.outer⟩ := by
  obtain ⟨opening, after, read, sameName, same, literal, stands⟩ :=
    readOpenTag_print named wf ends h
  have opens := reads_tagOpen_name named
    (WrittenAttribute.printAll attributes ++ (gap ++ (t ++ rest)))
  have reads := reads_tagName named (stops_printAll attributes ends.stops)
  have kind := (h.advance opens).kind reads
  refine ⟨opening, after, sameName, same, literal, stands, ?_⟩
  simp [enter, kind, nonliteral, read, sameName]

theorem unplaced_element {opening : OpenTag} {children : List Node} {stop : Nat}
    {written : List Written} (sameName : opening.name = name)
    (same : opening.attributes.map Attribute.unplaced = attributes.map WrittenAttribute.toAttribute)
    (inner : unplacedAll children = toNodes written) :
    unplaced (.element (opening.tag stop selfClosing) children) =
      toNode (.element name attributes selfClosing written) := by
  simp [unplaced, toNode, inner, Tag.unplaced, OpenTag.tag, sameName, same]

theorem steps_childless (named : isTagName name) (wf : attributes.all WrittenAttribute.isWellFormed)
    (ends : ∀ rest, EndsTag gap t rest k)
    (written : print (.element name attributes selfClosing []) =
      '<' :: name ++ WrittenAttribute.printAll attributes ++ gap ++ t)
    (sort : k = .selfClose ∧ selfClosing ∨ k = .tagClose ∧ selfClosing = false ∧ isVoid name) :
    Steps (.element name attributes selfClosing []) := by
  intro w before rest nonliteral h
  have tag : w.reader.At before (['<'] ++ (name ++
      (WrittenAttribute.printAll attributes ++ (gap ++ (t ++ rest))))) := by
    simpa [written] using h
  obtain ⟨opening, after, sameName, same, -, stands, entered⟩ :=
    enter_print named wf (ends rest) nonliteral tag
  have reads := (ends rest).reads
  have added : w.enter = ⟨after.advance,
      w.top.add (.element (opening.tag after.advance.tokenEnd selfClosing) []), w.outer⟩ := by
    rw [entered]
    rcases sort with ⟨rfl, rfl⟩ | ⟨rfl, rfl, empty⟩
    · rw [if_pos (stands.kind reads)]
    · rw [if_neg (by simp [stands.kind reads]), if_pos empty, stands.expect reads]
  refine ⟨_, (resume_element named tag).trans (congrArg run added),
    grows_add w _ (unplaced_element sameName same rfl), ?_, ?_⟩
  · simpa [written] using stands.advance reads
  · simpa [written] using stands.reached_advance reads

theorem steps_element {children : List Written} (named : isTagName name)
    (wf : attributes.all WrittenAttribute.isWellFormed) (parent : isVoid name = false)
    (runs : Runs children) : Steps (.element name attributes false children) := by
  intro w before rest nonliteral h
  have tag : w.reader.At before (['<'] ++ (name ++ (WrittenAttribute.printAll attributes ++ ([] ++
      (['>'] ++ (printAll children ++ ('<' :: '/' :: (name ++ '>' :: rest)))))))) := by
    simpa [print, parent] using h
  obtain ⟨opening, after, sameName, same, literal, stands, entered⟩ :=
    enter_print named wf (endsTag_tagClose _) nonliteral tag
  have reads := reads_tagClose (printAll children ++ ('<' :: '/' :: (name ++ '>' :: rest)))
  rw [if_neg (by simp [stands.kind reads]), if_neg (by simp [parent]), stands.expect reads]
    at entered
  obtain ⟨next, ran, grows, inside⟩ :=
    runs (w := ⟨after.advance, { opening with }, w.top :: w.outer⟩) literal
      (.closing _) (stands.advance reads) (stands.reached_advance reads)
  obtain ⟨kind, nextName, closed, reached⟩ := passClosingTag_print named inside
  obtain ⟨nodes, top, inner⟩ := grows.top
  have topName : next.top.name = name := grows.name.trans sameName
  have outer : next.outer = w.top :: w.outer := grows.outer
  refine ⟨⟨next.reader.passClosingTag name,
    w.top.add (next.top.element (next.reader.passClosingTag name).tokenEnd), w.outer⟩,
    ?_, ?_, ?_, ?_⟩
  · have dispatched : next.dispatch = .going ⟨next.reader.passClosingTag name,
        w.top.add (next.top.element (next.reader.passClosingTag name).tokenEnd), w.outer⟩ := by
      rw [dispatch_of_closingTag kind (nextName.trans topName.symm), close, topName, outer]
    rw [resume_element named tag, entered, ran, resume_of_going dispatched]
  · refine grows_add w _ ?_
    rw [top]
    exact unplaced_element sameName same inner
  · simpa [print, parent] using closed
  · simpa [print, parent] using reached

end Element

end Siblings

mutual

theorem steps_of_isWellFormed : ∀ {node : Written}, node.isWellFormed →
    node.isText = false → Steps node
  | .element name attributes selfClosing children, wf, _ => by
    simp only [isWellFormed, and_eq_true, or_eq_true, not_eq_true', List.isEmpty_iff] at wf
    obtain ⟨⟨⟨named, wf⟩, childless⟩, inner⟩ := wf
    cases selfClosing with
    | true =>
      obtain rfl : children = [] := by simpa using childless
      exact steps_childless named wf endsTag_selfClose (by simp [print]) (.inl ⟨rfl, rfl⟩)
    | false =>
      cases void : isVoid name with
      | true =>
        obtain rfl : children = [] := by simpa [void] using childless
        exact steps_childless named wf endsTag_tagClose (by simp [print, void])
          (.inr ⟨rfl, rfl, void⟩)
      | false => exact steps_element named wf void (runs_of_areWellFormed inner).1
  | .text data, _, markup => by simp [isText] at markup
  | .interpolation expression, wf, _ => steps_interpolation wf
  | .comment data, wf, _ => steps_comment wf

theorem runs_of_areWellFormed : ∀ {nodes : List Written}, areWellFormed nodes →
    Runs nodes ∧ (nodes.head?.any isText = false → Resumes nodes)
  | [], wf => ⟨runs_of_resumes wf rfl resumes_nil, fun _ => resumes_nil⟩
  | node :: nodes, wf => by
    have own := wf
    simp only [areWellFormed, and_eq_true, not_eq_true'] at own
    obtain ⟨⟨first, apart⟩, others⟩ := own
    obtain ⟨runs, resumes⟩ := runs_of_areWellFormed others
    cases sort : node.isText with
    | false =>
      have resumes := resumes_cons (steps_of_isWellFormed first sort) runs
      exact ⟨runs_of_resumes wf (by simpa using sort) resumes, fun _ => resumes⟩
    | true =>
      cases node with
      | text data =>
        have markup : nodes.head?.any isText = false := by simpa [sort] using apart
        exact ⟨runs_cons_text first others markup runs (resumes markup), by simp [sort]⟩
      | element | interpolation | comment => simp [isText] at sort

end

end Walk

namespace Reader

variable {r : Reader} {before rest name : Text}

theorem readBlockTag_print (named : isTagName name)
    (h : r.At before (['<'] ++ (name ++ (['>'] ++ rest)))) :
    ∃ after, r.readBlockTag = (⟨name, [], false⟩, after) ∧ r.kind = .tagOpen ∧
      r.nextName = name ∧ after.At (before ++ '<' :: name ++ ['>']) rest ∧
      after.Reached (before ++ '<' :: name ++ ['>']) := by
  have opens := reads_tagOpen_name named (['>'] ++ rest)
  have reads : Token.Reads .name name (['>'] ++ rest) :=
    reads_tagName named (by simp [isNameChar, isPunctuation])
  have closes := reads_tagClose rest
  have inside := h.advance opens
  have past := inside.advance reads
  have unspaced : r.advance.advance.At (before ++ ['<'] ++ name) ([] ++ (['>'] ++ rest)) := past
  have attributes := readAttributes_end true (endsTag_tagClose rest) unspaced
  refine ⟨r.advance.advance.advance, ?_, h.kind opens, h.nextName opens reads, ?_, ?_⟩
  · simp [readBlockTag, attributes, inside.currentText reads, past.kind closes, past.expect closes]
  · simpa using past.advance closes
  · simpa using past.reached_advance closes

theorem readTemplate_print {nodes : List Written} (named : isTagName name)
    (wf : areWellFormed nodes) (h : r.At before (['<'] ++ (name ++ (['>'] ++
      (printAll nodes ++ (['<', '/'] ++ (name ++ (['>'] ++ rest)))))))) :
    ∃ template after, r.readTemplate = (template, after) ∧
      unplacedAll template.children = toNodes nodes ∧
      after.At (before ++ '<' :: name ++ ['>'] ++ printAll nodes ++
        '<' :: '/' :: name ++ ['>']) rest := by
  obtain ⟨opened, block, -, -, stands, reached⟩ := readBlockTag_print named h
  let outermost : Walk :=
    ⟨opened, { start := r.offset, name, attributes := [], literal := false }, []⟩
  obtain ⟨next, ran, grows, inside⟩ := (Walk.runs_of_areWellFormed wf).1
    (w := outermost) rfl (.closing _) stands reached
  obtain ⟨kind, nextName, closed, -⟩ := passClosingTag_print named inside
  obtain ⟨children, top, same⟩ := grows.top
  have topName : next.top.name = name := grows.name
  have outer : next.outer = [] := grows.outer
  have ended : outermost.run = (children, next.reader.passClosingTag name) := by
    rw [ran, Walk.resume, Walk.dispatch_of_closingTag kind (nextName.trans topName.symm),
      Walk.close, outer, top]
    rfl
  refine ⟨⟨⟨r.offset, (next.reader.passClosingTag name).tokenEnd⟩, children⟩,
    next.reader.passClosingTag name, ?_, same, by simpa using closed⟩
  have language : opened.checkLanguage ⟨name, [], false⟩ r.offset = opened := rfl
  simp only [readTemplate, block, language, false_eq_true, if_false]
  rw [ended]

end Reader

namespace Component

def printBlock (name content : Text) : Text :=
  '<' :: name ++ '>' :: content ++ '<' :: '/' :: name ++ ['>']

/-- A component with nothing but a template. -/
def templateOnly (nodes : List Written) : Text := printBlock "template" (Written.printAll nodes)

/-- Reading the printed markup of a template gives back the template and nothing else. -/
theorem parse_templateOnly {nodes : List Written} (wf : Written.areWellFormed nodes = true) :
    ∃ template, parse (templateOnly nodes) =
        ({ source := templateOnly nodes, template := some template }, []) ∧
      Node.unplacedAll template.children = Written.toNodes nodes := by
  have start : (Reader.ofSource (templateOnly nodes)).At []
      (['<'] ++ (("template" : Text) ++ (['>'] ++
        (Written.printAll nodes ++ (['<', '/'] ++ (("template" : Text) ++ (['>'] ++ []))))))) := by
    simpa only [templateOnly, printBlock, cons_append, nil_append, append_assoc]
      using Reader.at_ofSource (templateOnly nodes)
  obtain ⟨-, -, kind, name, -, -⟩ := Reader.readBlockTag_print (by decide) start
  obtain ⟨template, after, read, same, stands⟩ := Reader.readTemplate_print (by decide) wf start
  refine ⟨template, ?_, same⟩
  have added : readNext { source := templateOnly nodes } (Reader.ofSource (templateOnly nodes)) =
      ({ source := templateOnly nodes, template := some template }, after) := by
    simp only [readNext, kind, name, if_true, addTemplate, read]
    rfl
  have read : readAll { source := templateOnly nodes } (Reader.ofSource (templateOnly nodes)) =
      ({ source := templateOnly nodes, template := some template }, after) := by
    rw [readAll, dif_neg (by simp [kind])]
    dsimp only
    rw [added, readAll, dif_pos stands.kind_nil]
  rw [parse, read]
  simp [stands.faults]

def catalogue : List Written :=
  [.comment "- list --", .text "\n  ",
   .element "ul" [⟨"class", some "a > b"⟩, ⟨"hidden", none⟩] false
    [.element "li" [⟨"v-for", some "x in xs"⟩, ⟨":key.prop", some ""⟩, ⟨"@click", none⟩] false
      [.text " \t", .interpolation "x \x7d", .text " > \x7d / = '",
       .element "li" [] false [.interpolation "", .text " "], .element "BR" [] false []],
     .element "my-Item" [⟨"#default", some "\x7b p \x7d"⟩] true []],
   .text " end "]

theorem parse_templateOnly_catalogue : Written.areWellFormed catalogue = true ∧
    ∃ template, parse (templateOnly catalogue) =
        ({ source := templateOnly catalogue, template := some template }, []) ∧
      Node.unplacedAll template.children = Written.toNodes catalogue :=
  ⟨by decide, parse_templateOnly (by decide)⟩

end Component

end SfcJsx.Markup
