import SfcJsx.Markup.Entity
import SfcJsx.Markup.TagReader

/-!
Reading a template tree, one step at a time. A walk holds the reader and the elements that are open,
innermost first; a step adds a child to the innermost one, opens an element in it, or closes it.
Every step passes a token or closes an element, so a walk ends.
-/

namespace SfcJsx.Markup

open List

namespace Reader

def opensTag (r : Reader) : Bool := (r.ahead (r.offset + 1)).head?.any Char.isAlpha

def atMarkup (r : Reader) (literal : Bool) : Bool :=
  match r.kind with
  | .tagOpen => r.opensTag
  | .closingOpen | .commentOpen | .endOfFile => true
  | .interpolationOpen => !literal
  | _ => false

def gap? (r : Reader) : Option Node :=
  if r.consumed < r.offset then
    some (.text ⟨r.consumed, r.offset⟩ (r.source.slice r.consumed r.offset))
  else none

def opensMarkup (literal : Bool) (c : Char) (rest : Text) : Bool :=
  (c == '<' && rest.head?.any fun n => n.isAlpha || n == '/' || n == '!') ||
    (!literal && c == '{' && rest.head? == some '{')

def plainText (literal : Bool) : Text → Text
  | [] => []
  | c :: rest => if opensMarkup literal c rest then [] else c :: plainText literal rest

/-- The current token is part of the text whatever it is, and so are blanks skipped before it. -/
def readText (r : Reader) (literal : Bool) : Node × Reader :=
  let start := min r.consumed r.offset
  let first := (r.ahead r.offset).take 1
  let stop := r.offset + Text.width (first ++ plainText literal ((r.ahead r.offset).drop 1))
  (.text ⟨start, stop⟩ (Entity.decode (r.source.slice start stop)),
    { r.advance.seek stop with textEnd := stop })

/-- An interpolation without an end is text up to the end of the source. -/
def readInterpolation (r : Reader) : Node × Reader :=
  let start := r.offset
  match Text.cut? "\x7d\x7d" (r.ahead (start + 2)) with
  | some (body, _) =>
    let stop := start + 2 + body.width + 2
    (.interpolation ⟨start, stop⟩ body.trim, r.advance.seek stop)
  | none =>
    (.text ⟨start, r.source.width⟩ (r.ahead start),
      (r.report .unterminatedInterpolation).advance.seek r.source.width)

/-- A comment without an end gives no node. -/
def readComment (r : Reader) : Option Node × Reader :=
  let start := r.offset
  match Text.cut? "-->" (r.ahead (start + 4)) with
  | some (body, _) =>
    let stop := start + 4 + body.width + 3
    (some (.comment ⟨start, stop⟩ body), r.advance.seek stop)
  | none => (none, (r.report .unterminatedComment).advance.seek r.source.width)

def passClosingTag (r : Reader) (name : Text) : Reader :=
  if r.kind = .closingOpen && r.nextName = name then
    r.advance.advance.skipNewlines.expect .tagClose
  else r

def skipClosingTag (r : Reader) : Reader :=
  let stop := r.advance.skipWhile fun token => token.kind ≠ .tagClose ∧ token.kind ≠ .endOfFile
  if stop.kind = .tagClose then stop.advance else stop

variable (r : Reader)

theorem goesOn_readText (literal : Bool) : r.advance.GoesOn (r.readText literal).2 := by
  have sought := passes_seek r.advance (r.readText literal).1.span.stop
  exact ⟨sought.source, sought.tokens, sought.faults⟩

theorem passes_readInterpolation : r.advance.Passes r.readInterpolation.2 := by
  unfold readInterpolation
  dsimp only
  split
  · exact passes_seek _ _
  · exact (passes_advance_report r _).trans (passes_seek _ _)

theorem passes_readComment : r.advance.Passes r.readComment.2 := by
  unfold readComment
  dsimp only
  split
  · exact passes_seek _ _
  · exact (passes_advance_report r _).trans (passes_seek _ _)

theorem passes_passClosingTag (name : Text) : r.Passes (r.passClosingTag name) := by
  unfold passClosingTag
  split
  · exact (passes_advance r).trans ((passes_advance _).trans
      ((passes_skipNewlines _).trans (passes_expect _ _)))
  · exact .refl r

theorem passes_skipClosingTag : r.advance.Passes r.skipClosingTag := by
  unfold skipClosingTag
  dsimp only
  split
  · exact (passes_skipWhile _ _).trans (passes_advance _)
  · exact passes_skipWhile _ _

end Reader

def voidNames : List Text :=
  ["area", "base", "br", "col", "embed", "hr", "img", "input", "link", "meta", "param", "source",
   "track", "wbr"]

def isVoid (name : Text) : Bool := voidNames.contains (name.map Char.toLower)

/-- A directive as a plain attribute under the name it was written with. -/
def Attribute.toLiteral (source : Text) : Attribute → Attribute
  | .plain attr => .plain attr
  | .directive d =>
    if d.kind = .vPre then .directive d
    else
      let written := (d.span.slice source).takeWhile (· != '=')
      .plain ⟨d.span, Text.trim written, d.expressionText?⟩

structure OpenTag where
  start : Nat
  name : Text
  attributes : List Attribute
  /-- Whether the children are literal markup. -/
  literal : Bool
  deriving Repr

namespace OpenTag

def tag (t : OpenTag) (stop : Nat) (selfClosing : Bool) : Tag :=
  ⟨⟨t.start, stop⟩, t.name, t.attributes, selfClosing⟩

end OpenTag

def Reader.readOpenTag (r : Reader) (literal : Bool) : OpenTag × Reader :=
  let name := r.advance.currentText
  let (attributes, after) := r.advance.advance.readAttributes literal
  let isLiteralRoot := !literal && attributes.any fun attr =>
    attr.directive?.any fun d => d.kind = .vPre
  let attributes :=
    if isLiteralRoot then attributes.map (Attribute.toLiteral r.source) else attributes
  (⟨r.offset, name, attributes, literal || isLiteralRoot⟩, after)

theorem Reader.passes_readOpenTag (r : Reader) (literal : Bool) :
    r.advance.advance.Passes (r.readOpenTag literal).2 := passes_readAttributes _ literal

structure Frame extends OpenTag where
  children : List Node := []
  deriving Repr

namespace Frame

def add (frame : Frame) (node : Node) : Frame := { frame with children := frame.children ++ [node] }

def addAll (frame : Frame) (nodes : List Node) : Frame :=
  { frame with children := frame.children ++ nodes }

def element (frame : Frame) (stop : Nat) : Node :=
  .element (frame.toOpenTag.tag stop false) frame.children

end Frame

structure Walk where
  reader : Reader
  top : Frame
  outer : List Frame
  deriving Repr

namespace Walk

inductive Step where
  | going (walk : Walk)
  | done (children : List Node) (reader : Reader)

def size (w : Walk) : Nat := w.reader.tokens.length + w.outer.length

def close (w : Walk) : Step :=
  let reader := w.reader.passClosingTag w.top.name
  match w.outer with
  | [] => .done w.top.children reader
  | parent :: outer => .going ⟨reader, parent.add (w.top.element reader.tokenEnd), outer⟩

/-- Reads an element; unless it can have no children it becomes the innermost one. -/
def enter (w : Walk) : Walk :=
  if w.reader.advance.kind ≠ .name then
    { w with reader := w.reader.advance.expect .name }
  else
    let (opening, reader) := w.reader.readOpenTag w.top.literal
    if reader.kind = .selfClose then
      let reader := reader.advance
      { w with reader, top := w.top.add (.element (opening.tag reader.tokenEnd true) []) }
    else
      let reader := reader.expect .tagClose
      if isVoid opening.name then
        { w with reader, top := w.top.add (.element (opening.tag reader.tokenEnd false) []) }
      else ⟨reader, { opening with }, w.top :: w.outer⟩

def addText (w : Walk) : Walk :=
  let (node, reader) := w.reader.readText w.top.literal
  { w with reader, top := w.top.add node }

def addInterpolation (w : Walk) : Walk :=
  let (node, reader) := w.reader.readInterpolation
  { w with reader, top := w.top.add node }

def addComment (w : Walk) : Walk :=
  let (node, reader) := w.reader.readComment
  { w with reader, top := w.top.addAll node.toList }

def addGap (w : Walk) : Walk :=
  if w.reader.atMarkup w.top.literal then { w with top := w.top.addAll w.reader.gap?.toList } else w

def abandon (w : Walk) : Step :=
  close { w with reader := w.reader.report (.unclosedTag w.top.name) }

/-- A closing tag closes the innermost element, also when it is that of another open one. -/
def dispatch (w : Walk) : Step :=
  match w.reader.kind with
  | .endOfFile => w.abandon
  | .closingOpen =>
    let name := w.reader.nextName
    if name = w.top.name then w.close
    else if w.outer.any (·.name = name) then w.abandon
    else .going { w with reader := (w.reader.report (.strayClosingTag name)).skipClosingTag }
  | .tagOpen => .going (if w.reader.opensTag then w.enter else w.addText)
  | .commentOpen => .going w.addComment
  | .interpolationOpen => .going (if w.top.literal then w.addText else w.addInterpolation)
  | _ => .going w.addText

def step (w : Walk) : Step := w.addGap.dispatch

@[simp] theorem reader_addGap (w : Walk) : w.addGap.reader = w.reader := by
  unfold addGap
  split <;> rfl

@[simp] theorem outer_addGap (w : Walk) : w.addGap.outer = w.outer := by
  unfold addGap
  split <;> rfl

open Reader

def Step.reader : Step → Reader
  | .going walk => walk.reader
  | .done _ reader => reader

theorem reader_close (w : Walk) : w.close.reader = w.reader.passClosingTag w.top.name := by
  unfold close
  split <;> rfl

theorem reader_abandon (w : Walk) : w.abandon.reader =
    (w.reader.report (.unclosedTag w.top.name)).passClosingTag w.top.name := reader_close _

theorem passes_enter (w : Walk) : w.reader.advance.Passes w.enter.reader := by
  have tag := (passes_readOpenTag w.reader w.top.literal).of_advance
  unfold enter
  split
  · exact passes_expect _ _
  · dsimp only
    split
    · exact tag.trans (passes_advance _)
    · split <;> exact tag.trans (passes_expect _ _)

section Size

variable {w next : Walk}

theorem size_lt_of_goesOn (goesOn : w.reader.advance.GoesOn next.reader)
    (outer : next.outer = w.outer) (more : w.reader.kind ≠ .endOfFile) : next.size < w.size := by
  have fewer := goesOn.length_lt more
  rw [size, size, outer]
  omega

theorem size_lt_of_close (h : w.close = .going next) : next.size < w.size := by
  have kept := (passes_passClosingTag w.reader w.top.name).goesOn.length_le
  unfold close at h
  split at h
  · simp at h
  · next outer =>
    obtain rfl := Step.going.inj h
    simp [size, outer]
    omega

theorem size_lt_of_abandon (h : w.abandon = .going next) : next.size < w.size :=
  size_lt_of_close (w := { w with reader := w.reader.report (.unclosedTag w.top.name) }) h

theorem size_enter_lt (opens : w.reader.kind = .tagOpen) : w.enter.size < w.size := by
  have first := length_advance_lt (r := w.reader) (by simp [opens])
  unfold enter
  split
  · exact size_lt_of_goesOn (passes_expect _ _).goesOn rfl (by simp [opens])
  · next named =>
    have second := length_advance_lt (r := w.reader.advance) (by simp_all)
    have tag := passes_readOpenTag w.reader w.top.literal
    have selfClosed := (tag.trans (passes_advance _)).goesOn.length_le
    have closed := (tag.trans (passes_expect _ .tagClose)).goesOn.length_le
    dsimp only
    split
    · simp only [size]
      omega
    · split
      · simp only [size]
        omega
      · simp only [size, length_cons]
        omega

end Size

section Dispatch

variable {w : Walk}

theorem dispatch_cases {P : Step → Prop} (abandon : P w.abandon)
    (close : w.reader.kind = .closingOpen → P w.close)
    (stray : w.reader.kind = .closingOpen → P (.going
      { w with reader := (w.reader.report (.strayClosingTag w.reader.nextName)).skipClosingTag }))
    (enter : w.reader.kind = .tagOpen → P (.going w.enter))
    (text : w.reader.kind ≠ .endOfFile → P (.going w.addText))
    (comment : w.reader.kind = .commentOpen → P (.going w.addComment))
    (interpolation : w.reader.kind = .interpolationOpen → w.top.literal = false →
      P (.going w.addInterpolation)) : P w.dispatch := by
  unfold dispatch
  split
  · exact abandon
  · next closes =>
    dsimp only
    split
    · exact close closes
    · split
      · exact abandon
      · exact stray closes
  · next opens =>
    split
    · exact enter opens
    · exact text (by simp [opens])
  · next opens => exact comment opens
  · next opens =>
    split
    · exact text (by simp [opens])
    · next outside => exact interpolation opens (by simpa using outside)
  · next more _ _ _ _ => exact text more

theorem size_lt_of_dispatch {next : Walk} (h : w.dispatch = .going next) : next.size < w.size := by
  have going {last : Walk} (goesOn : w.reader.advance.GoesOn last.reader)
      (outer : last.outer = w.outer) (more : w.reader.kind ≠ .endOfFile)
      (same : Step.going last = .going next) : next.size < w.size :=
    Step.going.inj same ▸ size_lt_of_goesOn goesOn outer more
  revert h
  refine dispatch_cases (P := fun step => step = .going next → next.size < w.size)
    size_lt_of_abandon (fun _ => size_lt_of_close) (fun closes => ?_) (fun opens same => ?_)
    (going (goesOn_readText _ _) rfl) (fun opens => ?_) fun opens _ => ?_
  · exact going ((passes_advance_report _ _).trans (passes_skipClosingTag _)).goesOn rfl
      (by simp [closes])
  · exact Step.going.inj same ▸ size_enter_lt opens
  · exact going (passes_readComment _).goesOn rfl (by simp [opens])
  · exact going (passes_readInterpolation _).goesOn rfl (by simp [opens])

theorem goesOn_dispatch (w : Walk) : w.reader.GoesOn w.dispatch.reader := by
  have closes : w.reader.GoesOn w.close.reader := by
    rw [reader_close]
    exact (passes_passClosingTag _ _).goesOn
  have abandons : w.reader.GoesOn w.abandon.reader := by
    rw [reader_abandon]
    exact ((passes_report _ _).trans (passes_passClosingTag _ _)).goesOn
  have strays (kind : FaultKind) :=
    ((passes_report w.reader kind).trans (passes_skipClosingTag _).of_advance).goesOn
  exact dispatch_cases (P := fun step => w.reader.GoesOn step.reader) abandons (fun _ => closes)
    (fun _ => strays _) (fun _ => (passes_enter w).of_advance.goesOn)
    (fun _ => (goesOn_readText _ _).of_advance) (fun _ => (passes_readComment _).of_advance.goesOn)
    fun _ _ => (passes_readInterpolation _).of_advance.goesOn

end Dispatch

theorem goesOn_step (w : Walk) : w.reader.GoesOn w.step.reader := by
  have dispatched := goesOn_dispatch w.addGap
  rwa [reader_addGap] at dispatched

theorem size_lt_of_step {w next : Walk} (h : w.step = .going next) : next.size < w.size := by
  have gap : w.addGap.size = w.size := by simp [size]
  exact gap ▸ size_lt_of_dispatch h

def run (w : Walk) : List Node × Reader :=
  match _step : w.step with
  | .done children reader => (children, reader)
  | .going next => next.run
termination_by w.size
decreasing_by exact size_lt_of_step _step

theorem goesOn_run (w : Walk) : w.reader.GoesOn w.run.2 := by
  fun_induction run w with
  | case1 w children reader step =>
    have kept := goesOn_step w
    rwa [step] at kept
  | case2 w next step ih =>
    have kept := goesOn_step w
    rw [step] at kept
    exact kept.trans ih

end Walk

end SfcJsx.Markup
