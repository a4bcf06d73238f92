import SfcJsx.Proofs.LiteralMarkup
import SfcJsx.Proofs.PlaceholderPlaces
import SfcJsx.Proofs.RenderSteps

/-!
Attributes with a quoted value. Directives are written with an expression in braces or as a comment;
only plain attributes and classes without mapped names have a value in quotes. A quote inside a
plain value is written as a character reference, a quote inside a class is not.
-/

namespace SfcJsx

open List Text Option

theorem Text.replace_singleton (c : Char) (new t : Text) :
    replace [c] new t = t.flatMap fun d => if d = c then new else [d] := by
  have ne : [c] ≠ [] := by simp
  induction t with
  | nil => exact replace_nil ne new
  | cons d t ih =>
    rw [replace_cons ne, flatMap_cons, ← ih]
    by_cases same : d = c
    · simp [after?, same]
    · simp [after?, same, Ne.symm same]

namespace Markup

/-- No plain attribute has an `=` in its name. -/
def Tag.Named (tag : Tag) : Prop := ∀ attr, .plain attr ∈ tag.attributes → '=' ∉ attr.name

variable {source : Text}

theorem PlainAttribute.not_mem_written (source : Text) (span : Span) :
    '=' ∉ (written source span).name := fun inside =>
  absurd (all_eq_true.1 all_takeWhile _ inside) (by decide)

theorem OpensIn.named {literal inner : Bool} {tag : Tag}
    (h : OpensIn source literal tag.attributes inner) : tag.Named := by
  intro attr given
  have written := PlainAttribute.not_mem_written source attr.span
  have plain (same : Attribute.IsLiteral source (.plain attr)) : '=' ∉ attr.name := by
    rw [Attribute.plain.inj same]
    exact written
  have read := h.attributes _ given
  split at read
  · exact plain read
  · split at read
    · unfold Attribute.IsDemoted at read
      dsimp only at read
      split at read
      · split at read
        · exact read.elim
        · rw [Attribute.plain.inj read]
          exact fun inside => written (subset_trim _ inside)
      · exact plain read
    · unfold Attribute.IsNamed at read
      split at read
      · exact read.elim
      · exact plain read

theorem Node.ReadIn.named {literal : Bool} {node : Node} (h : node.ReadIn source literal) :
    ∀ tag ∈ node.tags, tag.Named := by
  induction h with
  | text | comment | interpolation => exact nofun
  | element opens below ih =>
    rw [Node.tags, Node.tagsOfList_eq_flatMap]
    refine forall_mem_cons.2 ⟨opens.named, fun tag member => ?_⟩
    obtain ⟨child, given, inside⟩ := mem_flatMap.1 member
    exact ih child given tag inside

theorem Component.named_parse (source : Text) :
    ∀ tag ∈ Node.tagsOfList (parse source).1.templateNodes, tag.Named := by
  intro tag member
  rw [Node.tagsOfList_eq_flatMap] at member
  obtain ⟨node, given, inside⟩ := mem_flatMap.1 member
  exact (readIn_parse source node given).named tag inside

end Markup

namespace Render

variable {α β : Type} {P : β → Prop}

def Gives (P : β → Prop) (m : Render β) : Prop := ∀ env found, P (m env found).1

theorem gives_pure {b : β} (h : P b) : Gives P (pure b) := fun _ _ => h

theorem gives_bind {m : Render α} {g : α → Render β} (each : ∀ a, Gives P (g a)) :
    Gives P (m >>= g) := fun env _ => each _ env _

end Render

variable {text t : Text}

namespace Jsx

open Markup Render

variable (d : Directive) (tag : Tag) (env : Environment) (found : Findings)

/-- An attribute with its value in double quotes. -/
def quotedAttribute (name value : Text) : Text := name ++ '=' :: '"' :: (value ++ ['"'])

def EndsOutsideQuotes (t : Text) : Prop := t.getLast? = some '}' ∨ t.getLast? = some '/'

theorem EndsOutsideQuotes.append (h : EndsOutsideQuotes t) (s : Text) :
    EndsOutsideQuotes (s ++ t) := by
  rcases h with last | last <;> simp [EndsOutsideQuotes, getLast?_append, last]

theorem endsOutsideQuotes_brace (t : Text) : EndsOutsideQuotes (t ++ "\x7d") := .append (.inl rfl) t

theorem EndsOutsideQuotes.ne (h : EndsOutsideQuotes t) (name value : Text) :
    quotedAttribute name value ≠ t := by
  rintro rfl
  have last : (quotedAttribute name value).getLast? = some '"' := by
    have split : quotedAttribute name value = (name ++ '=' :: '"' :: value) ++ ['"'] := by
      simp [quotedAttribute]
    rw [split, getLast?_concat]
  rcases h with other | other <;> simp [last] at other

theorem gives_leaveInTag (snippet reason : Text) (span : Span) :
    Gives EndsOutsideQuotes (leaveInTag snippet reason span) := fun _ _ => by
  have ends (tool : Text) : EndsOutsideQuotes (Placeholder.inTag tool reason snippet) :=
    .append (.inr rfl) _
  exact ends _

theorem gives_renderBind : Gives EndsOutsideQuotes (renderBind d) := by
  unfold renderBind
  split
  · exact gives_bind fun _ => gives_pure (endsOutsideQuotes_brace _)
  · exact gives_bind fun _ => gives_bind fun _ => gives_pure (.append (.inl rfl) _)
  · split
    · exact gives_pure (endsOutsideQuotes_brace _)
    · exact gives_bind fun _ => gives_pure (endsOutsideQuotes_brace _)

theorem gives_renderModel : Gives EndsOutsideQuotes (renderModel d) := by
  refine gives_bind fun value => ?_
  split <;> exact gives_pure (.append (.inl rfl) _)

theorem gives_renderListener : Gives EndsOutsideQuotes (renderListener d) := by
  unfold renderListener
  split
  · refine gives_bind fun _ => ?_
    split <;> exact gives_bind fun _ => gives_pure (.append (.inl rfl) _)
  · exact gives_bind fun _ => gives_leaveInTag _ _ _
  · exact gives_bind fun _ => gives_bind fun _ => gives_bind fun _ =>
      gives_pure (endsOutsideQuotes_brace _)

theorem gives_renderDirective : Gives (∀ text ∈ ·, EndsOutsideQuotes text) (renderDirective d) := by
  have given {m : Render Text} (h : Gives EndsOutsideQuotes m) :
      Gives (∀ text ∈ ·, EndsOutsideQuotes text) (some <$> m) := by
    rintro env found _ ⟨⟩
    exact h env found
  unfold renderDirective
  cases d.kind with
  | vIf | vElseIf | vElse | vFor | vSlot | vPre | vCloak => exact gives_pure nofun
  | vBind => exact given (gives_renderBind d)
  | vOn => exact given (gives_renderListener d)
  | vShow | vHtml | vText =>
    exact given (gives_bind fun _ => gives_pure (endsOutsideQuotes_brace _))
  | vModel => exact given (gives_renderModel d)
  | vMemo | custom => exact given (gives_bind fun _ => gives_leaveInTag _ _ _)

section Quoted

variable {name v : Text} {attributes : List Attribute}

theorem eq_of_quotedAttribute {name' v' : Text} (plain : '=' ∉ name) (plain' : '=' ∉ name')
    (same : quotedAttribute name v = quotedAttribute name' v') : name = name' ∧ v = v' := by
  have cut {s : Text} (free : '=' ∉ s) (t : Text) : cut? ['='] (s ++ '=' :: t) = some (s, t) := by
    simpa using cut?_append_of_mem (mem_singleton_self '=') free t
  have both := cut plain ('"' :: (v ++ ['"']))
  rw [← quotedAttribute, same, quotedAttribute, cut plain'] at both
  obtain ⟨names, values⟩ := Prod.mk.inj (some.inj both)
  exact ⟨names.symm, (append_cancel_right (cons.inj values).2).symm⟩

theorem not_mem_escaped (value : Text) : '"' ∉ replace ['"'] "&quot;" value := by
  rw [replace_singleton, mem_flatMap]
  rintro ⟨c, -, inside⟩
  split at inside
  · exact absurd inside (by decide)
  · next other => exact other (mem_singleton.1 inside).symm

theorem ne_renderPlain {attr : PlainAttribute} (named : '=' ∉ attr.name) (plain : '=' ∉ name)
    (quote : '"' ∈ v) : quotedAttribute name v ≠ renderPlain attr := by
  intro same
  unfold renderPlain at same
  split at same
  · next value given =>
    have escaped : quotedAttribute name v =
        quotedAttribute attr.name (replace ['"'] "&quot;" value) := by
      simpa [quotedAttribute] using same
    obtain ⟨-, rfl⟩ := eq_of_quotedAttribute plain named escaped
    exact not_mem_escaped value quote
  · exact named (same ▸ by simp [quotedAttribute])

/-- The value of a written class without a bound one, none of whose names is mapped. -/
structure LiteralClass (env : Environment) (tag : Tag) (value : Text) : Prop where
  written : ((tag.plain? "class").bind (·.value)).bind notBlank? = some value
  unbound : ((tag.bound? "class").bind Directive.expressionText?).bind notBlank? = none
  unmapped : (value.words.all fun name => (env.classReference? name).isNone)

def WrittenClass.alone : WrittenClass → Text
  | literal names => quotedAttribute "class" names
  | expression code => "class=\x7b" ++ code ++ "\x7d"

theorem ofText_cases (value : Text) :
    (value.words.all fun name => (env.classReference? name).isNone) ∧
        WrittenClass.ofText env value = .literal (intercalate " " value.words) ∨
      (value.words.all fun name => (env.classReference? name).isNone) = false ∧
        ∃ code, WrittenClass.ofText env value = .expression code := by
  unfold WrittenClass.ofText
  dsimp only
  split
  · next unmapped => exact .inl ⟨unmapped, rfl⟩
  · next mapped => exact .inr ⟨by simpa using mapped, by split <;> exact ⟨_, rfl⟩⟩

theorem read_apply : (read : Render Environment) env found = (env, found) := rfl

theorem renderClass_unbound
    (unbound : ((tag.bound? "class").bind Directive.expressionText?).bind notBlank? = none) :
    (renderClass tag env found).1 = (((tag.plain? "class").bind (·.value)).bind notBlank?).map
      fun value => (WrittenClass.ofText env value).alone := by
  unfold Jsx.renderClass
  rw [unbound, mapM_none, pure_bind, Render.bind_apply, read_apply]
  cases ((tag.plain? "class").bind (·.value)).bind notBlank? with
  | none => rfl
  | some value =>
    rw [map_some, map_some]
    generalize WrittenClass.ofText env value = w
    cases w <;> rfl

theorem endsOutsideQuotes_renderClass {expression : Text}
    (bound : ((tag.bound? "class").bind Directive.expressionText?).bind notBlank? =
      some expression) : ∀ text ∈ (renderClass tag env found).1, EndsOutsideQuotes text := by
  unfold Jsx.renderClass
  rw [bound, Render.bind_apply, Render.bind_apply]
  cases ((tag.plain? "class").bind (·.value)).bind notBlank? with
  | none =>
    rintro text ⟨⟩
    exact endsOutsideQuotes_brace _
  | some value =>
    rw [Option.map_some]
    generalize WrittenClass.ofText _ value = w
    rintro text member
    cases w with
    | literal | expression =>
      cases member
      exact .append (.inl rfl) _

theorem mem_renderClass_iff (plain : '=' ∉ name) :
    quotedAttribute name v ∈ (renderClass tag env found).1 ↔
      name = "class" ∧ ∃ value, LiteralClass env tag value ∧
        v = intercalate " " value.words := by
  constructor
  · intro member
    cases bound : ((tag.bound? "class").bind Directive.expressionText?).bind notBlank? with
    | some expression =>
      exact absurd rfl ((endsOutsideQuotes_renderClass tag env found bound _ member).ne name v)
    | none =>
      rw [renderClass_unbound tag env found bound] at member
      obtain ⟨value, written, same⟩ := map_eq_some_iff.1 member
      rcases ofText_cases env value with ⟨unmapped, literal⟩ | ⟨-, code, mapped⟩
      · rw [literal] at same
        obtain ⟨rfl, rfl⟩ := eq_of_quotedAttribute (by decide) plain same
        exact ⟨rfl, value, ⟨written, bound, unmapped⟩, rfl⟩
      · rw [mapped] at same
        exact absurd same.symm ((endsOutsideQuotes_brace _).ne name v)
  · rintro ⟨rfl, value, ⟨written, unbound, unmapped⟩, rfl⟩
    have literal := (ofText_cases env value).resolve_right fun mapped => by simp_all
    rw [renderClass_unbound tag env found unbound, written, map_some, literal.2]
    rfl

theorem exists_of_mem_renderAttributesFrom {done : Bool}
    (member : text ∈ (renderAttributesFrom tag done attributes env found).1) :
    (∃ found, text ∈ (renderClass tag env found).1) ∨
      ∃ attr ∈ attributes, isClass attr = false ∧
        ∃ found, text ∈ (renderAttribute attr env found).1 := by
  induction attributes generalizing done found with
  | nil => cases member
  | cons attr rest ih =>
    have later {done : Bool} {found : Findings}
        (member : text ∈ (renderAttributesFrom tag done rest env found).1) :
        _ ∨ ∃ other ∈ attr :: rest, _ := (ih _ member).imp_right
      fun ⟨other, inside, shown⟩ => ⟨other, mem_cons_of_mem _ inside, shown⟩
    unfold renderAttributesFrom at member
    split at member
    · split at member
      · exact later member
      · rcases mem_append.1 member with here | member
        · exact .inl ⟨found, mem_toList.1 here⟩
        · exact later member
    · next other =>
      rcases mem_append.1 member with here | member
      · exact .inr ⟨attr, mem_cons_self, by simpa using other, found, mem_toList.1 here⟩
      · exact later member

theorem mem_renderAttributesFrom {attr : Attribute}
    (rendered : ∀ found, text ∈ (renderClass tag env found).1) (given : attr ∈ attributes)
    (ofClass : isClass attr) : text ∈ (renderAttributesFrom tag false attributes env found).1 := by
  induction attributes generalizing found with
  | nil => cases given
  | cons first rest ih =>
    unfold renderAttributesFrom
    split
    · exact mem_append_left _ (mem_toList.2 (rendered found))
    · next other =>
      rcases mem_cons.1 given with rfl | given
      · exact absurd ofClass other
      · exact mem_append_right _ (ih _ given)

/-- For every element with names as a reader gives them, any values and every class map: an
attribute with a quote inside its quoted value is the class, written without a bound one and with no
name that is mapped. All others end where their first quote ends. -/
theorem quote_inside_iff (named : tag.Named) (plain : '=' ∉ name) (quote : '"' ∈ v) :
    quotedAttribute name v ∈ (renderAttributes tag env found).1 ↔
      name = "class" ∧ ∃ value, LiteralClass env tag value ∧
        v = List.intercalate " " value.words := by
  constructor
  · intro member
    rcases exists_of_mem_renderAttributesFrom tag env found member with
      ⟨found, rendered⟩ | ⟨attr, given, other, found, rendered⟩
    · exact (mem_renderClass_iff tag env found plain).1 rendered
    · cases attr with
      | directive d =>
        exact absurd rfl ((gives_renderDirective d env found _ rendered).ne name v)
      | plain attr =>
        rw [renderAttribute] at rendered
        split at rendered
        · exact absurd (Option.some.inj rendered).symm ((endsOutsideQuotes_brace _).ne name v)
        · exact absurd (Option.some.inj rendered).symm
            (ne_renderPlain (named attr given) plain quote)
  · intro literal
    have rendered (found : Findings) := (mem_renderClass_iff tag env found plain).2 literal
    obtain ⟨-, value, ⟨written, -, -⟩, -⟩ := literal
    obtain ⟨kept, given, -⟩ := Option.bind_eq_some_iff.1 written
    obtain ⟨plain, first, -⟩ := Option.bind_eq_some_iff.1 given
    have named := find?_some first
    obtain ⟨attr, inside, isPlain⟩ := mem_filterMap.1 (mem_of_find?_eq_some first)
    refine mem_renderAttributesFrom tag env found rendered inside ?_
    cases attr with
    | directive => cases isPlain
    | plain attr =>
      cases isPlain
      simpa [isClass] using named

theorem quote_inside_class :
    quotedAttribute "class" "a\"b" ∈ (renderAttributes
      ⟨⟨0, 0⟩, "p", [.plain ⟨⟨0, 0⟩, "class", some "a\"b "⟩], true⟩
      ⟨[], {}, ⟨[]⟩, [], []⟩ {}).1 := by
  refine (quote_inside_iff _ _ _ (fun attr given => ?_) (by decide) (by decide)).2
    ⟨rfl, "a\"b ", ⟨by decide +kernel, by decide +kernel, by decide +kernel⟩, by decide +kernel⟩
  obtain rfl := Attribute.plain.inj (mem_singleton.1 given)
  decide

/-- A quote is escaped in any other attribute. -/
theorem renderAttributes_class_unescaped : (renderAttributes
    ⟨⟨0, 0⟩, "p", [.plain ⟨⟨0, 0⟩, "title", some "a\"b"⟩,
      .plain ⟨⟨0, 0⟩, "class", some "a\"b"⟩], true⟩
    ⟨[], {}, ⟨[]⟩, [], []⟩ {}).1 = ["title=\"a&quot;b\"", "class=\"a\"b\""] := by decide +kernel

end Quoted

end Jsx

end SfcJsx
