import SfcJsx.Markup.Directive
import SfcJsx.Proofs.TextSearch

/-!
The names of directives. What a name is written from is read back from it, although colons, dots and
brackets may stand inside arguments too. Each abbreviation is read as the long form it stands for,
whatever follows it.
-/

namespace SfcJsx.Markup

open List Text

namespace DirectiveKind

/-- Custom directives are named so that neither the end of the name nor the kind is in doubt. -/
def IsNamed : DirectiveKind → Prop
  | custom name => ':' ∉ name ∧ '.' ∉ name ∧ name ∉ builtIn.map (·.1)
  | _ => True

theorem IsNamed.ofName {kind : DirectiveKind} (named : kind.IsNamed) : ofName kind.name = kind := by
  cases kind with
  | custom name =>
    have other : builtIn.lookup name = none := by
      rw [lookup_eq_none_iff]
      intro entry member
      rw [bne_iff_ne]
      rintro rfl
      exact named.2.2 (mem_map_of_mem member)
    show (builtIn.lookup name).getD _ = _
    rw [other]
    rfl
  | _ => rfl

theorem IsNamed.unmarked {kind : DirectiveKind} (named : kind.IsNamed) :
    kind.name.all (fun c => !(c == ':' || c == '.')) := by
  cases kind with
  | custom name =>
    refine all_eq_true.2 fun c member => ?_
    rw [beq_of_not_mem named.1 c member, beq_of_not_mem named.2.1 c member]
    rfl
  | _ => rfl

end DirectiveKind

namespace DirectiveArgument

def written : DirectiveArgument → Text
  | named name => name
  | computed expression => '[' :: expression ++ [']']

def IsWritable : DirectiveArgument → Prop
  | named name => name ≠ [] ∧ '.' ∉ name ∧ name.head? ≠ some '['
  | computed expression => ']' ∉ expression

end DirectiveArgument

namespace DirectiveName

def modifierText (modifiers : List Text) : Text := modifiers.flatMap ('.' :: ·)

/-- A directive spelled in full, with its argument and modifiers. -/
def written (d : DirectiveName) : Text :=
  "v-" ++ d.kind.name ++ (d.argument.elim [] (':' :: ·.written)) ++ modifierText d.modifiers

/-- The parts of a directive that can be told apart once it is spelled. -/
structure IsWritable (d : DirectiveName) : Prop where
  kind : d.kind.IsNamed
  argument : ∀ argument ∈ d.argument, argument.IsWritable
  modifiers : ∀ modifier ∈ d.modifiers, modifier ≠ [] ∧ '.' ∉ modifier

section Suffix

variable {modifiers : List Text} (kind : DirectiveKind)
  (plain : ∀ modifier ∈ modifiers, modifier ≠ [] ∧ '.' ∉ modifier)

theorem modifierText_eq (modifiers : List Text) :
    modifierText modifiers = intercalate ['.'] ([] :: modifiers) := by
  induction modifiers with
  | nil => rfl
  | cons first rest ih =>
    cases rest <;> simp_all [modifierText, intercalate_cons_cons]

theorem breakAt_modifierText {isStop : Char → Bool} (dot : isStop '.') :
    breakAt isStop (modifierText modifiers) = ([], modifierText modifiers) := by
  cases modifiers <;> simp [breakAt, modifierText, dot]

include plain

theorem modifiersOf_modifierText : modifiersOf (modifierText modifiers) = modifiers := by
  have free : ∀ t ∈ [] :: modifiers, '.' ∉ t := by simpa using fun t member => (plain t member).2
  rw [modifiersOf, modifierText_eq, fields_intercalate (by simp) free, filter_cons_of_neg (by simp)]
  simpa using fun modifier member => (plain modifier member).1

theorem suffix_modifierText : suffix kind (modifierText modifiers) = ⟨kind, none, modifiers⟩ := by
  have read := modifiersOf_modifierText plain
  cases modifiers with
  | nil => rfl
  | cons first rest => exact congrArg (DirectiveName.mk kind none) read

theorem suffix_argument {argument : DirectiveArgument} (writable : argument.IsWritable) :
    suffix kind (argument.written ++ modifierText modifiers) =
      ⟨kind, some argument, modifiers⟩ := by
  have read := modifiersOf_modifierText plain
  cases argument with
  | named name =>
    obtain ⟨ne, free, bracket⟩ := writable
    have parts := breakAt_append (beq_of_not_mem free) (modifierText modifiers)
    rw [breakAt_modifierText rfl, append_nil] at parts
    obtain ⟨c, name, rfl⟩ := exists_cons_of_ne_nil ne
    have dot : c ≠ '.' := fun same => free (by simp [same])
    rw [DirectiveArgument.written, suffix.eq_def]
    split
    · next same => exact absurd (congrArg head? same) bracket
    · next same => exact absurd (cons.inj same).1 dot
    · simp only [parts, read]
      rfl
  | computed expression =>
    have found := cut?_append_of_mem (mem_singleton_self ']') writable (modifierText modifiers)
    rw [DirectiveArgument.written, cons_append, cons_append, suffix]
    simp only [found, read]

end Suffix

theorem parse?_long {kind : DirectiveKind} (named : kind.IsNamed) {tail : Text}
    (stops : breakAt (fun c => c == ':' || c == '.') tail = ([], tail)) :
    parse? ("v-" ++ kind.name ++ tail) = some (suffix kind ((after? [':'] tail).getD tail)) := by
  have unmarked : ∀ c ∈ kind.name, (c == ':' || c == '.') = false := by
    simpa only [all_eq_true, Bool.not_eq_true'] using named.unmarked
  have parts := breakAt_append unmarked tail
  rw [stops, append_nil] at parts
  have whole : "v-" ++ kind.name ++ tail = 'v' :: '-' :: (kind.name ++ tail) := rfl
  rw [whole, parse?]
  simp only [parts, named.ofName]

theorem parse?_argument {kind : DirectiveKind} (named : kind.IsNamed) (t : Text) :
    parse? ("v-" ++ kind.name ++ ':' :: t) = some (suffix kind t) :=
  parse?_long named (by simp [breakAt])

/-- A name that is written from a kind, an argument and modifiers is read as those. After `:`, `@`,
`#` and `.` any text is read as it is after the long form. -/
theorem parse?_written (d : DirectiveName) (t : Text) :
    (d.IsWritable → parse? d.written = some d) ∧
      parse? (':' :: t) = parse? ("v-bind:" ++ t) ∧
      parse? ('@' :: t) = parse? ("v-on:" ++ t) ∧
      parse? ('#' :: t) = parse? ("v-slot:" ++ t) ∧
      (t ≠ [] → parse? ('.' :: t) = (parse? ("v-bind:" ++ t)).map fun bound =>
        { bound with modifiers := "prop" :: bound.modifiers }) := by
  have long (t : Text) : parse? ("v-bind:" ++ t) = some (suffix .vBind t) :=
    @parse?_argument .vBind trivial t
  refine ⟨fun writable => ?_, (long t).symm, (@parse?_argument .vOn trivial t).symm,
    (@parse?_argument .vSlot trivial t).symm, fun ne => ?_⟩
  · obtain ⟨kind, argument, modifiers⟩ := d
    obtain ⟨named, argued, plain⟩ := writable
    rw [written]
    cases argument with
    | none =>
      have bare : after? [':'] (modifierText modifiers) = none := by cases modifiers <;> rfl
      rw [Option.elim_none, append_nil, parse?_long named (breakAt_modifierText rfl), bare,
        Option.getD_none, suffix_modifierText kind plain]
    | some argument =>
      rw [Option.elim_some, append_assoc, cons_append, parse?_argument named,
        suffix_argument kind plain (argued argument rfl)]
  · obtain ⟨c, t, rfl⟩ := exists_cons_of_ne_nil ne
    rw [long]
    rfl

theorem parse?_written_computed :
    parse? "v-on:[a.b:c].stop.x:y" =
      some ⟨.vOn, some (.computed "a.b:c"), ["stop", "x:y"]⟩ ∧
    parse? ".a.b" = some ⟨.vBind, some (.named "a"), ["prop", "b"]⟩ := by
  have read := parse?_written ⟨.vOn, some (.computed "a.b:c"), ["stop", "x:y"]⟩ "a.b"
  exact ⟨read.1 ⟨trivial, by simp [DirectiveArgument.IsWritable], by simp⟩,
    (read.2.2.2.2 (by simp)).trans (by decide +kernel)⟩

end DirectiveName

end SfcJsx.Markup
