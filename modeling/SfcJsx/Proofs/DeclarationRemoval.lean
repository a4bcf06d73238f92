import SfcJsx.Script.Setup
import SfcJsx.Proofs.NameOccurrences
import SfcJsx.Proofs.StatementStart

/-!
Taking a declaration out of a script. It is taken out exactly when its statement starts a line and
its pattern stands on one line. Otherwise the pattern is not seen as a whole, or what stands before
the statement on its line goes with it.
-/

namespace SfcJsx.Script

open List Code Setup

variable {t : Text}

inductive Declares where
  | props
  | emits
  | slots
  deriving DecidableEq, Repr

namespace Declares

def name : Declares → Text
  | props => "defineProps"
  | emits => "defineEmits"
  | slots => "defineSlots"

def of : Declares → Setup → Option Declaration
  | props => Setup.props
  | emits => Setup.emits
  | slots => Setup.slots

end Declares

def declarationNames : List Text :=
  ["withDefaults", "defineProps", "defineEmits", "defineSlots", "defineExpose", "defineOptions",
    "defineModel"].map String.toList

theorem Declares.name_mem (kind : Declares) : kind.name ∈ declarationNames := by
  cases kind <;> decide

theorem isWord_of_mem_declarationNames {name : Text} (mem : name ∈ declarationNames) :
    name ≠ [] ∧ name.all Text.isIdentChar := by
  have words : declarationNames.all (fun name => !name.isEmpty && name.all Text.isIdentChar) =
      true := by decide
  have word := all_eq_true.1 words name mem
  rw [Bool.and_eq_true] at word
  exact ⟨by simpa using word.1, word.2⟩

theorem among?_append {name : Text} {indices : List Nat}
    (absent : ∀ i ∈ indices, readArguments (t.drop (i + name.length)) = .absent)
    (more : List Nat) : Call.among? t name (indices ++ more) = Call.among? t name more := by
  induction indices with
  | nil => rfl
  | cons i indices ih =>
    rw [cons_append, Call.among?, absent i (by simp)]
    exact ih (forall_mem_cons.1 absent).2

/-- A script that holds `const pattern = call`. -/
structure Site where
  before : Text
  pattern : Text
  kind : Declares
  arguments : Text
  after : Text

namespace Setup

def withoutLast (t : Text) : Text :=
  (takeModels 0 (take "defineOptions" (take "defineExpose" t).2).2).2

/-- The script that is left when all declaration calls are taken out. -/
def withoutDeclarations (script : Text) : Text :=
  withoutLast (take "defineSlots" (take "defineEmits" (takeProps script).2.2).2).2

def Lacks (t name : Text) : Prop := occurrences t (mask t) name 0 = []

theorem find?_of_lacks {name : Text} (lacks : Lacks t name) : Call.find? t name 0 = none := by
  rw [Call.find?, show occurrences t (mask t) name 0 = [] from lacks]
  rfl

theorem take_of_lacks {name : Text} (lacks : Lacks t name) : take name t = (none, t) := by
  rw [take, find?_of_lacks lacks]

theorem takeModels_of_lacks (lacks : Lacks t "defineModel") : takeModels 0 t = ([], t) := by
  have absent := find?_of_lacks lacks
  rw [takeModels]
  split
  · next found => cases absent.symm.trans found
  · rfl

theorem takeProps_of_lacks (lacks : Lacks t "withDefaults") :
    takeProps t = ((take "defineProps" t).1, none, (take "defineProps" t).2) := by
  rw [takeProps, withDefaults?, find?_of_lacks lacks]
  rfl

theorem length_take_le (name t : Text) : (take name t).2.length ≤ t.length := by
  unfold take
  split
  · next found => exact Nat.le_of_lt (Call.length_removed_lt found)
  · exact Nat.le_refl _

theorem length_takeModels_le (start : Nat) (t : Text) :
    (takeModels start t).2.length ≤ t.length := by
  fun_induction takeModels start t with
  | case1 start t call found rest ih =>
    exact Nat.le_trans ih (Nat.le_of_lt (Call.length_removed_lt found))
  | case2 => exact Nat.le_refl _

theorem length_withoutLast_le (t : Text) : (withoutLast t).length ≤ t.length :=
  Nat.le_trans (length_takeModels_le ..)
    (Nat.le_trans (length_take_le ..) (length_take_le ..))

def LacksOthers (t : Text) (kind : Declares) : Prop :=
  ∀ name ∈ declarationNames, name ≠ kind.name → Lacks t name

variable {kind : Declares}

theorem withoutLast_of_lacksOthers (lacks : LacksOthers t kind) : withoutLast t = t := by
  have other {name : Text} (mem : name ∈ declarationNames)
      (apart : ∀ kind : Declares, name ≠ kind.name) : Lacks t name := lacks name mem (apart kind)
  have expose : Lacks t "defineExpose" := other (by decide) (by rintro (_ | _ | _) <;> decide)
  have options : Lacks t "defineOptions" := other (by decide) (by rintro (_ | _ | _) <;> decide)
  have models : Lacks t "defineModel" := other (by decide) (by rintro (_ | _ | _) <;> decide)
  rw [withoutLast, take_of_lacks expose, take_of_lacks options, takeModels_of_lacks models]

theorem read_of_lacksOthers (lacks : LacksOthers t kind) :
    kind.of (read t) = (take kind.name t).1 ∧
      (withoutDeclarations t).length ≤ (take kind.name t).2.length ∧
      (LacksOthers (take kind.name t).2 kind → withoutDeclarations t = (take kind.name t).2) := by
  have defaults : Lacks t "withDefaults" := by
    refine lacks _ (by decide) ?_
    cases kind <;> decide
  have props := takeProps_of_lacks defaults
  cases kind with
  | props =>
    rw [show Declares.props.name = "defineProps".toList from rfl]
    have declared : Declares.of .props (read t) = (take "defineProps" t).1 := by
      simp only [Declares.of, read, props]
    have taken : withoutDeclarations t =
        withoutLast (take "defineSlots" (take "defineEmits" (take "defineProps" t).2).2).2 := by
      rw [withoutDeclarations, props]
    refine ⟨declared, ?_, fun left => ?_⟩
    · rw [taken]
      exact Nat.le_trans (length_withoutLast_le _)
        (Nat.le_trans (length_take_le ..) (length_take_le ..))
    · have emits := take_of_lacks (left "defineEmits" (by decide) (by decide))
      have slots := take_of_lacks (left "defineSlots" (by decide) (by decide))
      rw [taken, emits, slots, withoutLast_of_lacksOthers left]
  | emits =>
    rw [show Declares.emits.name = "defineEmits".toList from rfl]
    have noProps := take_of_lacks (lacks "defineProps" (by decide) (by decide))
    rw [noProps] at props
    have declared : Declares.of .emits (read t) = (take "defineEmits" t).1 := by
      simp only [Declares.of, read, props]
    have taken : withoutDeclarations t =
        withoutLast (take "defineSlots" (take "defineEmits" t).2).2 := by
      rw [withoutDeclarations, props]
    refine ⟨declared, ?_, fun left => ?_⟩
    · rw [taken]
      exact Nat.le_trans (length_withoutLast_le _) (length_take_le ..)
    · have slots := take_of_lacks (left "defineSlots" (by decide) (by decide))
      rw [taken, slots, withoutLast_of_lacksOthers left]
  | slots =>
    rw [show Declares.slots.name = "defineSlots".toList from rfl]
    have noProps := take_of_lacks (lacks "defineProps" (by decide) (by decide))
    have noEmits := take_of_lacks (lacks "defineEmits" (by decide) (by decide))
    rw [noProps] at props
    have declared : Declares.of .slots (read t) = (take "defineSlots" t).1 := by
      simp only [Declares.of, read, props, noEmits]
    have taken : withoutDeclarations t = withoutLast (take "defineSlots" t).2 := by
      rw [withoutDeclarations, props, noEmits]
    refine ⟨declared, ?_, fun left => ?_⟩
    · rw [taken]
      exact length_withoutLast_le _
    · rw [taken, withoutLast_of_lacksOthers left]

end Setup

namespace Site

variable {site : Site}

/-- The script around a declaration call. -/
def script (site : Site) : Text :=
  site.before ++ (heading site.pattern ++ (site.kind.name ++ (site.arguments ++ site.after)))

theorem script_eq (site : Site) : site.script = (site.before ++ heading site.pattern) ++
    (site.kind.name ++ (site.arguments ++ site.after)) := by
  simp [Site.script]

/-- The statement starts in code at a statement boundary, it binds an identifier or a balanced
pattern to a balanced call, and this call is the first of its name. -/
structure IsDeclaration (site : Site) : Prop where
  boundary : site.before = [] ∨ ∃ ps c, pieces site.before = ps ++ [.code c] ∧
    (c = '\n' ∨ c = ';')
  pattern : IsPattern site.pattern
  call : ∃ typeArgument content,
    readArguments site.arguments = .given typeArgument content []
  first : ∀ i ∈ occurrences site.script (mask site.script) site.kind.name 0,
    i < (site.before ++ heading site.pattern).length →
      readArguments (site.script.drop (i + site.kind.name.length)) = .absent

/-- The script holds no name of another declaration. -/
def IsAlone (site : Site) : Prop := Setup.LacksOthers site.script site.kind

/-- The pattern is bound, and of the script the statement is gone with its tail and nothing else. -/
def IsRemoved (site : Site) (binding : Option Text) (text : Text) : Prop :=
  binding = some site.pattern ∧ ∃ tail rest, site.after = tail ++ rest ∧
    IsStatementTail tail ∧ text = site.before ++ rest

theorem IsDeclaration.endsPlain_before (declares : site.IsDeclaration) : EndsPlain site.before := by
  rcases declares.boundary with none | ⟨ps, c, read, rfl | rfl⟩
  · exact .inl none
  all_goals exact .inr ⟨ps, _, read, by decide⟩

theorem IsDeclaration.startsLine_or (declares : site.IsDeclaration) :
    StartsLine site.before ∨ ∃ init, site.before = init ++ [';'] := by
  rcases declares.boundary with none | ⟨ps, c, read, mark⟩
  · exact .inl (.inl none)
  · have whole : site.before = flatten ps ++ [c] := by
      rw [← flatten_pieces site.before, read]
      simp [Piece.text]
    rcases mark with rfl | rfl
    · exact .inl (.inr ⟨_, whole⟩)
    · exact .inr ⟨_, whole⟩

theorem endsPlain_heading {pattern : Text} (isPattern : IsPattern pattern) :
    EndsPlain (heading pattern) := by
  have plain {s : Text} (all : s.all isPlain) : EndsPlain s :=
    endsPlain_of_isPlain (all_eq_true.1 all)
  exact (plain (by decide)).append
    ((plain (by decide)).append (isPattern.endsPlain.append (plain (by decide))))

section

variable (declares : site.IsDeclaration)

include declares

theorem IsDeclaration.exists_occurrences :
    ∃ earlier later, occurrences site.script (mask site.script) site.kind.name 0 =
        earlier ++ (site.before ++ heading site.pattern).length :: later ∧
      ∀ i ∈ earlier, i < (site.before ++ heading site.pattern).length := by
  obtain ⟨typeArgument, content, given⟩ := declares.call
  have arguments := isArguments_of_readArguments given
  have plain := declares.endsPlain_before.append (endsPlain_heading declares.pattern)
  obtain ⟨ne, named⟩ := isWord_of_mem_declarationNames (Declares.name_mem site.kind)
  have word : EndsWord (site.before ++ heading site.pattern) := by
    refine .inr ⟨site.before ++ ("const".toList ++ ([' '] ++ (site.pattern ++ " =".toList))), ' ',
      ?_, by decide, by decide⟩
    simp [heading]
  have isCode : ∃ more, mask (site.kind.name ++ (site.arguments ++ site.after)) =
      true :: more := by
    have plainName : ∀ c ∈ site.kind.name, isPlain c := fun c mem =>
      isPlain_of_isIdentChar (all_eq_true.1 named c mem)
    obtain ⟨c, tail, same⟩ := exists_cons_of_ne_nil ne
    rw [mask, marked_append_of_isPlain plainName, same]
    exact ⟨_, rfl⟩
  obtain ⟨more, code⟩ := isCode
  have next : (site.arguments ++ site.after).head?.any Text.isIdentChar = false := by
    obtain ⟨init, last⟩ := arguments.last
    have ne : site.arguments ≠ [] := by simp [last]
    obtain ⟨c, tail, same⟩ := exists_cons_of_ne_nil ne
    have head := arguments.head
    rw [same] at head ⊢
    exact head
  have start : partsNames none := rfl
  obtain ⟨later, here⟩ := exists_occurrencesFrom_name ne start next 0 more
  have cut := occurrences_append ne named word
    (plain.parts (site.kind.name ++ (site.arguments ++ site.after)))
  rw [← site.script_eq, code, occurrences_zero (site.kind.name ++ _), here, map_cons,
    Nat.zero_add] at cut
  refine ⟨_, _, cut, fun i mem => ?_⟩
  simpa using (mem_occurrencesFrom mem).2

theorem IsDeclaration.find? :
    ∃ typeArgument argumentText, Call.find? site.script site.kind.name 0 =
      some ⟨(statementStart (site.before ++ heading site.pattern)).1,
        (statementStart (site.before ++ heading site.pattern)).2, typeArgument, argumentText,
        site.after⟩ := by
  obtain ⟨typeArgument, content, given⟩ := declares.call
  have arguments := isArguments_of_readArguments given
  obtain ⟨earlier, later, found, before⟩ := declares.exists_occurrences
  have mentions : ∀ i ∈ earlier,
      readArguments (site.script.drop (i + site.kind.name.length)) = .absent := by
    intro i mem
    refine declares.first i ?_ (before i mem)
    rw [found]
    exact mem_append_left _ mem
  have rest : site.script.drop ((site.before ++ heading site.pattern).length +
      site.kind.name.length) = site.arguments ++ site.after := by
    rw [script_eq, ← length_append, ← append_assoc, drop_left]
  have head : site.script.take (site.before ++ heading site.pattern).length =
      site.before ++ heading site.pattern := by
    rw [script_eq, take_left]
  rw [Call.find?, found, among?_append mentions, Call.among?, rest, arguments.read, head]
  exact ⟨_, _, rfl⟩

theorem IsDeclaration.take_eq :
    (Setup.take site.kind.name site.script).1.bind (·.binding) =
        (statementStart (site.before ++ heading site.pattern)).2 ∧
      (Setup.take site.kind.name site.script).2 =
        (statementStart (site.before ++ heading site.pattern)).1 ++ afterStatement site.after := by
  obtain ⟨typeArgument, argumentText, found⟩ := declares.find?
  rw [Setup.take, found]
  exact ⟨rfl, rfl⟩

theorem IsDeclaration.isRemoved (starts : StartsLine site.before) (oneLine : '\n' ∉ site.pattern) :
    site.IsRemoved ((take site.kind.name site.script).1.bind (·.binding))
      (take site.kind.name site.script).2 := by
  rw [declares.take_eq.1, declares.take_eq.2,
    statementStart_of_startsLine declares.pattern oneLine starts]
  obtain ⟨tail, ends, whole⟩ := exists_isStatementTail site.after
  exact ⟨rfl, tail, _, whole, ends, rfl⟩

theorem IsDeclaration.startsLine
    (bound : (take site.kind.name site.script).1.bind (·.binding) = some site.pattern)
    {tail rest : Text} (split : site.after = tail ++ rest) (ends : IsStatementTail tail)
    (long : (site.before ++ rest).length ≤ (take site.kind.name site.script).2.length) :
    StartsLine site.before ∧ '\n' ∉ site.pattern := by
  rw [declares.take_eq.1] at bound
  rw [declares.take_eq.2] at long
  have oneLine := break_notMem_binding bound
  rcases declares.startsLine_or with starts | ⟨init, behind⟩
  · exact ⟨starts, oneLine⟩
  · rw [behind] at bound long
    have lost := length_statementStart_lt oneLine bound
    have dropped := (ends.suffix rest).length_le
    rw [split] at long
    simp only [length_append] at long lost
    omega

end

theorem IsAlone.of_isRemoved (alone : site.IsAlone) (declares : site.IsDeclaration)
    (starts : StartsLine site.before) {tail rest : Text} (split : site.after = tail ++ rest)
    (ends : IsStatementTail tail) : LacksOthers (site.before ++ rest) site.kind := by
  obtain ⟨typeArgument, content, given⟩ := declares.call
  have arguments := isArguments_of_readArguments given
  intro name mem other
  obtain ⟨ne, named⟩ := isWord_of_mem_declarationNames mem
  have plainName : EndsPlain site.kind.name := by
    have inName := (isWord_of_mem_declarationNames (Declares.name_mem site.kind)).2
    exact endsPlain_of_isIdentChar (all_eq_true.1 inName)
  have gone : EndsPlain
      (heading site.pattern ++ (site.kind.name ++ (site.arguments ++ tail))) :=
    (endsPlain_heading declares.pattern).append
      (plainName.append (arguments.endsPlain.append (endsPlain_of_isPlain ends.isPlain)))
  have word : EndsWord
      (heading site.pattern ++ (site.kind.name ++ (site.arguments ++ tail))) := by
    rcases eq_nil_or_concat tail with rfl | ⟨init, c, rfl⟩
    · obtain ⟨init, last⟩ := arguments.last
      exact .inr ⟨heading site.pattern ++ (site.kind.name ++ init), ')', by simp [last],
        by decide, by decide⟩
    · have marks : tailMarks.all (fun c => !Text.isIdentChar c && c != '.') := by
        decide
      have mark := all_eq_true.1 marks c (ends.subset (by simp))
      rw [Bool.and_eq_true] at mark
      exact .inr ⟨heading site.pattern ++ (site.kind.name ++ (site.arguments ++ init)), c,
        by simp, by simpa using mark.1, by simpa using mark.2⟩
  have start : EndsWord site.before := by
    rcases starts with none | ⟨init, line⟩
    · exact .inl none
    · exact .inr ⟨init, '\n', line, by decide, by decide⟩
  refine occurrences_eq_nil_of_removed ne named start word declares.endsPlain_before gone ?_
  have absent := alone name mem other
  simpa [Lacks, Site.script, split] using absent

end Site

/-- A declaration is taken out exactly if and only if its statement starts a line and its pattern
stands on one line. This holds of the step that takes declarations of its kind, whatever else the
script declares, and of the whole reading where the script declares nothing else. -/
theorem Site.isRemoved_iff (site : Site) (declares : site.IsDeclaration) :
    (site.IsRemoved ((Setup.take site.kind.name site.script).1.bind (·.binding))
        (Setup.take site.kind.name site.script).2 ↔
      StartsLine site.before ∧ '\n' ∉ site.pattern) ∧
    (site.IsAlone →
      (site.IsRemoved ((site.kind.of (Setup.read site.script)).bind (·.binding))
          (Setup.withoutDeclarations site.script) ↔
        StartsLine site.before ∧ '\n' ∉ site.pattern)) := by
  constructor
  · constructor
    · rintro ⟨bound, tail, rest, split, ends, same⟩
      exact declares.startsLine bound split ends (Nat.le_of_eq (congrArg List.length same.symm))
    · rintro ⟨starts, oneLine⟩
      exact declares.isRemoved starts oneLine
  · intro alone
    obtain ⟨declared, shorter, whole⟩ := Setup.read_of_lacksOthers alone
    rw [declared]
    constructor
    · rintro ⟨bound, tail, rest, split, ends, same⟩
      exact declares.startsLine bound split ends (same ▸ shorter)
    · rintro ⟨starts, oneLine⟩
      obtain ⟨bound, tail, rest, split, ends, same⟩ := declares.isRemoved starts oneLine
      have left := alone.of_isRemoved declares starts split ends
      rw [← same] at left
      exact ⟨bound, tail, rest, split, ends, (whole left).trans same⟩

theorem Site.isAlone_of_all {site : Site}
    (others : declarationNames.all (fun name => name == site.kind.name ||
      (occurrences site.script (mask site.script) name 0).isEmpty)) : site.IsAlone := by
  intro name mem other
  have tested := all_eq_true.1 others name mem
  rw [Bool.or_eq_true, beq_iff_eq] at tested
  exact isEmpty_iff.1 (tested.resolve_left other)

def Site.typedProps : Site :=
  ⟨"let n = 1\n".toList, "\x7b a, b \x7d".toList, .props, "<\x7b a: string \x7d>()".toList,
    " ;\nuse(a)".toList⟩

theorem Site.isRemoved_iff_typedProps :
    typedProps.IsDeclaration ∧ typedProps.IsAlone ∧
      typedProps.IsRemoved ((Setup.read typedProps.script).props.bind (·.binding))
        (Setup.withoutDeclarations typedProps.script) := by
  have declares : typedProps.IsDeclaration := by
    refine ⟨.inr ⟨"let n = 1".toList.map .code, '\n', by decide +kernel, .inl rfl⟩,
      .inr (.inl ⟨" a, b ".toList, by decide +kernel⟩),
      ⟨some "\x7b a: string \x7d".toList, [], by decide +kernel⟩, ?_⟩
    have found : Code.occurrences typedProps.script (mask typedProps.script)
        typedProps.kind.name 0 = [27] := by decide +kernel
    intro i mem early
    rw [found] at mem
    obtain rfl := mem_singleton.1 mem
    exact absurd early (by decide)
  have alone : typedProps.IsAlone := isAlone_of_all (by decide +kernel)
  have starts : StartsLine typedProps.before := .inr ⟨"let n = 1".toList, by decide⟩
  exact ⟨declares, alone, ((isRemoved_iff typedProps declares).2 alone).2 ⟨starts, by decide⟩⟩

def Site.patternOverLines : Site :=
  ⟨[], "\x7b\n  a,\n\x7d".toList, .props, "(['a'])".toList, "\n".toList⟩

/-- A pattern over several lines stays behind without its call. -/
theorem Site.patternOverLines_notRemoved :
    patternOverLines.IsDeclaration ∧ patternOverLines.IsAlone ∧
      Setup.withoutDeclarations patternOverLines.script =
        "const \x7b\n  a,\n\x7d = ".toList ∧
      (Setup.read patternOverLines.script).props = some ⟨none, some (.byValue "['a']".toList)⟩ ∧
      ¬ patternOverLines.IsRemoved ((Setup.read patternOverLines.script).props.bind (·.binding))
        (Setup.withoutDeclarations patternOverLines.script) := by
  have declares : patternOverLines.IsDeclaration := by
    refine ⟨.inl rfl, .inr (.inl ⟨"\n  a,\n".toList, by decide +kernel⟩),
      ⟨none, "['a']".toList, by decide +kernel⟩, ?_⟩
    have found : Code.occurrences patternOverLines.script (mask patternOverLines.script)
        patternOverLines.kind.name 0 = [17] := by decide +kernel
    intro i mem early
    rw [found] at mem
    obtain rfl := mem_singleton.1 mem
    exact absurd early (by decide)
  have props : (Setup.read patternOverLines.script).props =
      some ⟨none, some (.byValue "['a']".toList)⟩ := by decide +kernel
  refine ⟨declares, isAlone_of_all (by decide +kernel), by decide +kernel, props, ?_⟩
  rintro ⟨bound, -⟩
  rw [props] at bound
  cases bound

end SfcJsx.Script
