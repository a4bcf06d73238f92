import Mathlib.Data.List.Infix
import SfcJsx.Options.Declared

/-!
Models among the options of a component. Each one is folded into the props and into the events, with
a warning where a prop has its name. Main statement: what the props and the events declare on their
own comes first and stays as it is, every model is declared behind it, and nothing is added twice.
-/

namespace SfcJsx.Options

open List Script

section Firsts

variable {α : Type} (key : α → Text) {l : List α} {k : Text}

def turns (l : List α) : List (α × List α) := l.zip l.inits

/-- Whether the key of an element is known at its turn: from the start, or from an element before
it. -/
def isTaken (known : List Text) (turn : α × List α) : Bool :=
  (known ++ turn.2.map key).contains (key turn.1)

def firsts (known : List Text) (l : List α) : List α :=
  ((turns l).filter (!isTaken key known ·)).map (·.1)

def repeats (known : List Text) (l : List α) : List α :=
  ((turns l).filter (isTaken key known)).map (·.1)

variable {key} {known other : List Text}

theorem turns_cons (a : α) (l : List α) :
    turns (a :: l) = (a, []) :: (turns l).map fun turn => (turn.1, a :: turn.2) := by
  simp [turns, zip_map_right]

theorem isTaken_cons (a b : α) (before : List α) :
    isTaken key known (b, a :: before) = isTaken key (known ++ [key a]) (b, before) := by
  simp [isTaken]

theorem firsts_cons (a : α) (l : List α) : firsts key known (a :: l) =
    (if key a ∈ known then [] else [a]) ++ firsts key (known ++ [key a]) l := by
  have later : (turns l).filter ((!isTaken key known ·) ∘ fun turn => (turn.1, a :: turn.2)) =
      (turns l).filter (!isTaken key (known ++ [key a]) ·) :=
    filter_congr fun turn _ => by rw [Function.comp, isTaken_cons]
  rw [firsts, turns_cons, filter_cons, filter_map, later]
  by_cases taken : key a ∈ known <;> simp [isTaken, taken, firsts]

theorem repeats_cons (a : α) (l : List α) : repeats key known (a :: l) =
    (if key a ∈ known then [a] else []) ++ repeats key (known ++ [key a]) l := by
  have later : (turns l).filter (isTaken key known ∘ fun turn => (turn.1, a :: turn.2)) =
      (turns l).filter (isTaken key (known ++ [key a])) :=
    filter_congr fun turn _ => by rw [Function.comp, isTaken_cons]
  rw [repeats, turns_cons, filter_cons, filter_map, later]
  by_cases taken : key a ∈ known <;> simp [isTaken, taken, repeats]

section

variable (same : ∀ k, k ∈ known ↔ k ∈ other)

include same

theorem isTaken_congr (turn : α × List α) : isTaken key known turn = isTaken key other turn := by
  simp [isTaken, same]

theorem firsts_congr (l : List α) : firsts key known l = firsts key other l := by
  simp only [firsts, isTaken_congr same]

theorem repeats_congr (l : List α) : repeats key known l = repeats key other l := by
  rw [repeats, repeats, funext (isTaken_congr same)]

end

theorem mem_concat_iff (listed : k ∈ known) (k' : Text) : k' ∈ known ++ [k] ↔ k' ∈ known := by
  simp only [mem_append, mem_singleton]
  exact ⟨fun member => member.elim id fun same => same ▸ listed, .inl⟩

theorem not_mem_of_mem_firsts (member : k ∈ (firsts key known l).map key) : k ∉ known := by
  induction l generalizing known with
  | nil => simp [firsts, turns] at member
  | cons a l ih =>
    rw [firsts_cons, map_append, mem_append] at member
    rcases member with here | later
    · split at here
      · cases here
      · next fresh =>
        obtain rfl : k = key a := by simpa using here
        exact fresh
    · exact fun listed => ih later (by simp [listed])

theorem nodup_firsts (l : List α) : ((firsts key known l).map key).Nodup := by
  induction l generalizing known with
  | nil => simp [firsts, turns]
  | cons a l ih =>
    rw [firsts_cons, map_append, nodup_append]
    refine ⟨by split <;> simp, ih, ?_⟩
    rintro k here _ later rfl
    have apart := not_mem_of_mem_firsts later
    split at here
    · cases here
    · exact apart (by simp_all)

theorem nodup_append_firsts (l : List α) :
    (known ++ (firsts key known l).map key).Nodup ↔ known.Nodup := by
  refine ⟨fun both => (nodup_append.1 both).1, fun start => ?_⟩
  refine nodup_append.2 ⟨start, nodup_firsts l, ?_⟩
  rintro k listed _ new rfl
  exact not_mem_of_mem_firsts new listed

theorem mem_append_firsts {a : α} (member : a ∈ l) :
    key a ∈ known ++ (firsts key known l).map key := by
  induction l generalizing known with
  | nil => cases member
  | cons b l ih =>
    have added : key b ∈ known ++ (firsts key known (b :: l)).map key := by
      rw [firsts_cons]
      by_cases taken : key b ∈ known <;> simp [taken]
    rcases mem_cons.1 member with rfl | later
    · exact added
    · have found := @ih (known ++ [key b]) later
      rw [firsts_cons, map_append] at added ⊢
      simp only [mem_append, mem_singleton] at added found ⊢
      rcases found with (listed | same) | new
      · exact .inl listed
      · rwa [same]
      · exact .inr (.inr new)

theorem length_firsts_add_repeats (l : List α) :
    (firsts key known l).length + (repeats key known l).length = l.length := by
  induction l generalizing known with
  | nil => rfl
  | cons a l ih =>
    have later := @ih (known ++ [key a])
    rw [firsts_cons, repeats_cons, length_append, length_append, length_cons]
    split <;> simp only [length_nil, length_singleton] <;> omega

end Firsts

namespace Emits

def names : Emits → List Text
  | listed events => events
  | validators entries => entries.map (·.name)

/-- With events behind those that are declared, in the same form. -/
def extend (emits : Emits) (events : List Text) : Emits :=
  match emits with
  | listed declared => .listed (declared ++ events)
  | validators entries => .validators (entries ++ events.map (⟨·, "null"⟩))

@[simp] theorem extend_nil (emits : Emits) : emits.extend [] = emits := by
  cases emits <;> simp [extend]

theorem extend_extend (emits : Emits) (events more : List Text) :
    (emits.extend events).extend more = emits.extend (events ++ more) := by
  cases emits <;> simp [extend]

@[simp] theorem names_extend (emits : Emits) (events : List Text) :
    (emits.extend events).names = emits.names ++ events := by
  cases emits <;> simp [extend, names, Function.comp_def]

theorem add_eq_extend (emits : Emits) (event : Text) :
    emits.add event = emits.extend (if event ∈ emits.names then [] else [event]) := by
  cases emits with
  | listed events => by_cases known : event ∈ events <;> simp [add, extend, names, known]
  | validators entries =>
    by_cases known : event ∈ entries.map (·.name)
    · have found : entries.any (·.name = event) := by simpa using known
      simp [add, extend, names, known, found]
    · have absent : entries.any (·.name = event) = false := by simpa using known
      simp [add, extend, names, known, absent]

end Emits

def updateEvent (model : Model) : Text := "update:" ++ model.publicName

def clashWarning (model : Model) : Text :=
  "model `" ++ model.publicName ++ "` is also declared as a prop"

theorem declareModel_def (d : Declared) (model : Model) : declareModel d model =
    let d' := { d with
      needsPropType := d.needsPropType || (modelEntry model).2
      emits := d.emits.add (updateEvent model) }
    if d.props.names.contains model.publicName then
      { d' with warnings := d.warnings ++ [clashWarning model] }
    else
      { d' with props := { d.props with entries := d.props.entries ++ [(modelEntry model).1] } } :=
  rfl

theorem declareModel_eq (d : Declared) (model : Model) :
    (declareModel d model).props.entries = d.props.entries ++
      (if model.publicName ∈ d.props.names then [] else [(modelEntry model).1]) ∧
    (declareModel d model).warnings = d.warnings ++
      (if model.publicName ∈ d.props.names then [clashWarning model] else []) ∧
    (declareModel d model).emits = d.emits.add (updateEvent model) := by
  rw [declareModel_def]
  by_cases taken : model.publicName ∈ d.props.names <;> simp [taken]

theorem names_declareModel (d : Declared) (model : Model) :
    (declareModel d model).props.names = d.props.names ++
      (if model.publicName ∈ d.props.names then [] else [model.publicName]) := by
  rw [Props.names, (declareModel_eq d model).1, map_append]
  split <;> rfl

theorem mem_names_declareModel (d : Declared) (model : Model) (name : Text) :
    name ∈ (declareModel d model).props.names ↔ name ∈ d.props.names ++ [model.publicName] := by
  rw [names_declareModel]
  split
  · next taken => rw [append_nil, mem_concat_iff taken]
  · rfl

theorem foldl_declareModel (d : Declared) (models : List Model) :
    (models.foldl declareModel d).props.entries = d.props.entries ++
      (firsts Model.publicName d.props.names models).map (fun model => (modelEntry model).1) ∧
    (models.foldl declareModel d).warnings = d.warnings ++
      (repeats Model.publicName d.props.names models).map clashWarning ∧
    (models.foldl declareModel d).emits = d.emits.extend
      ((firsts updateEvent d.emits.names models).map updateEvent) := by
  induction models generalizing d with
  | nil => simp [firsts, repeats, turns]
  | cons model models ih =>
    obtain ⟨entries, warnings, emits⟩ := ih (declareModel d model)
    obtain ⟨entry, warning, event⟩ := declareModel_eq d model
    have props := mem_names_declareModel d model
    have events : ∀ name, name ∈ (d.emits.add (updateEvent model)).names ↔
        name ∈ d.emits.names ++ [updateEvent model] := by
      intro name
      rw [Emits.add_eq_extend, Emits.names_extend]
      split
      · next taken => rw [append_nil, mem_concat_iff taken]
      · rfl
    rw [foldl_cons, entries, warnings, emits, entry, warning, event, firsts_congr props,
      repeats_congr props, firsts_congr events, firsts_cons, repeats_cons, firsts_cons,
      Emits.add_eq_extend, Emits.extend_extend]
    refine ⟨?_, ?_, ?_⟩
    · rw [append_assoc]
      split <;> rfl
    · rw [append_assoc]
      split <;> rfl
    · split <;> rfl

/-- Options that declare models behind the props and the events which are declared otherwise. -/
structure DeclaresModels (props : Props) (emits : Emits) (warnings : List Text)
    (models : List Model) (d : Declared) : Prop where
  /-- The other props come first and stay; behind them stand the models that bring a new name. -/
  entries : d.props.entries = props.entries ++
    (firsts Model.publicName props.names models).map fun model => (modelEntry model).1
  /-- Every model is a prop. -/
  declared : ∀ model ∈ models, model.publicName ∈ d.props.names
  /-- No name is added twice, and none that is there already. -/
  once : ((firsts Model.publicName props.names models).map Model.publicName).Nodup
  apart : ∀ model ∈ firsts Model.publicName props.names models, model.publicName ∉ props.names
  distinct : d.props.names.Nodup ↔ props.names.Nodup
  /-- One warning for each model whose name is a prop already, and no other new one. -/
  warned : d.warnings = warnings ++
    (repeats Model.publicName props.names models).map clashWarning
  /-- So a model adds a prop or a warning. -/
  accounted : (firsts Model.publicName props.names models).length +
    (repeats Model.publicName props.names models).length = models.length
  /-- The other events come first and stay, in their form. -/
  events : d.emits = emits.extend ((firsts updateEvent emits.names models).map updateEvent)
  updates : ∀ model ∈ models, updateEvent model ∈ d.emits.names
  eventsOnce : ((firsts updateEvent emits.names models).map updateEvent).Nodup
  eventsApart : ∀ model ∈ firsts updateEvent emits.names models, updateEvent model ∉ emits.names

/-- What one of the two declarations makes of a type or of a value, and what it is without them. -/
structure DeclarationKind (α : Type) where
  label : Text
  ofType : Text → α
  ofValue : Text → α
  empty : α

/-- Props, whose types come with default values. -/
def propsKind (defaults : Option Text) : DeclarationKind Props :=
  ⟨"props", (Props.ofType · defaults), Props.ofValue, {}⟩

def emitsKind : DeclarationKind Emits := ⟨"emits", Emits.ofType, Emits.ofValue, .listed []⟩

/-- What a declaration comes to, by its form, and its warnings. A type is a literal or the name of
one that the sources declare. -/
inductive DeclarationKind.Yields {α : Type} (kind : DeclarationKind α) (sources : List Text) :
    Option DeclarationForm → α → List Text → Prop
  | absent : kind.Yields sources none kind.empty []
  | value (value : Text) : kind.Yields sources (some (.byValue value)) (kind.ofValue value) []
  | literal {type : Text} (braced : type.trim.startsWith "\x7b") :
      kind.Yields sources (some (.byType type)) (kind.ofType type.trim) []
  | named {type body : Text} (name : type.trim.startsWith "\x7b" = false)
      (found : typeBody? type.trim sources = some body) :
      kind.Yields sources (some (.byType type)) (kind.ofType body) []
  | unresolved {type : Text} (name : type.trim.startsWith "\x7b" = false)
      (missing : typeBody? type.trim sources = none) :
      kind.Yields sources (some (.byType type)) kind.empty
        [kind.label ++ " type `" ++ type.trim ++
          "` could not be resolved in this component; no runtime " ++ kind.label ++
            " were generated"]

section Yields

variable {α : Type} {kind : DeclarationKind α} {sources : List Text} {type literal : Text}

theorem DeclarationKind.yields_of_typeLiteral? (found : typeLiteral? type sources = some literal) :
    kind.Yields sources (some (.byType type)) (kind.ofType literal) [] := by
  rw [typeLiteral?] at found
  split at found
  · next braced =>
    cases found
    exact .literal braced
  · next name => exact .named (by simpa using name) found

theorem DeclarationKind.yields_of_unresolved (missing : typeLiteral? type sources = none) :
    kind.Yields sources (some (.byType type)) kind.empty [unresolved kind.label type] := by
  rw [typeLiteral?] at missing
  split at missing
  · cases missing
  · next name => exact .unresolved (by simpa using name) missing

end Yields

theorem yields_declareProps (setup : Setup) (sources : List Text) :
    (propsKind setup.propsDefaults).Yields sources (setup.props.bind Declaration.form)
      (declareProps setup sources).props (declareProps setup sources).warnings ∧
      (declareProps setup sources).emits = .listed [] := by
  unfold declareProps
  split
  · next type given =>
    rw [given]
    split
    · next literal found => exact ⟨DeclarationKind.yields_of_typeLiteral? found, rfl⟩
    · next missing => exact ⟨DeclarationKind.yields_of_unresolved missing, rfl⟩
  · next value given => exact ⟨given ▸ .value value, rfl⟩
  · next given => exact ⟨given ▸ .absent, rfl⟩

theorem yields_declareEmits (setup : Setup) (sources : List Text) (d : Declared)
    (fresh : d.emits = .listed []) :
    (declareEmits setup sources d).props = d.props ∧
      ∃ warnings, (declareEmits setup sources d).warnings = d.warnings ++ warnings ∧
        emitsKind.Yields sources (setup.emits.bind Declaration.form)
          (declareEmits setup sources d).emits warnings := by
  unfold declareEmits
  split
  · next type given =>
    rw [given]
    split
    · next literal found =>
      exact ⟨rfl, [], (append_nil _).symm, DeclarationKind.yields_of_typeLiteral? found⟩
    · next missing =>
      refine ⟨rfl, _, rfl, ?_⟩
      rw [fresh]
      exact DeclarationKind.yields_of_unresolved missing
  · next value given => exact ⟨rfl, [], (append_nil _).symm, given ▸ .value value⟩
  · next given =>
    refine ⟨rfl, [], (append_nil _).symm, ?_⟩
    rw [given, fresh]
    exact .absent

theorem foldl_declaresModels (d : Declared) (models : List Model) :
    DeclaresModels d.props d.emits d.warnings models (models.foldl declareModel d) := by
  obtain ⟨entries, warned, events⟩ := foldl_declareModel d models
  have names : (models.foldl declareModel d).props.names = d.props.names ++
      (firsts Model.publicName d.props.names models).map Model.publicName := by
    rw [Props.names, entries, map_append, map_map]
    rfl
  refine ⟨entries, fun model listed => ?_, nodup_firsts _, fun model new => ?_, ?_, warned,
    length_firsts_add_repeats _, events, fun model listed => ?_, nodup_firsts _,
    fun model new => ?_⟩
  · rw [names]
    exact mem_append_firsts listed
  · exact not_mem_of_mem_firsts (mem_map_of_mem new)
  · rw [names]
    exact nodup_append_firsts _
  · rw [events, Emits.names_extend]
    exact mem_append_firsts listed
  · exact not_mem_of_mem_firsts (mem_map_of_mem new)

/-- Every model of a setup script is declared, behind the props and the events that the script
declares otherwise, which are those of the form of their declarations. -/
theorem Declared.ofSetup_declaresModels (setup : Setup) (sources : List Text) :
    ∃ props propsWarnings emits emitsWarnings,
      (propsKind setup.propsDefaults).Yields sources (setup.props.bind Declaration.form)
        props propsWarnings ∧
      emitsKind.Yields sources (setup.emits.bind Declaration.form) emits emitsWarnings ∧
      DeclaresModels props emits (propsWarnings ++ emitsWarnings) setup.models
        (Declared.ofSetup setup sources) := by
  obtain ⟨props, fresh⟩ := yields_declareProps setup sources
  obtain ⟨kept, warnings, warned, emits⟩ :=
    yields_declareEmits setup sources (declareProps setup sources) fresh
  refine ⟨_, _, _, _, props, emits, ?_⟩
  rw [← warned, ← kept]
  -- What follows the models leaves the props, the events and the warnings as they are.
  exact { foldl_declaresModels _ setup.models with }

example :
    let setup : Setup :=
      { props := some ⟨none, some (.byValue "['title', 'size']")⟩, propsDefaults := none
        emits := some ⟨none, some (.byType "\x7b change: [] \x7d")⟩, slots := none, expose := none
        options := none, models := [⟨none, none, none, none⟩, ⟨none, some "title", none, none⟩]
        body := [], imports := [], sideEffects := [], exports := [] }
    let d := Declared.ofSetup setup []
    d.props.names = ["title".toList, "size".toList, "modelValue".toList] ∧
      d.emits.names = ["change".toList, "update:modelValue".toList, "update:title".toList] ∧
      d.warnings = ["model `title` is also declared as a prop".toList] := by
  decide +kernel

end SfcJsx.Options
