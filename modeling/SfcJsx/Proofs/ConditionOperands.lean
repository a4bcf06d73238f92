import SfcJsx.Proofs.ConditionalChains
import SfcJsx.Proofs.OperandGrouping

/-!
Conditions in front of their branches. A test is written as what its condition becomes, without
parentheses around it. So a chain groups test by test exactly if no condition has a sign of its own
outside brackets and literals; a condition with such a sign is taken apart by the `?` behind it.
-/

namespace SfcJsx.Jsx

open Markup Expression
open Expression (qualifiedFrom qualify_text lexemes signs Sign Tree IsBalanced IsOperand
  StaysOperand GroupsAs looseSigns questionMark colonMark)

def conditions (branches : List Branch) : List Text := branches.filterMap (·.condition)

/-- Branches as one expression: each test with its body, and the end. -/
def chainText (env : Environment) (branches : List Branch) (bodies : List Text) : Text :=
  (List.zipWith (Branch.text env) branches bodies).flatten ++ emptyEnd branches

/-- The grouping that a chain is meant to have: every test is the whole condition. -/
def chainTree (env : Environment) : List Branch → List Text → Tree
  | branch :: branches, body :: bodies =>
    match branch.condition with
    | some condition => .conditional (lexemes (qualifiedFrom env {} condition))
        (.operand (lexemes body)) (chainTree env branches bodies)
    | none => .operand (lexemes body)
  | _, _ => .operand (lexemes "null")

/-- A text that is one operand. The body of a branch is one whatever it holds, so any such text may
stand for it. -/
structure IsAtom (t : Text) : Prop where
  balanced : IsBalanced t
  operand : IsOperand (lexemes t)

/-- Branches of a chain with balanced conditions, and texts in the place of their bodies. -/
inductive Chained : List Branch → List Text → Prop
  | nil : Chained [] []
  | otherwise {branch : Branch} {body : Text} (bare : branch.condition = none)
      (atom : IsAtom body) : Chained [branch] [body]
  | tested {branch : Branch} {condition body : Text} {branches : List Branch} {bodies : List Text}
      (given : branch.condition = some condition) (balanced : IsBalanced condition)
      (atom : IsAtom body) (later : Chained branches bodies) :
      Chained (branch :: branches) (body :: bodies)

section Chains

variable {env : Environment} {branch : Branch} {condition body : Text} {branches : List Branch}
  {bodies : List Text}

theorem chainText_tested (given : branch.condition = some condition) :
    chainText env (branch :: branches) (body :: bodies) = qualifiedFrom env {} condition ++ " ? " ++
      (body ++ " : " ++ chainText env branches bodies) := by
  simp [chainText, Branch.text, given, emptyEnd]

theorem chainText_otherwise (bare : branch.condition = none) :
    chainText env [branch] [body] = body := by
  simp [chainText, Branch.text, bare, emptyEnd]

theorem chainTree_tested (given : branch.condition = some condition) :
    chainTree env (branch :: branches) (body :: bodies) =
      .conditional (lexemes (qualifiedFrom env {} condition)) (.operand (lexemes body))
        (chainTree env branches bodies) := by
  rw [chainTree, given]

theorem chainTree_otherwise (bare : branch.condition = none) :
    chainTree env [branch] [body] = .operand (lexemes body) := by
  rw [chainTree, bare]

theorem conditions_tested (given : branch.condition = some condition) (branches : List Branch) :
    conditions (branch :: branches) = condition :: conditions branches :=
  List.filterMap_cons_some given

theorem conditions_otherwise (bare : branch.condition = none) : conditions [branch] = [] :=
  List.filterMap_cons_none bare

theorem Chained.lexemes_chainText (h : Chained branches bodies) :
    lexemes (chainText env branches bodies) = (chainTree env branches bodies).lexemes := by
  induction h with
  | nil => rfl
  | otherwise bare => rw [chainText_otherwise bare, chainTree_otherwise bare, Tree.lexemes]
  | tested given balanced atom later ih =>
    rw [chainText_tested given, chainTree_tested given, lexemes_question
      (isBalanced_qualifiedFrom balanced), lexemes_colon atom.balanced, ih]
    rfl

theorem Chained.isValid_chainTree_iff (h : Chained branches bodies) :
    (chainTree env branches bodies).IsValid ↔
      ∀ condition ∈ conditions branches,
        signs condition = [] ∧ condition.isBlankText = false := by
  induction h with
  | nil => exact iff_of_true ⟨by decide, by decide⟩ (by simp [conditions])
  | otherwise bare atom =>
    rw [chainTree_otherwise bare, conditions_otherwise bare]
    exact iff_of_true atom.operand (by simp)
  | tested given balanced atom later ih =>
    rw [chainTree_tested given, conditions_tested given, List.forall_mem_cons, ← ih,
      ← isOperand_qualifiedFrom_iff balanced]
    exact ⟨fun valid => ⟨valid.1, valid.2.2⟩, fun parts => ⟨parts.1, atom.operand, parts.2⟩⟩

section

variable (h : Chained branches bodies)

include h

theorem Chained.signs_chainText :
    signs (chainText env branches bodies) =
      (conditions branches).flatMap fun condition => signs condition ++ [.question, .colon] := by
  induction h with
  | nil => rfl
  | otherwise bare atom =>
    rw [chainText_otherwise bare, conditions_otherwise bare]
    exact (isOperand_lexemes_iff.1 atom.operand).1
  | @tested branch condition body branches bodies given balanced atom later ih =>
    have free : signs body = [] := (isOperand_lexemes_iff.1 atom.operand).1
    rw [conditions_tested given, List.flatMap_cons, ← ih, chainText_tested given,
      ← @Expression.signs_qualifiedFrom condition env balanced]
    unfold signs at free ⊢
    rw [lexemes_question (isBalanced_qualifiedFrom balanced), lexemes_colon atom.balanced]
    simp [free, questionMark, colonMark]

theorem Chained.count_question :
    (signs (chainText env branches bodies)).count .question =
      (conditions branches).length + ((conditions branches).flatMap signs).count .question := by
  rw [h.signs_chainText]
  induction conditions branches with
  | nil => rfl
  | cons condition rest ih =>
    have own : [Sign.question, Sign.colon].count .question = 1 := rfl
    simp only [List.flatMap_cons, List.count_append, List.length_cons]
    omega

theorem Chained.count_question_iff :
    (signs (chainText env branches bodies)).count .question = (conditions branches).length ↔
      ∀ condition ∈ conditions branches, .question ∉ signs condition := by
  rw [h.count_question, Nat.add_eq_left, List.count_eq_zero]
  simp

theorem Chained.groupsAs_iff :
    GroupsAs (chainText env branches bodies) (chainTree env branches bodies) ↔
      ∀ condition ∈ conditions branches,
        signs condition = [] ∧ condition.isBlankText = false := by
  rw [Expression.groupsAs_iff, ← @Chained.isValid_chainTree_iff env branches bodies h]
  exact ⟨fun spells => spells.valid, fun valid => ⟨valid, h.lexemes_chainText.symm⟩⟩

end

end Chains

section Places

variable (element : ElementRenderer) (env : Environment) (found : Findings) {tag : Tag}
  (children : List Node)

theorem renderElementWith_tested_outlet (outlet : Group.isOutlet tag) {condition : Text}
    (given : conditionOf? tag = some condition) :
    (renderElementWith element tag children env found).1 =
      guarded (qualifiedFrom env {} condition) (renderOutlet element tag children env found).1 := by
  rw [conditionOf?] at given
  rw [renderElementWith, if_pos outlet, given,
    ← qualify_text env condition (renderOutlet element tag children env found).2]
  rfl

theorem guarded_eq_chainText (condition body : Text) (tag : Tag) :
    guarded (qualifiedFrom env {} condition) body =
      chainText env [⟨some condition, tag, children⟩] [body] := by
  simp [guarded, chainText, Branch.text, emptyEnd]

end Places

/-- Every test is what its condition becomes, in a chain, in front of an outlet and under a loop. It
stays one operand exactly if no sign takes its condition apart. A chain groups test by test exactly
if no condition has a sign or is blank, and it has as many question marks as tests exactly if no
condition has one. -/
theorem tests_group_iff_unsigned (element : ElementRenderer) (env : Environment)
    (found : Findings) :
    (∀ branches : List Branch,
      (∀ branch ∈ branches.dropLast, branch.condition.isSome = true) →
        ∃ bodies, List.Forall₂ (Branch.HasBody element env) branches bodies ∧
          (renderBranches element branches env found).1 = chainText env branches bodies) ∧
      (∀ tag children condition,
        Group.isOutlet tag = true → conditionOf? tag = some condition →
          (renderElementWith element tag children env found).1 =
            chainText env [⟨some condition, tag, children⟩]
              [(renderOutlet element tag children env found).1]) ∧
      (∀ tag children,
        Group.isOutlet tag = false → tag.has .vFor = true → tag.has .vIf = true →
          ∃ later, (renderElementWith element tag children env found).1 =
            loopText env tag (chainText (conditionScope env tag)
              [⟨some (Group.condition tag .vIf), tag, children⟩]
              [(renderPlainElement element tag children (conditionScope env tag) later).1])) ∧
      (∀ condition, IsBalanced condition →
        (StaysOperand (qualifiedFrom env {} condition) ↔
          ∀ sign ∈ signs condition, sign ∉ looseSigns)) ∧
      ∀ branches bodies, Chained branches bodies →
        (GroupsAs (chainText env branches bodies) (chainTree env branches bodies) ↔
          ∀ condition ∈ conditions branches,
            signs condition = [] ∧ condition.isBlankText = false) ∧
        ((signs (chainText env branches bodies)).count .question = (conditions branches).length ↔
          ∀ condition ∈ conditions branches, .question ∉ signs condition) := by
  refine ⟨fun branches otherwise => ?_, fun tag children condition outlet given => ?_,
    fun tag children inner looped tested => ?_, fun condition balanced => ?_,
    fun branches bodies chained => ?_⟩
  · exact renderBranches_text element env otherwise found
  · rw [renderElementWith_tested_outlet element env found children outlet given,
      guarded_eq_chainText env children condition _ tag]
  · obtain ⟨later, text⟩ := renderElementWith_looped element env found children inner looped tested
    exact ⟨later, by rw [text, guarded_eq_chainText _ children _ _ tag]⟩
  · rw [Expression.staysOperand_iff, Expression.signs_qualifiedFrom balanced]
  · exact ⟨chained.groupsAs_iff, chained.count_question_iff⟩

def bareParagraph : Tag where
  span := ⟨0, 0⟩
  name := "p"
  attributes := []
  selfClosing := true

def unsignedBranches : List Branch :=
  [⟨some "a?.b ?? c", bareParagraph, []⟩, ⟨some "f(d ? '?' : 1, 2) == e", bareParagraph, []⟩,
    ⟨none, bareParagraph, []⟩]

theorem tests_group_unsignedBranches :
    GroupsAs "a.value?.b ?? c ? x : f(d ? '?' : 1, 2) == e ? y : z"
      (.conditional (lexemes "a.value?.b ?? c") (.operand (lexemes "x"))
        (.conditional (lexemes "f(d ? '?' : 1, 2) == e") (.operand (lexemes "y"))
          (.operand (lexemes "z")))) ∧
      (signs "a.value?.b ?? c ? x : f(d ? '?' : 1, 2) == e ? y : z").count .question = 2 := by
  have chained : Chained unsignedBranches ["x", "y", "z"] :=
    .tested rfl (by decide +kernel) ⟨by decide, by decide⟩
      (.tested rfl (by decide +kernel) ⟨by decide, by decide⟩
        (.otherwise rfl ⟨by decide, by decide⟩))
  have unsigned : ∀ condition ∈ conditions unsignedBranches,
      signs condition = [] ∧ condition.isBlankText = false := by decide +kernel
  have text : chainText (topLevel ["a"]) unsignedBranches ["x", "y", "z"] =
      "a.value?.b ?? c ? x : f(d ? '?' : 1, 2) == e ? y : z" := by decide +kernel
  have tree : chainTree (topLevel ["a"]) unsignedBranches ["x", "y", "z"] =
      .conditional (lexemes "a.value?.b ?? c") (.operand (lexemes "x"))
        (.conditional (lexemes "f(d ? '?' : 1, 2) == e") (.operand (lexemes "y"))
          (.operand (lexemes "z"))) := by decide +kernel
  obtain ⟨-, -, -, -, chains⟩ := tests_group_iff_unsigned (renderElement 0) (topLevel ["a"]) {}
  obtain ⟨groups, count⟩ := chains unsignedBranches ["x", "y", "z"] chained
  rw [text] at groups count
  rw [tree] at groups
  refine ⟨groups.2 unsigned, count.2 fun condition member => ?_⟩
  rw [(unsigned condition member).1]
  exact List.not_mem_nil

def conditionalTest : Text := "<template><p v-if=\"a ? b : c\">x</p></template>"

/-- The last operand of such a condition becomes the test. -/
theorem conditional_test_regrouped :
    (Component.parse conditionalTest).2 = [] ∧
      (renderTemplate (Component.parse conditionalTest).1.templateNodes (topLevel []) {}).1 =
        "\x7ba ? b : c ? <p>x</p> : null\x7d" ∧
      IsBalanced "a ? b : c" ∧ ¬ StaysOperand (qualifiedFrom (topLevel []) {} "a ? b : c") ∧
      GroupsAs "a ? b : c ? x : null" (.conditional (lexemes "a") (.operand (lexemes "b"))
        (.conditional (lexemes "c") (.operand (lexemes "x")) (.operand (lexemes "null")))) ∧
      (signs "a ? b : c ? x : null").count .question = 2 := by
  refine ⟨by decide +kernel, by decide +kernel, by decide +kernel, ?_, ?_, by decide +kernel⟩
  · rw [Expression.staysOperand_iff]
    decide +kernel
  · rw [Expression.groupsAs_iff]
    exact ⟨by decide +kernel, by decide +kernel⟩

end SfcJsx.Jsx
