import Mathlib.Algebra.GroupWithZero.Nat
import SfcJsx.Batch.Pass

/-!
A pass, file by file. All files are read before the first module is written, and the reports are
sorted; `Visits` tells the same pass as one visit after another, each with its own reading, its own
conversion and its own report. Main statement: whatever reading, converting, resolving and writing
come to, every file has exactly one report, and the summary counts the files and their fragments
exactly, unless the resolved fragments are too many for a word.
-/

namespace SfcJsx.Batch

open List Progress Intake Draft

/-- What a pass did with a file. -/
structure Visit where
  file : SourceFile
  reading : Except FileError Text
  /-- The module, when the file was to be converted and has no faults. -/
  conversion : Option Conversion := none
  report : FileReport

/-- How far a pass has come: the contents recorded and the files written. -/
structure Stage where
  cache : Option Cache
  tree : FileTree

namespace Stage

def recorded? (stage : Stage) (path : Text) : Option Text := stage.cache.bind (·.content? path)

def record (stage : Stage) (path content : Text) : Stage :=
  { stage with cache := stage.cache.map (·.record path content) }

end Stage

section Visits

variable (s : Settings) (command : Option Command) (source : FileTree)

/-- What may become of a file that is found in `source`. -/
inductive Visited (stage : Stage) (file : SourceFile) : Visit → Stage → Prop
  | unreadable {cause : FileError} :
      source.read file.path = .error cause →
      Visited stage file
        { file, reading := .error cause
          report := { source := s.display file.path, status := .failed
                      errors := [{ message := "failed to read file: " ++ cause.message }] } }
        stage
  | unchanged {content : Text} :
      source.read file.path = .ok content → stage.recorded? file.path = some content →
      Visited stage file
        { file, reading := .ok content
          report := { source := s.display file.path, status := .unchanged } }
        (stage.record file.path content)
  | faulty {content : Text} {report : FileReport} :
      source.read file.path = .ok content → stage.recorded? file.path ≠ some content →
      Draft.convert s ⟨file, content⟩ = .error report →
      Visited stage file { file, reading := .ok content, report } (stage.record file.path content)
  | finished {content : Text} {result : Draft.Result} {written : FileTree}
      {requests : List Request} {report : FileReport} :
      source.read file.path = .ok content → stage.recorded? file.path ≠ some content →
      Draft.convert s ⟨file, content⟩ = .ok result →
      Progress.finish s command { tree := stage.tree } result = ⟨written, requests, [report]⟩ →
      Visited stage file
        { file, reading := .ok content, conversion := some result.conversion, report }
        { stage.record file.path content with tree := written }

/-- The visits of a pass to files one after another. -/
inductive Visits : Stage → List SourceFile → List Visit → Stage → Prop
  | nil (stage : Stage) : Visits stage [] [] stage
  | cons {stage next last : Stage} {file : SourceFile} {visit : Visit} {files : List SourceFile}
      {visits : List Visit} :
      Visited s command source stage file visit next → Visits next files visits last →
      Visits stage (file :: files) (visit :: visits) last

end Visits

def Intake.before (a b : Intake) : Intake := ⟨b.cache, a.drafts ++ b.drafts, a.reports ++ b.reports⟩

def Progress.before (a b : Progress) : Progress :=
  ⟨b.tree, a.requests ++ b.requests, a.reports ++ b.reports⟩

section Collecting

variable (s : Settings) (command : Option Command) (source : FileTree)

theorem Intake.add_eq_before (intake : Intake) (file : SourceFile) :
    add s source intake file =
      intake.before (add s source { cache := intake.cache } file) := by
  unfold add
  cases source.read file.path with
  | error cause => simp [before]
  | ok content =>
    cases intake.cache with
    | none => simp [before]
    | some cache =>
      simp only [Option.map_some, Cache.check]
      cases decide (cache.content? file.path = some content) <;> simp [before]

theorem Intake.foldl_add_eq_before (files : List SourceFile) (intake : Intake) :
    files.foldl (add s source) intake =
      intake.before (files.foldl (add s source) { cache := intake.cache }) := by
  induction files generalizing intake with
  | nil => simp [before]
  | cons file files ih =>
    rw [foldl_cons, foldl_cons, add_eq_before, ih, ih (add s source { cache := intake.cache } file)]
    simp [before]

theorem Progress.step_eq_before (p : Progress) (draft : Except FileReport Result) :
    step s command p draft =
      p.before (step s command { tree := p.tree } draft) := by
  cases draft with
  | error report => simp [step, before]
  | ok result =>
    unfold step finish before
    cases command <;> simp

theorem Progress.foldl_step_eq_before (drafts : List (Except FileReport Result))
    (p : Progress) :
    drafts.foldl (step s command) p =
      p.before (drafts.foldl (step s command) { tree := p.tree }) := by
  induction drafts generalizing p with
  | nil => simp [before]
  | cons draft drafts ih =>
    rw [foldl_cons, foldl_cons, step_eq_before, ih, ih (step s command { tree := p.tree } draft)]
    simp [before]

theorem Progress.exists_finish_eq (tree : FileTree) (result : Result) :
    ∃ written requests report,
      finish s command { tree } result = ⟨written, requests, [report]⟩ :=
  ⟨_, _, _, rfl⟩

theorem Intake.add_cases (cache : Option Cache) (file : SourceFile) :
    (∃ cause, source.read file.path = .error cause ∧
      add s source { cache } file =
        { cache
          reports := [{ source := s.display file.path, status := .failed
                        errors := [{ message := "failed to read file: " ++ cause.message }] }] }) ∨
    (∃ content, source.read file.path = .ok content ∧
      cache.bind (·.content? file.path) = some content ∧
      add s source { cache } file =
        { cache := cache.map (·.record file.path content)
          reports := [{ source := s.display file.path, status := .unchanged }] }) ∨
    (∃ content, source.read file.path = .ok content ∧
      cache.bind (·.content? file.path) ≠ some content ∧
      add s source { cache } file =
        { cache := cache.map (·.record file.path content), drafts := [⟨file, content⟩] }) := by
  unfold add
  cases source.read file.path with
  | error cause => exact .inl ⟨cause, rfl, rfl⟩
  | ok content =>
    cases cache with
    | none => exact .inr (.inr ⟨content, rfl, by simp, rfl⟩)
    | some cache =>
      by_cases hit : cache.content? file.path = some content
      · exact .inr (.inl ⟨content, rfl, by simpa using hit, by simp [Cache.check, hit]⟩)
      · exact .inr (.inr ⟨content, rfl, by simpa using hit, by simp [Cache.check, hit]⟩)

theorem exists_visits_of_stage (files : List SourceFile) (stage : Stage) :
    let intake := files.foldl (Intake.add s source) { cache := stage.cache }
    let done := (intake.drafts.map (·.convert s)).foldl (step s command)
      { tree := stage.tree }
    ∃ visits, Visits s command source stage files visits ⟨intake.cache, done.tree⟩ ∧
      (intake.reports ++ done.reports).Perm (visits.map (·.report)) := by
  induction files generalizing stage with
  | nil => exact ⟨[], .nil stage, .nil⟩
  | cons file files ih =>
    rw [foldl_cons, Intake.foldl_add_eq_before]
    obtain ⟨cause, read, added⟩ | ⟨content, read, hit, added⟩ | ⟨content, read, miss, added⟩ :=
      Intake.add_cases s source stage.cache file
    · obtain ⟨visits, visited, reports⟩ := ih stage
      rw [added]
      exact ⟨_ :: visits, .cons (.unreadable read) visited, reports.cons _⟩
    · obtain ⟨visits, visited, reports⟩ := ih (stage.record file.path content)
      rw [added]
      exact ⟨_ :: visits, .cons (.unchanged read hit) visited, reports.cons _⟩
    · -- the report of a draft comes behind those of the intake
      rw [added]
      simp only [Intake.before, nil_append, singleton_append, map_cons, foldl_cons]
      rw [foldl_step_eq_before]
      cases converted : Draft.convert s ⟨file, content⟩ with
      | error report =>
        obtain ⟨visits, visited, reports⟩ := ih (stage.record file.path content)
        exact ⟨_ :: visits, .cons (.faulty read miss converted) visited,
          perm_middle.trans (reports.cons _)⟩
      | ok result =>
        obtain ⟨written, requests, report, finished⟩ := exists_finish_eq s command stage.tree result
        obtain ⟨visits, visited, reports⟩ :=
          ih { stage.record file.path content with tree := written }
        simp only [step]
        rw [finished]
        exact ⟨_ :: visits, .cons (.finished read miss converted finished) visited,
          perm_middle.trans (reports.cons _)⟩

theorem Pass.exists_visits (files : List SourceFile) (cache : Option Cache) (tree : FileTree) :
    let pass := Pass.run s command files cache tree
    ∃ visits, Visits s command tree ⟨cache, tree⟩ files visits ⟨pass.cache, pass.tree⟩ ∧
      pass.reports.Perm (visits.map (·.report)) := by
  obtain ⟨visits, visited, reports⟩ := exists_visits_of_stage s command tree files ⟨cache, tree⟩
  have apart := foldl_step_eq_before s command
  simp only [Pass.run]
  rw [apart]
  exact ⟨visits, visited, (mergeSort_perm _ _).trans reports⟩

end Collecting

theorem faults_ne_nil_of_convert {source : Text} {o : ConversionOptions}
    {faults : List Markup.Fault} (failed : SfcJsx.convert source o = .error faults) :
    faults ≠ [] := by
  unfold SfcJsx.convert at failed
  split at failed
  · cases failed
  · next notClean _ =>
    cases failed
    exact notClean

section Reports

variable {s : Settings} {command : Option Command} {draft : Draft} {result : Draft.Result}
  {report : FileReport}

theorem Draft.file_of_convert (converted : draft.convert s = .ok result) :
    result.file = draft.file := by
  simp only [convert] at converted
  split at converted
  · cases converted
    rfl
  · cases converted

theorem Draft.exists_report_of_convert (failed : draft.convert s = .error report) :
    ∃ errors, errors ≠ [] ∧
      report = { source := s.display draft.file.path, status := .failed, errors } := by
  simp only [convert] at failed
  split at failed
  · cases failed
  · next faults found =>
    cases failed
    exact ⟨_, by simpa [faultProblems] using faults_ne_nil_of_convert found, rfl⟩

theorem length_fallbackItems_replaceFragments_le (c : Conversion) (replacements : OrderedMap Text) :
    (replaceFragments c replacements).fallbackItems.length ≤ c.fallbackItems.length := by
  unfold replaceFragments
  split
  · exact Nat.le_refl _
  · exact length_filter_le _ _

theorem Progress.report_of_finish {tree written : FileTree} {requests : List Request}
    (finished : finish s command { tree } result = ⟨written, requests, [report]⟩) :
    report.source = s.display result.file.path ∧
      report.resolved + report.unresolved.length = result.conversion.fallbackItems.length ∧
      (report.status = .converted ∧ report.errors = [] ∨
        report.status = .failed ∧ report.errors ≠ []) := by
  simp only [finish, mk.injEq, nil_append, cons.injEq, and_true] at finished
  obtain ⟨-, -, rfl⟩ := finished
  refine ⟨rfl, ?_, ?_⟩
  · refine Nat.sub_add_cancel ?_
    split
    · exact length_fallbackItems_replaceFragments_le _ _
    · exact Nat.le_refl _
  · split
    · simp
    · simpa using Classical.em _

variable {source : FileTree} {stage last : Stage} {file : SourceFile} {files : List SourceFile}
  {visit : Visit} {visits : List Visit}

/-- The fragments that a visit left to be resolved. -/
def Visit.fragments (visit : Visit) : List FallbackItem :=
  (visit.conversion.map (·.fallbackItems)).getD []

section

variable (visited : Visited s command source stage file visit last)

include visited

theorem Visited.file_eq : visit.file = file := by
  cases visited <;> rfl

theorem Visited.source_eq : visit.report.source = s.display visit.file.path := by
  cases visited with
  | unreadable | unchanged => rfl
  | faulty _ _ failed =>
    obtain ⟨errors, -, rfl⟩ := exists_report_of_convert failed
    rfl
  | finished _ _ converted finished =>
    rw [(report_of_finish finished).1, file_of_convert converted]

theorem Visited.fragments_eq :
    visit.report.resolved + visit.report.unresolved.length = visit.fragments.length := by
  cases visited with
  | unreadable | unchanged => rfl
  | faulty _ _ failed =>
    obtain ⟨errors, -, rfl⟩ := exists_report_of_convert failed
    rfl
  | finished _ _ _ finished => exact (report_of_finish finished).2.1

end

theorem Visits.files_eq (visited : Visits s command source stage files visits last) :
    visits.map (·.file) = files := by
  induction visited with
  | nil => rfl
  | cons first _ ih => rw [map_cons, first.file_eq, ih]

theorem Visits.forall_mem {P : Visit → Prop}
    (each : ∀ {stage file visit last}, Visited s command source stage file visit last → P visit)
    (visited : Visits s command source stage files visits last) : ∀ visit ∈ visits, P visit := by
  induction visited with
  | nil => simp
  | cons first _ ih => simpa using ⟨each first, ih⟩

end Reports

namespace Summary

theorem countP_statuses (reports : List FileReport) :
    reports.countP (·.status = .converted) + reports.countP (·.status = .unchanged) +
      reports.countP (·.status = .failed) = reports.length := by
  induction reports with
  | nil => rfl
  | cons report reports ih =>
    cases kind : report.status <;> simp [kind] at ih ⊢ <;> omega

theorem foldlM_addWords (reports : List FileReport) {n : Nat} (start : n < UInt64.size) :
    reports.foldlM (fun n r => addWords UInt64.size n r.resolved) n =
      if n + (reports.map (·.resolved)).sum < UInt64.size
      then .ok (n + (reports.map (·.resolved)).sum) else .error .overflow := by
  induction reports generalizing n with
  | nil => exact (if_pos start).symm
  | cons report reports ih =>
    rw [foldlM_cons, map_cons, sum_cons, ← Nat.add_assoc]
    by_cases fits : n + report.resolved < UInt64.size
    · rw [addWords_of_lt fits]
      exact ih fits
    · -- A sum that is too large stays so.
      rw [addWords_of_le (Nat.not_lt.1 fits), if_neg (by omega)]
      rfl

theorem countResolved_eq (reports : List FileReport) : countResolved reports =
    if (reports.map (·.resolved)).sum < UInt64.size then .ok (reports.map (·.resolved)).sum
    else .error .overflow := by
  simpa [countResolved] using foldlM_addWords reports (n := 0) (by decide)

end Summary

theorem length_fragments {visits : List Visit} (each : ∀ visit ∈ visits,
      visit.report.resolved + visit.report.unresolved.length = visit.fragments.length) :
    (visits.map (·.report.resolved)).sum + (visits.flatMap (·.report.unresolved)).length =
      (visits.flatMap (·.fragments)).length := by
  induction visits with
  | nil => rfl
  | cons visit visits ih =>
    have first := each visit (by simp)
    have rest := ih (forall_mem_cons.1 each).2
    simp only [map_cons, sum_cons, flatMap_cons, length_append]
    omega

/-- Each file is visited once and its visit has the one report of it; the summary counts the files
by what became of them, and the fragments of all conversions by whether they are resolved. There is
a summary as long as the number of resolved fragments is a word. -/
theorem Pass.run_accounts_for_files (s : Settings) (command : Option Command)
    (files : List SourceFile) (cache : Option Cache) (tree : FileTree) :
    let pass := Pass.run s command files cache tree
    ∃ visits, Visits s command tree ⟨cache, tree⟩ files visits ⟨pass.cache, pass.tree⟩ ∧
      visits.map (·.file) = files ∧
      pass.reports.Perm (visits.map (·.report)) ∧
      (∀ visit ∈ visits,
        visit.report.source = s.display visit.file.path ∧
        visit.report.resolved + visit.report.unresolved.length = visit.fragments.length) ∧
      (visits.map (·.report.resolved)).sum + (visits.flatMap (·.report.unresolved)).length =
        (visits.flatMap (·.fragments)).length ∧
      if (visits.map (·.report.resolved)).sum < UInt64.size then
        ∃ summary, pass.summary s = .ok summary ∧ summary.files = files.length ∧
          summary.converted + summary.unchanged + summary.failed = files.length ∧
          summary.resolved = (visits.map (·.report.resolved)).sum ∧
          summary.resolved + summary.unresolved = (visits.flatMap (·.fragments)).length
      else pass.summary s = .error .overflow := by
  intro pass
  obtain ⟨visits, visited, reports⟩ := Pass.exists_visits s command files cache tree
  have fragments := visited.forall_mem (·.fragments_eq)
  have total := length_fragments fragments
  have files_eq : pass.reports.length = files.length := by
    rw [← visited.files_eq, length_map, reports.length_eq, length_map]
  have unresolved : (pass.reports.flatMap (·.unresolved)).length =
      (visits.flatMap (·.report.unresolved)).length := by
    rw [(reports.flatMap_right (·.unresolved)).length_eq, flatMap_map]
  have counted := Summary.countResolved_eq pass.reports
  rw [(reports.map (·.resolved)).sum_nat, map_map] at counted
  refine ⟨visits, visited, visited.files_eq, reports, fun visit member =>
    ⟨visited.forall_mem (·.source_eq) visit member, fragments visit member⟩, total, ?_⟩
  split
  · next fits =>
    have resolved := counted.trans (if_pos fits)
    refine ⟨_, by rw [Pass.summary, Summary.ofReports, resolved]; rfl, files_eq,
      (Summary.countP_statuses pass.reports).trans files_eq, rfl, ?_⟩
    rw [← total, ← unresolved]
    rfl
  · next large =>
    have overflow := counted.trans (if_neg large)
    rw [Pass.summary, Summary.ofReports, overflow]
    rfl

end SfcJsx.Batch
