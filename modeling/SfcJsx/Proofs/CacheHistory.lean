import Mathlib.Data.List.Induction
import SfcJsx.Proofs.PassVisits

/-!
Passes that share a cache, over any changes of the files between them. The cache holds what each
file was last read as, whatever became of it then. Main statement: a file is left alone exactly when
it reads as it did the last time it could be read; the last report that does not say so is of a
converted module with the same content exactly when it has no errors.
-/

namespace SfcJsx.Batch

open List SfcJsx.Path Cache

variable {log more : List Visit} {visit : Visit} {stage : Stage} {cache : Cache}

theorem lookup_filter_ne {α β : Type} [BEq α] [LawfulBEq α] [DecidableEq α]
    (entries : List (α × β)) {key other : α} (ne : other ≠ key) :
    (entries.filter fun e => e.1 ≠ key).lookup other = entries.lookup other := by
  induction entries with
  | nil => rfl
  | cons entry entries ih =>
    by_cases same : entry.1 = key
    · have differs : (other == entry.1) = false := by simpa [same] using ne
      rw [filter_cons_of_neg (by simpa using same), ih, lookup_cons, differs]
    · rw [filter_cons_of_pos (by simpa using same), lookup_cons, lookup_cons, ih]

theorem Cache.content?_record (cache : Cache) (path content other : Text) :
    (cache.record path content).content? other =
      if same path other then some content else cache.content? other := by
  unfold record content? same
  by_cases same : components path = components other
  · simp [same]
  · have differs : (components other == components path) = false := by
      simpa using Ne.symm same
    simp only [lookup_cons, differs, beq_iff_eq, same, if_false]
    exact lookup_filter_ne _ (Ne.symm same)

def Cache.after (cache : Cache) (visit : Visit) : Cache :=
  match visit.reading with
  | .ok content => cache.record visit.file.path content
  | .error _ => cache

/-- What the last visit that could read the file at a path read there. -/
def lastRead? (log : List Visit) (path : Text) : Option Text :=
  log.reverse.findSome? fun visit =>
    if Path.same visit.file.path path then visit.reading.toOption else none

/-- The last visit to a path that did not leave the file alone. -/
def lastAttempt? (log : List Visit) (path : Text) : Option Visit :=
  log.reverse.find? fun visit =>
    Path.same visit.file.path path && visit.report.status ≠ .unchanged

theorem lastRead?_concat (log : List Visit) (visit : Visit) (path : Text) :
    lastRead? (log ++ [visit]) path =
      (if same visit.file.path path then visit.reading.toOption else none).or
        (lastRead? log path) := by
  simp only [lastRead?, reverse_append, reverse_singleton, singleton_append, findSome?_cons]
  split <;> simp_all

theorem lastRead?_congr (log : List Visit) {path other : Text}
    (same : Path.same path other) : lastRead? log path = lastRead? log other := by
  have components : Path.components path = Path.components other := by simpa [Path.same] using same
  unfold lastRead? Path.same
  rw [components]

theorem lastAttempt?_concat (log : List Visit) (visit : Visit) (path : Text) :
    lastAttempt? (log ++ [visit]) path =
      if same visit.file.path path ∧ visit.report.status ≠ .unchanged then some visit
      else lastAttempt? log path := by
  simp only [lastAttempt?, reverse_append, reverse_singleton, singleton_append, find?_cons]
  split <;> simp_all

theorem content?_after (cache : Cache) (visit : Visit) (path : Text) :
    (cache.after visit).content? path =
      (if same visit.file.path path then visit.reading.toOption else none).or
        (cache.content? path) := by
  unfold Cache.after
  cases visit.reading with
  | error cause => simp [Except.toOption]
  | ok content =>
    rw [Cache.content?_record]
    split <;> simp [Except.toOption]

theorem content?_foldl_after (log : List Visit) (path : Text) :
    (log.foldl after {}).content? path = lastRead? log path := by
  induction log using reverseRecOn with
  | nil => rfl
  | append_singleton log visit ih =>
    rw [foldl_append, foldl_cons, foldl_nil, content?_after, ih, lastRead?_concat]

structure Visit.Judged (visit : Visit) (cache : Cache) : Prop where
  unchanged_iff : visit.report.status = .unchanged ↔
    ∃ content, visit.reading = .ok content ∧ cache.content? visit.file.path = some content
  /-- Only what could be read is reported as converted. -/
  attempt : visit.report.status ≠ .unchanged →
    visit.report.status = .converted ∧ visit.report.errors = [] ∧
        (∃ content, visit.reading = .ok content) ∨
      visit.report.status = .failed ∧ visit.report.errors ≠ []

/-- Visits one after another, the first of which finds a cache. -/
inductive Logged : Cache → List Visit → Prop
  | nil (cache : Cache) : Logged cache []
  | cons {cache : Cache} {visit : Visit} {log : List Visit} :
      visit.Judged cache → Logged (cache.after visit) log → Logged cache (visit :: log)

theorem Logged.append (first : Logged cache log)
    (second : Logged (log.foldl after cache) more) : Logged cache (log ++ more) := by
  induction first with
  | nil => exact second
  | cons judged _ ih => exact .cons judged (ih second)

theorem Logged.split {before : List Visit} (logged : Logged cache (before ++ more)) :
    Logged cache before ∧ Logged (before.foldl after cache) more := by
  induction before generalizing cache with
  | nil => exact ⟨.nil cache, logged⟩
  | cons visit before ih =>
    cases logged with
    | cons judged rest => exact ⟨.cons judged (ih rest).1, (ih rest).2⟩

theorem Logged.exists_judged (logged : Logged cache log) (member : visit ∈ log) :
    ∃ found, visit.Judged found := by
  obtain ⟨before, after, rfl⟩ := append_of_mem member
  cases logged.split.2 with
  | cons judged _ => exact ⟨_, judged⟩

section Visits

variable {s : Settings} {command : Option Command} {source : FileTree} {last : Stage}
  {file : SourceFile}

theorem Visited.cache_eq (found : stage.cache = some cache)
    (visited : Visited s command source stage file visit last) :
    last.cache = some (cache.after visit) := by
  cases visited <;> simp [Stage.record, Cache.after, found]

theorem Visited.judged (found : stage.cache = some cache)
    (visited : Visited s command source stage file visit last) : visit.Judged cache := by
  cases visited with
  | unreadable => exact ⟨by simp, by simp⟩
  | unchanged _ hit => exact ⟨by simpa [Stage.recorded?, found] using hit, by simp⟩
  | faulty _ miss failed =>
    obtain ⟨errors, some, rfl⟩ := Draft.exists_report_of_convert failed
    exact ⟨by simpa [Stage.recorded?, found] using miss, by simpa using some⟩
  | finished _ miss _ finished =>
    obtain ⟨-, -, written | failed⟩ := Progress.report_of_finish finished
    · exact ⟨by simpa [Stage.recorded?, found, written.1] using miss, by simp [written]⟩
    · exact ⟨by simpa [Stage.recorded?, found, failed.1] using miss, by simp [failed]⟩

theorem Visits.logged {files : List SourceFile} {visits : List Visit}
    (found : stage.cache = some cache) (visited : Visits s command source stage files visits last) :
    Logged cache visits ∧ last.cache = some (visits.foldl after cache) := by
  induction visited generalizing cache with
  | nil => exact ⟨.nil cache, found⟩
  | cons first _ ih =>
    obtain ⟨rest, kept⟩ := ih (first.cache_eq found)
    exact ⟨.cons (first.judged found) rest, kept⟩

end Visits

theorem Logged.exists_lastAttempt (logged : Logged {} log) {path content : Text}
    (read : lastRead? log path = some content) :
    ∃ attempt, lastAttempt? log path = some attempt ∧ attempt.report.status ≠ .unchanged ∧
      (attempt.reading = .ok content ∨ ∃ cause, attempt.reading = .error cause) := by
  induction log using reverseRecOn with
  | nil => simp [lastRead?] at read
  | append_singleton log visit ih =>
    obtain ⟨earlier, last⟩ := logged.split
    rw [lastRead?_concat] at read
    rw [lastAttempt?_concat]
    by_cases same : same visit.file.path path
    · rw [if_pos same] at read
      by_cases unchanged : visit.report.status = .unchanged
      · -- the cache held what this visit reads
        cases last with
        | cons judged _ =>
        obtain ⟨found, reading, held⟩ := judged.unchanged_iff.1 unchanged
        rw [content?_foldl_after, lastRead?_congr log same] at held
        obtain rfl : found = content := by simpa [reading, Except.toOption] using read
        simpa [unchanged] using ih earlier held
      · refine ⟨visit, by simp [same, unchanged], unchanged, ?_⟩
        cases reading : visit.reading with
        | error cause => exact .inr ⟨cause, rfl⟩
        | ok found =>
          obtain rfl : found = content := by simpa [reading, Except.toOption] using read
          exact .inl rfl
    · rw [if_neg same] at read
      simpa [same] using ih earlier read

/-- What a pass is given. -/
structure Occasion where
  settings : Settings
  command : Option Command
  files : List SourceFile
  tree : FileTree

def Occasion.pass (occasion : Occasion) (cache : Cache) : Pass :=
  Pass.run occasion.settings occasion.command occasion.files (some cache) occasion.tree

/-- The visits of passes, each of which finds the cache that the one before it has left. -/
inductive History : Cache → List Occasion → List (List Visit) → Prop
  | nil (cache : Cache) : History cache [] []
  | cons {cache next : Cache} {occasion : Occasion} {visits : List Visit}
      {occasions : List Occasion} {logs : List (List Visit)} :
      (occasion.pass cache).cache = some next →
      Visits occasion.settings occasion.command occasion.tree ⟨some cache, occasion.tree⟩
        occasion.files visits ⟨some next, (occasion.pass cache).tree⟩ →
      (occasion.pass cache).reports.Perm (visits.map (·.report)) →
      History next occasions logs → History cache (occasion :: occasions) (visits :: logs)

theorem exists_history (cache : Cache) (occasions : List Occasion) :
    ∃ logs, History cache occasions logs := by
  induction occasions generalizing cache with
  | nil => exact ⟨[], .nil cache⟩
  | cons occasion occasions ih =>
    obtain ⟨visits, visited, reports⟩ := Pass.exists_visits occasion.settings occasion.command
      occasion.files (some cache) occasion.tree
    have kept := (visited.logged rfl).2
    obtain ⟨logs, history⟩ := ih (visits.foldl after cache)
    exact ⟨visits :: logs, .cons kept (by rw [← kept]; exact visited) reports history⟩

theorem History.logged {occasions : List Occasion} {logs : List (List Visit)}
    (history : History cache occasions logs) : Logged cache logs.flatten := by
  induction history with
  | nil cache => exact .nil cache
  | cons _ visited _ _ ih =>
    obtain ⟨first, kept⟩ := visited.logged rfl
    cases kept
    exact first.append ih

/-- A file is left alone exactly when it reads as it did the last time it could be read. The last
report before that says more is of a module converted from the same content exactly when it has no
errors: what failed is left alone as well. -/
theorem unchanged_iff_lastRead (occasions : List Occasion) :
    ∃ logs, History {} occasions logs ∧
      ∀ earlier visit later, logs.flatten = earlier ++ visit :: later →
        (visit.report.status = .unchanged ↔
          ∃ content, visit.reading = .ok content ∧
            lastRead? earlier visit.file.path = some content) ∧
        (visit.report.status = .unchanged →
          ∃ attempt, lastAttempt? earlier visit.file.path = some attempt ∧
            (attempt.report.status = .converted ∧ attempt.reading = visit.reading ↔
              attempt.report.errors = [])) := by
  obtain ⟨logs, history⟩ := exists_history {} occasions
  refine ⟨logs, history, fun earlier visit later parts => ?_⟩
  have logged := history.logged
  rw [parts] at logged
  obtain ⟨before, now⟩ := logged.split
  cases now with
  | cons judged _ =>
  have unchanged_iff := judged.unchanged_iff
  simp only [content?_foldl_after] at unchanged_iff
  refine ⟨unchanged_iff, fun unchanged => ?_⟩
  obtain ⟨content, reading, read⟩ := unchanged_iff.1 unchanged
  obtain ⟨attempt, found, attempted, same⟩ := before.exists_lastAttempt read
  refine ⟨attempt, found, ?_⟩
  have member : attempt ∈ earlier := by simpa using mem_of_find?_eq_some found
  obtain ⟨_, known⟩ := before.exists_judged member
  obtain ⟨converted, clean, content', read'⟩ | ⟨failed, errors⟩ := known.attempt attempted
  · obtain same | ⟨cause, unread⟩ := same
    · simp [converted, clean, same, reading]
    · simp [read'] at unread
  · simp [failed, errors]

/-- A pass over one file in the working directory. -/
def Occasion.ofContent (content : Text) : Occasion :=
  { settings := Settings.layer { directory := "/w", home := "/h" } {} {} "/w"
    command := none
    files := [⟨"/w/A.vue", "/w"⟩]
    tree := ⟨[(["w"], .directory), (["w", "A.vue"], .file (some content))]⟩ }

/-- The second of two passes over a component with a fault leaves it alone. -/
theorem unchanged_after_fault :
    let occasion := Occasion.ofContent "<template><p></template>"
    let first := occasion.pass {}
    let second := occasion.pass (first.cache.getD {})
    first.reports.map (·.status) = [.failed] ∧
      second.reports.map (·.status) = [.unchanged] := by
  decide +kernel

end SfcJsx.Batch
