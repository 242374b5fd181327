import SourceAtlas.CommandLine
import SourceAtlas.Proofs.Outcomes
import SourceAtlas.Proofs.RunEndings
/-!
What a command prints of its report. A dry run foretells the stale pages. So does a run in which every page
fails, since the printing tells a dry run by its having touched no page.
-/

namespace SourceAtlas

open FileTree

/-- What a line about a page says. -/
inductive Heading where
  | foretold
  | regenerated
  | failed (reason : String)
  | skipped
  deriving DecidableEq

def Heading.line (page : String) : Heading → String
  | foretold => "would regenerate " ++ page
  | regenerated => "regenerated " ++ page
  | failed reason => "failed      " ++ page ++ " (" ++ reason ++ ")"
  | skipped => "skipped     " ++ page

/-- A line that foretells a page tells this page and nothing else. -/
theorem Heading.eq_foretold_of_line {heading : Heading} {page other : String}
    (same : heading.line page = foretold.line other) : heading = foretold ∧ page = other := by
  -- each heading has a first letter of its own
  have headed : ∀ word rest : String, word ++ rest = "would regenerate " ++ other →
      (word.toList ++ rest.toList).head? = some 'w' := by
    intro word rest equal
    rw [← String.toList_append, equal, String.toList_append]
    rfl
  cases heading with
  | foretold => exact ⟨rfl, (String.append_right_inj _).mp same⟩
  | regenerated => exact absurd (headed "regenerated " page same) (by simp)
  | failed reason =>
      have whole : "failed      " ++ page ++ " (" ++ reason ++ ")" = "would regenerate " ++ other := same
      rw [String.append_assoc, String.append_assoc, String.append_assoc] at whole
      exact absurd (headed "failed      " _ whole) (by simp)
  | skipped => exact absurd (headed "skipped     " page same) (by simp)

namespace RunReport

def Stale (report : RunReport) (page : String) : Prop :=
  ∃ decision, report.decisions[page]? = some decision ∧ decision ≠ .reusable

/-- The pages that a report foretells: all that are stale, when none was made or kept. -/
def foretold (report : RunReport) : List String :=
  if report.regenerated.isEmpty && report.reused.isEmpty then
    (report.decisions.toList.filter fun entry => entry.2.isStale).map Prod.fst
  else []

/-- What is told of pages that a run dealt with. -/
def dealt (report : RunReport) : List (Heading × String) :=
  report.regenerated.map (Prod.mk .regenerated) ++
    (report.failed.map fun failure => (.failed failure.2, failure.1)) ++
      report.skipped.map (Prod.mk .skipped)

/-- The lines of a report, each with the page that it is about. -/
def entries (report : RunReport) : List (Heading × String) :=
  report.foretold.map (Prod.mk .foretold) ++ report.dealt

def entriesOf (report : RunReport) (page : String) : List (Heading × String) :=
  report.entries.filter fun entry => entry.2 == page

variable (report : RunReport)

theorem lines_eq : report.lines = report.entries.map fun entry => entry.1.line entry.2 := by
  have predictions : report.predictions = report.foretold.map fun page => Heading.foretold.line page := by
    unfold RunReport.predictions foretold
    split
    · rw [List.map_map]
      rfl
    · rfl
  simp only [lines, predictions, entries, dealt, List.map_append, List.map_map, List.append_assoc]
  rfl

theorem mem_foretold_iff (page : String) :
    page ∈ report.foretold ↔ report.regenerated = [] ∧ report.reused = [] ∧ report.Stale page := by
  unfold foretold Stale
  split
  · next untouched =>
      rw [Bool.and_eq_true, List.isEmpty_iff, List.isEmpty_iff] at untouched
      simp [untouched, Staleness.isStale_eq_true_iff]
  · next touched =>
      rw [Bool.and_eq_true, List.isEmpty_iff, List.isEmpty_iff] at touched
      exact iff_of_false nofun fun both => touched ⟨both.1, both.2.1⟩

theorem foretold_nodup : report.foretold.Nodup := by
  unfold foretold
  split
  · have distinct : (report.decisions.toList.map Prod.fst).Nodup := by
      rw [Std.ExtTreeMap.map_fst_toList_eq_keys]
      exact Std.ExtTreeMap.nodup_keys
    exact (List.filter_sublist.map Prod.fst).nodup distinct
  · exact List.nodup_nil

/-- A page is foretold by a line just when it is among the foretold. -/
theorem foretold_mem_lines_iff (page : String) :
    "would regenerate " ++ page ∈ report.lines ↔ page ∈ report.foretold := by
  rw [lines_eq, List.mem_map]
  constructor
  · rintro ⟨⟨heading, other⟩, listed, same⟩
    have told : heading.line other = Heading.foretold.line page := same
    obtain ⟨rfl, rfl⟩ := Heading.eq_foretold_of_line told
    simpa [entries, dealt] using listed
  · intro told
    exact ⟨(.foretold, page), List.mem_append_left _ (List.mem_map_of_mem told), rfl⟩

/-- A report settles its pages: each is named once, and those that were decided about are the ones that were
made, were kept or failed. -/
structure Settled : Prop where
  once : (report.regenerated ++ report.reused ++ report.failed.map Prod.fst ++ report.skipped).Nodup
  decided (page : String) : (∃ decision, report.decisions[page]? = some decision) ↔
    page ∈ report.regenerated ++ report.reused ++ report.failed.map Prod.fst

namespace Settled

variable {report} (settled : report.Settled)

include settled

/-- Pages are foretold when all that were decided about failed. -/
theorem mem_foretold_iff (page : String) : page ∈ report.foretold ↔ report.Stale page ∧
    ∀ other decision, report.decisions[other]? = some decision → other ∈ report.failed.map Prod.fst := by
  rw [report.mem_foretold_iff, ← and_assoc, and_comm]
  refine and_congr_right fun _ => ?_
  constructor
  · rintro ⟨unmade, unkept⟩ other decision entry
    simpa [unmade, unkept] using (settled.decided other).mp ⟨decision, entry⟩
  · intro failing
    have apart := (List.nodup_append.mp (List.nodup_append.mp settled.once).1).2.2
    have untouched : ∀ page, page ∉ report.regenerated ++ report.reused := by
      intro page touched
      obtain ⟨decision, entry⟩ := (settled.decided page).mpr (List.mem_append_left _ touched)
      exact apart page touched page (failing page decision entry) rfl
    exact List.append_eq_nil_iff.mp (List.eq_nil_iff_forall_not_mem.mpr untouched)

theorem dealt_nodup : (report.dealt.map Prod.snd).Nodup := by
  have pages : report.dealt.map Prod.snd =
      report.regenerated ++ report.failed.map Prod.fst ++ report.skipped := by
    simp [dealt, Function.comp_def]
  rw [pages]
  exact ((List.sublist_append_left ..).append_right _).append_right _ |>.nodup settled.once

/-- A page that a run dealt with has one line that says so, behind the one that foretells it if there is
one. -/
theorem entriesOf_eq {heading : Heading} {page : String} (listed : (heading, page) ∈ report.dealt) :
    report.entriesOf page =
      (if page ∈ report.foretold then [(.foretold, page)] else []) ++ [(heading, page)] := by
  rw [entriesOf, entries, List.filter_append, Table.filter_key_eq settled.dealt_nodup listed]
  congr 1
  have distinct : ((report.foretold.map (Prod.mk Heading.foretold)).map Prod.snd).Nodup := by
    simpa [Function.comp_def] using report.foretold_nodup
  split
  · next told => exact Table.filter_key_eq distinct (List.mem_map_of_mem told)
  · next untold =>
      rw [List.filter_eq_nil_iff]
      intro entry member same
      obtain ⟨other, told, rfl⟩ := List.mem_map.mp member
      exact untold (beq_iff_eq.mp same ▸ told)

end Settled

end RunReport

/-- A pass settles the requested pages, called off or not. -/
theorem Pass.run_settled (pass : Pass) {requests : List PageRequest} (previous : Option Manifest)
    (cancelled : Bool) (state : PassState) (distinct : (requests.map PageRequest.path).Nodup) :
    (pass.run requests previous cancelled state).1.Settled := by
  cases cancelled with
  | true =>
      refine ⟨?_, fun page => iff_of_false (by simp [run]) (by simp [run])⟩
      show ((requests.map PageRequest.path).mergeSort (· ≤ ·)).Nodup
      exact (List.mergeSort_perm _ _).symm.nodup distinct
  | false =>
      have accounts := pass.run_accounts previous state distinct
      refine ⟨?_, fun page => ?_⟩
      · rw [accounts.skipped, List.append_nil]
        exact accounts.partition.symm.nodup distinct
      · rw [accounts.partition.mem_iff, accounts.decisions]
        simp only [Option.map_eq_some_iff, List.mem_map]
        constructor
        · rintro ⟨decision, request, asked, -⟩
          exact ⟨request, List.mem_of_find?_eq_some asked, by simpa using List.find?_some asked⟩
        · rintro ⟨request, member, named⟩
          have asked : (requests.find? fun request => request.path = page).isSome = true := by
            simpa using ⟨request, member, named⟩
          obtain ⟨found, asked⟩ := Option.isSome_iff_exists.mp asked
          exact ⟨_, found, asked, rfl⟩

namespace Project

/-- The report of a run that ends well is that of its pass. -/
theorem passed_of_run {project : Project} {previous : Option Manifest} {cancelled : Bool} {schedule : Schedule}
    {before after : FileTree} {report : RunReport}
    (ran : (project.run previous cancelled schedule).run.run before = (.ok report, after)) :
    ∃ analysis, project.analyze before = .ok analysis ∧
      report = (project.passed previous cancelled schedule before analysis).1 := by
  cases analyzed : project.analyze before with
  | error fault =>
      rw [run_of_error analyzed] at ran
      cases ran
  | ok analysis =>
      refine ⟨analysis, rfl, ?_⟩
      have concluded := project.concluded previous analysis
        (project.passed previous cancelled schedule before analysis).1
        (project.passed previous cancelled schedule before analysis).2
        (project.swept previous analysis (project.passed previous cancelled schedule before analysis).2)
      rw [← run_of_analyzed analyzed, ran] at concluded
      cases concluded with
      | done => rfl

theorem settled_of_run {project : Project} {previous : Option Manifest} {cancelled : Bool} {schedule : Schedule}
    {before after : FileTree} {report : RunReport}
    (ran : (project.run previous cancelled schedule).run.run before = (.ok report, after)) : report.Settled := by
  obtain ⟨analysis, analyzed, rfl⟩ := passed_of_run ran
  exact (project.pass schedule).run_settled previous cancelled _ (Analysis.pages_nodup analyzed)

end Project

namespace Command

def isDry : Command → Bool
  | sync dryRun _ => dryRun
  | _ => false

def work? (project : Project) (cancelled : Bool) (schedule : Schedule) : Command → Option (Work RunReport)
  | generate _ _ force => some (project.generate force cancelled schedule)
  | sync dryRun failOnChanges => some (project.sync dryRun failOnChanges cancelled schedule)
  | status => none

theorem lines_of_run {command : Command} {project : Project} {cancelled : Bool} {schedule : Schedule}
    {work : Work RunReport} (works : command.work? project cancelled schedule = some work)
    {before after : FileTree} {output : List String}
    (ran : (command.run project cancelled schedule).run.run before = (.ok output, after)) :
    ∃ report, work.run.run before = (.ok report, after) ∧ output = report.lines := by
  have printed : command.run project cancelled schedule = do return (← work).lines := by
    cases command with
    | generate source target force =>
        cases works
        rfl
    | sync dryRun failOnChanges =>
        cases works
        rfl
    | status => cases works
  rw [printed, run_bind] at ran
  split at ran
  · next report left worked =>
      cases ran
      exact ⟨report, worked, rfl⟩
  · cases ran

theorem report_of_dry {command : Command} (dry : command.isDry = true) {project : Project} {cancelled : Bool}
    {schedule : Schedule} {work : Work RunReport} (works : command.work? project cancelled schedule = some work)
    {before after : FileTree} {report : RunReport} (ran : work.run.run before = (.ok report, after)) :
    ∃ decisions, project.status before = .ok decisions ∧ report = { decisions } := by
  cases command with
  | generate source target force => cases dry
  | sync dryRun failOnChanges =>
      cases works
      cases dryRun with
      | false => cases dry
      | true =>
          rw [Project.run_sync_dry] at ran
          cases told : project.status before with
          | error fault =>
              rw [told] at ran
              cases ran
          | ok decisions =>
              rw [told] at ran
              simp only at ran
              split at ran
              · cases ran
              · cases ran
                exact ⟨decisions, rfl, rfl⟩
  | status => cases works

/-- The report of a real run settles its pages. -/
theorem settled_of_real {command : Command} (real : command.isDry = false) {project : Project}
    {cancelled : Bool} {schedule : Schedule} {work : Work RunReport}
    (works : command.work? project cancelled schedule = some work) {before after : FileTree}
    {report : RunReport} (ran : work.run.run before = (.ok report, after)) : report.Settled := by
  cases command with
  | generate source target force =>
      cases works
      exact Project.settled_of_run (Project.run_of_generate ran)
  | sync dryRun failOnChanges =>
      cases works
      cases dryRun with
      | true => cases real
      | false => exact Project.settled_of_run (Project.run_of_sync ran)
  | status => cases works

end Command

namespace Invocation

theorem run_eq (invocation : Invocation) (surroundings : Surroundings) (before : FileTree) :
    (invocation.run surroundings).run before =
      match Config.loadOrDefault before surroundings.root invocation.config with
      | .error fault => (.ofSettingsFault fault, before)
      | .ok config =>
          match invocation.project surroundings config before with
          | .error fault => (.ofFault fault, before)
          | .ok project =>
              match (invocation.command.run project surroundings.cancelled surroundings.schedule).run.run before with
              | (.error fault, after) => (.ofFault fault, after)
              | (.ok output, after) => ({ exitCode := 0, output }, after) := by
  unfold run
  rw [StateT.run_bind, StateT.run_get]
  simp only [pure_bind]
  cases Config.loadOrDefault before surroundings.root invocation.config with
  | error fault => rfl
  | ok config =>
      simp only
      cases invocation.project surroundings config before with
      | error fault => rfl
      | ok project =>
          simp only
          rw [StateT.run_bind]
          rcases (invocation.command.run project surroundings.cancelled surroundings.schedule).run.run before with
            ⟨fault | output, after⟩ <;> rfl

theorem exists_of_run {invocation : Invocation} {surroundings : Surroundings} {before after : FileTree}
    {outcome : Outcome} (ran : (invocation.run surroundings).run before = (outcome, after))
    (succeeded : outcome.exitCode = 0) :
    ∃ config project, Config.loadOrDefault before surroundings.root invocation.config = .ok config ∧
      invocation.project surroundings config before = .ok project ∧
      (invocation.command.run project surroundings.cancelled surroundings.schedule).run.run before =
        (.ok outcome.output, after) := by
  rw [run_eq] at ran
  split at ran
  · cases ran
    cases succeeded
  · next config loaded =>
      split at ran
      · cases ran
        cases succeeded
      · next project made =>
          split at ran
          · cases ran
            cases succeeded
          · next output left carried =>
              cases ran
              exact ⟨config, project, loaded, made, carried⟩

/-- What a `generate` or a `sync` that succeeds prints. -/
theorem run_prints (invocation : Invocation) (surroundings : Surroundings) {before after : FileTree}
    {outcome : Outcome} (ran : (invocation.run surroundings).run before = (outcome, after))
    (succeeded : outcome.exitCode = 0) (reporting : invocation.command ≠ .status) :
    ∃ config project work report,
      Config.loadOrDefault before surroundings.root invocation.config = .ok config ∧
      invocation.project surroundings config before = .ok project ∧
      invocation.command.work? project surroundings.cancelled surroundings.schedule = some work ∧
      work.run.run before = (.ok report, after) ∧
      outcome.output = report.entries.map (fun entry => entry.1.line entry.2) ∧
      (invocation.command.isDry = true → project.status before = .ok report.decisions ∧
        ∀ entry ∈ report.entries, entry.1 = .foretold) ∧
      (∀ page, "would regenerate " ++ page ∈ outcome.output ↔ report.Stale page ∧
        (invocation.command.isDry = true ∨ ∀ other decision,
          report.decisions[other]? = some decision → other ∈ report.failed.map Prod.fst)) ∧
      (invocation.command.isDry = false →
        (∀ page ∈ report.regenerated, report.entriesOf page = [(.regenerated, page)]) ∧
        ∀ page reason, (page, reason) ∈ report.failed → report.entriesOf page =
          (if "would regenerate " ++ page ∈ outcome.output then [(.foretold, page)] else []) ++
            [(.failed reason, page)]) := by
  obtain ⟨config, project, loaded, made, carried⟩ := exists_of_run ran succeeded
  obtain ⟨work, works⟩ : ∃ work, invocation.command.work? project surroundings.cancelled surroundings.schedule =
      some work := by
    cases asked : invocation.command with
    | generate source target force => exact ⟨_, rfl⟩
    | sync dryRun failOnChanges => exact ⟨_, rfl⟩
    | status => exact absurd asked reporting
  obtain ⟨report, worked, printed⟩ := Command.lines_of_run works carried
  have told : ∀ page, "would regenerate " ++ page ∈ outcome.output ↔ page ∈ report.foretold := by
    intro page
    rw [printed]
    exact report.foretold_mem_lines_iff page
  refine ⟨config, project, work, report, loaded, made, works, worked, printed.trans report.lines_eq, ?_, ?_, ?_⟩
  · intro dry
    obtain ⟨decisions, asked, rfl⟩ := Command.report_of_dry dry works worked
    exact ⟨asked, by simp [RunReport.entries, RunReport.dealt]⟩
  · intro page
    rw [told]
    cases dry : invocation.command.isDry with
    | true =>
        obtain ⟨decisions, -, rfl⟩ := Command.report_of_dry dry works worked
        simp [RunReport.mem_foretold_iff]
    | false =>
        rw [(Command.settled_of_real dry works worked).mem_foretold_iff]
        simp
  · intro real
    have settled := Command.settled_of_real real works worked
    refine ⟨fun page member => ?_, fun page reason member => ?_⟩
    · have untold : page ∉ report.foretold := fun told => by
        rw [report.mem_foretold_iff] at told
        rw [told.1] at member
        cases member
      have listed : (Heading.regenerated, page) ∈ report.dealt := by simp [RunReport.dealt, member]
      rw [settled.entriesOf_eq listed, if_neg untold]
      rfl
    · have listed : (Heading.failed reason, page) ∈ report.dealt := by simp [RunReport.dealt, member]
      rw [settled.entriesOf_eq listed]
      simp only [told]

def here : Surroundings where
  root := ⟨"/r"⟩
  parser := fun _ _ => .leaf "" 0
  cancelled := false
  schedule := Project.newYear

theorem run_prints_strayTree : ∃ outcome after project decisions decision,
    ((⟨none, .sync true false⟩ : Invocation).run here).run Project.strayTree = (outcome, after) ∧
      outcome.exitCode = 0 ∧ "would regenerate index.md" ∈ outcome.output ∧
      Project.status project Project.strayTree = .ok decisions ∧
      decisions["index.md"]? = some decision ∧ decision ≠ .reusable := by
  have evaluated : (((⟨none, .sync true false⟩ : Invocation).run here).run Project.strayTree).1 =
      ⟨0, ["would regenerate index.md"], []⟩ := by decide +kernel
  cases ran : ((⟨none, .sync true false⟩ : Invocation).run here).run Project.strayTree with
  | mk outcome after =>
      rw [ran] at evaluated
      have succeeded : outcome.exitCode = 0 := congrArg Outcome.exitCode evaluated
      have told : "would regenerate index.md" ∈ outcome.output := by
        rw [show outcome.output = _ from congrArg Outcome.output evaluated]
        exact List.mem_cons_self ..
      obtain ⟨config, project, work, report, -, -, -, -, -, predicted, foretold, -⟩ :=
        run_prints _ here ran succeeded nofun
      obtain ⟨decision, entry, stale⟩ := ((foretold "index.md").mp told).1
      exact ⟨outcome, after, project, report.decisions, decision, rfl, succeeded, told, (predicted rfl).1,
        entry, stale⟩

/-- A file tree in which the overview has no place. -/
def overviewTaken : FileTree :=
  ((({} : FileTree).insert ["r"] .dir).insert ["r", "docs"] .dir).insert ["r", "docs", "index.md"] .dir

/-- A run that was carried out, and in which every page failed, foretells its pages. -/
theorem run_foretells_failed : ∃ after,
    ((⟨none, .generate none none false⟩ : Invocation).run here).run overviewTaken =
      (⟨0, ["would regenerate index.md", "failed      index.md (IO error: Is a directory (os error 21))"], []⟩,
        after) := by
  have evaluated : (((⟨none, .generate none none false⟩ : Invocation).run here).run overviewTaken).1 =
      ⟨0, ["would regenerate index.md", "failed      index.md (IO error: Is a directory (os error 21))"], []⟩ := by
    decide +kernel
  cases ran : ((⟨none, .generate none none false⟩ : Invocation).run here).run overviewTaken with
  | mk outcome after =>
      rw [ran] at evaluated
      exact ⟨after, Prod.ext evaluated rfl⟩

end Invocation

end SourceAtlas
