import SourceAtlas.Proofs.CurrentManifest
/-!
When `sync` fails because of changes. It goes by what was decided before the pages are looked at, so it
does not tell of a page that is made again only because it is damaged.
-/

namespace SourceAtlas

theorem RunReport.staleCount_pos_iff (report : RunReport) :
    0 < report.staleCount ↔
      ∃ (page : String) (decision : Staleness), report.decisions[page]? = some decision ∧
        decision ≠ .reusable := by
  rw [staleCount, List.length_pos_iff_exists_mem, Table.values_eq_map_snd]
  simp only [List.mem_filter, List.mem_map, Staleness.isStale_eq_true_iff]
  constructor
  · rintro ⟨decision, ⟨⟨page, same⟩, listed, rfl⟩, stale⟩
    exact ⟨page, same, Std.ExtTreeMap.mem_toList_iff_getElem?_eq_some.mp listed, stale⟩
  · rintro ⟨page, decision, entry, stale⟩
    exact ⟨decision, ⟨_, Std.ExtTreeMap.mem_toList_iff_getElem?_eq_some.mpr entry, rfl⟩, stale⟩

namespace Project

open FileTree

variable (project : Project)

/-- A page on disk is the one that a manifest has an entry for. -/
def Intact (manifest : Option Manifest) (tree : FileTree) (page : String) : Prop :=
  ∃ status text, (manifest.bind fun manifest => manifest[page]?) = some status ∧
    project.docs.load tree page = .ok text ∧ Fingerprint.ofText text = status.contentHash

/-- A dry run changes nothing, and tells what was decided. -/
theorem run_sync_dry (failOnChanges cancelled : Bool) (schedule : Schedule) (tree : FileTree) :
    (project.sync true failOnChanges cancelled schedule).run.run tree =
      match project.status tree with
      | .ok decisions =>
          if failOnChanges && 0 < ({ decisions } : RunReport).staleCount then
            (.error (.stalePages ({ decisions } : RunReport).staleCount), tree)
          else (.ok { decisions }, tree)
      | .error fault => (.error fault, tree) := by
  unfold sync
  rw [run_bind, run_get]
  simp only [if_true]
  rw [run_bind]
  cases project.status tree with
  | error fault => rfl
  | ok decisions =>
      have lifted : (liftM (Except.ok decisions : Except Fault (Std.ExtTreeMap String Staleness)) :
          Work (Std.ExtTreeMap String Staleness)).run.run tree = (.ok decisions, tree) := rfl
      rw [lifted]
      simp only [pure_bind]
      split <;> rfl

variable {project}

namespace Completed

variable {previous : Option Manifest} {schedule : Schedule} {tree after : FileTree} {report : RunReport}
  (completed : project.Completed previous schedule tree report after)

include completed

theorem reused_iff (grounded : project.Grounded tree) {request : PageRequest}
    (member : request ∈ completed.analysis.pages) :
    request.path ∈ report.reused ↔
      Staleness.classify previous request completed.analysis.hashes = .reusable ∧
        project.Intact previous tree request.path := by
  obtain ⟨index, found⟩ := List.mem_iff_getElem?.mp (List.mem_map_of_mem
    (f := Pass.taskFor previous completed.analysis.hashes) member)
  have plain := completed.plain grounded.toRooted member
  have told := (project.pass schedule).runTasks_told (start tree completed.analysis)
    (completed.tasks_nodup previous) found .reused
  rw [completed.ran] at told
  -- when its task looks for it, the page is what it was when the run started
  have kept := PageTask.kept?_congr project.docs (Pass.taskFor previous completed.analysis.hashes request)
    ((project.pass schedule).runTasks_loads (start tree completed.analysis)
      (completed.tasks_nodup previous) (completed.plain_task grounded.toRooted previous) found
      grounded.sound (fun content held => grounded.isDir_docs plain held)
      ((project.pass schedule).allTurns (tasks previous completed.analysis).length))
  refine (completed.mem_reused_iff _).trans (told.trans (TaskStage.fate_eq_reused_iff.trans ?_))
  refine (not_congr (Eq.congr_left kept)).trans ?_
  rw [← Ne, Option.ne_none_iff_exists']
  simp only [PageTask.kept?_eq_some_iff, Pass.taskFor, start]
  constructor
  · rintro ⟨prior, decided, was, text, loaded, hashed⟩
    exact ⟨decided, prior, text, was, loaded, hashed⟩
  · rintro ⟨decided, prior, text, was, loaded, hashed⟩
    exact ⟨prior, decided, was, text, loaded, hashed⟩

/-- A page that is not kept was made again or failed. -/
theorem changed_iff :
    (∃ page, page ∈ report.regenerated ∨ page ∈ report.failed.map Prod.fst) ↔
      ∃ request ∈ completed.analysis.pages, request.path ∉ report.reused := by
  simp only [completed.mem_regenerated_iff, completed.mem_reused_iff, List.mem_map]
  constructor
  · rintro ⟨page, regenerated | ⟨⟨page, message⟩, failed, rfl⟩⟩
    · obtain ⟨request, member, rfl⟩ := completed.request_of_outcome regenerated
      refine ⟨request, member, fun reused => ?_⟩
      cases completed.outcome_eq regenerated reused
    · obtain ⟨fault, listed, -⟩ := (completed.mem_failed_iff page message).mp failed
      obtain ⟨request, member, rfl⟩ := completed.request_of_outcome listed
      refine ⟨request, member, fun reused => ?_⟩
      cases completed.outcome_eq listed reused
  · rintro ⟨request, member, notReused⟩
    obtain ⟨outcome, listed, -⟩ := completed.entered member
    refine ⟨request.path, ?_⟩
    cases outcome with
    | regenerated => exact Or.inl listed
    | reused => exact absurd listed notReused
    | failed fault =>
        exact Or.inr ⟨(request.path, fault.message),
          (completed.mem_failed_iff ..).mpr ⟨fault, listed, rfl⟩, rfl⟩

theorem staleCount_pos_iff :
    0 < report.staleCount ↔ ∃ request ∈ completed.analysis.pages,
      Staleness.classify previous request completed.analysis.hashes ≠ .reusable := by
  have told := congrArg RunReport.decisions completed.reported
  rw [RunReport.staleCount_pos_iff, told]
  constructor
  · rintro ⟨page, decision, entry, stale⟩
    obtain ⟨request, member, -, rfl⟩ := Staleness.exists_of_plan entry
    exact ⟨request, member, stale⟩
  · rintro ⟨request, member, stale⟩
    exact ⟨request.path, _, Staleness.plan_getElem?_of_mem (Analysis.pages_nodup completed.analyzed)
      member, stale⟩

end Completed

/-- Dry or not, `sync` fails on changes when a decision of the run says that a page is stale: decisions
are taken before the first page is made. -/
theorem sync_answer {schedule : Schedule} {tree after : FileTree} {report : RunReport}
    (ran : (project.run (project.previous tree) false schedule).run.run tree = (.ok report, after))
    (dryRun : Bool) :
    ∃ told left, (project.sync dryRun true false schedule).run.run tree =
      if 0 < report.staleCount then (.error (.stalePages report.staleCount), left)
      else (.ok told, left) := by
  cases dryRun with
  | false =>
      refine ⟨report, after, ?_⟩
      rw [run_sync, ran]
      simp
  | true =>
      obtain ⟨completed⟩ := project.completed_of_run ran
      have told : project.status tree = .ok report.decisions := by
        rw [status, completed.analyzed, decisions_of_run ran completed.analyzed]
        rfl
      refine ⟨{ decisions := report.decisions }, tree, ?_⟩
      rw [run_sync_dry, told]
      simp [RunReport.staleCount]

/-- When `sync` fails on changes, dry or not, and when there are any. It fails when a planned page is
decided to be stale. A page is made again or fails also when it is decided reusable and is damaged; so
unless that happens, failing tells exactly whether there are changes. -/
theorem sync_fails_iff (project : Project) {schedule : Schedule} {tree after : FileTree}
    {report : RunReport} (grounded : project.Grounded tree)
    (ran : (project.run (project.previous tree) false schedule).run.run tree = (.ok report, after)) :
    ∃ analysis, project.analyze tree = .ok analysis ∧
      let reusable := fun request =>
        Staleness.classify (project.previous tree) request analysis.hashes = .reusable
      let intact := fun request : PageRequest =>
        project.Intact (project.previous tree) tree request.path
      let fails := fun dryRun => ∃ count left,
        (project.sync dryRun true false schedule).run.run tree = (.error (.stalePages count), left)
      let changed := ∃ page, page ∈ report.regenerated ∨ page ∈ report.failed.map Prod.fst
      (∀ dryRun, fails dryRun ↔ ∃ request ∈ analysis.pages, ¬ reusable request) ∧
      (changed ↔ ∃ request ∈ analysis.pages, ¬ (reusable request ∧ intact request)) ∧
      ((∀ request ∈ analysis.pages, reusable request → intact request) →
        ∀ dryRun, fails dryRun ↔ changed) := by
  obtain ⟨completed⟩ := project.completed_of_run ran
  refine ⟨completed.analysis, completed.analyzed, ?_⟩
  intro reusable intact fails changed
  have stale : ∀ dryRun, fails dryRun ↔ 0 < report.staleCount := by
    intro dryRun
    obtain ⟨told, left, same⟩ := sync_answer ran dryRun
    simp only [fails, same]
    split
    · next some => exact iff_of_true ⟨_, left, rfl⟩ some
    · next none => exact iff_of_false (by rintro ⟨count, other, ⟨⟩⟩) none
  have decided : ∀ dryRun, fails dryRun ↔ ∃ request ∈ completed.analysis.pages, ¬ reusable request :=
    fun dryRun => (stale dryRun).trans completed.staleCount_pos_iff
  have differs : changed ↔
      ∃ request ∈ completed.analysis.pages, ¬ (reusable request ∧ intact request) := by
    refine completed.changed_iff.trans (exists_congr fun request => and_congr_right fun member => ?_)
    rw [completed.reused_iff grounded member]
  refine ⟨decided, differs, fun undamaged dryRun => ?_⟩
  rw [decided, differs]
  refine exists_congr fun request => and_congr_right fun member => ?_
  exact ⟨fun other both => other both.1, fun other same => other ⟨same, undamaged request member same⟩⟩

def paged : Project := bare ⟨"docs"⟩ fun _ => .ok "page"

theorem paged_grounded : paged.Grounded strayTree := by
  have rooted : strayTree.find? paged.root.place = some .dir := by decide +kernel
  exact ⟨strayTree_sound, fun content => by simp [rooted], fun _ => by decide +kernel⟩

theorem sync_fails_strayTree : ∃ report after count left,
    (paged.run (paged.previous strayTree) false newYear).run.run strayTree = (.ok report, after) ∧
      (paged.sync true true false newYear).run.run strayTree = (.error (.stalePages count), left) ∧
      ∃ page, page ∈ report.regenerated ∨ page ∈ report.failed.map Prod.fst := by
  obtain ⟨report, ran⟩ := exists_of_isOk (paged.run (paged.previous strayTree) false newYear) strayTree
    (by decide +kernel)
  obtain ⟨analysis, analyzed, fails, changed, -⟩ := sync_fails_iff paged paged_grounded ran
  have missing : paged.previous strayTree = none :=
    Option.isNone_iff_eq_none.mp (by decide +kernel)
  have stale : ∀ request, Staleness.classify (paged.previous strayTree) request analysis.hashes ≠
      .reusable := by
    intro request
    rw [missing]
    exact nofun
  obtain ⟨request, member⟩ := Analysis.exists_mem_pages analyzed
  obtain ⟨count, left, failed⟩ := (fails true).mpr ⟨request, member, stale request⟩
  exact ⟨report, _, count, left, ran, failed,
    changed.mpr ⟨request, member, fun both => stale request both.1⟩⟩

/-- What a run has left behind, without the overview. -/
def tornTree : FileTree :=
  ((paged.generate true false newYear).run.run strayTree).2.erase ["r", "docs", "index.md"]

/-- A page that was deleted is made again, and neither a run that should fail on changes nor a dry one
tells of it. -/
theorem sync_misses_torn_page : ∃ report after dry left,
    (paged.sync false true false newYear).run.run tornTree = (.ok report, after) ∧
      report.regenerated = ["index.md"] ∧
      (paged.sync true true false newYear).run.run tornTree = (.ok dry, left) := by
  obtain ⟨report, ran, regenerated⟩ := exists_of_view (paged.sync false true false newYear) tornTree
    RunReport.regenerated ["index.md"] (by decide +kernel)
  obtain ⟨_, _, answer⟩ := sync_answer (run_of_sync ran) false
  obtain ⟨dry, left, dryAnswer⟩ := sync_answer (run_of_sync ran) true
  have unnoticed : ¬ 0 < report.staleCount := by
    intro stale
    rw [ran, if_pos stale] at answer
    cases answer
  rw [if_neg unnoticed] at dryAnswer
  exact ⟨report, _, dry, left, ran, regenerated, dryAnswer⟩

end Project

end SourceAtlas
