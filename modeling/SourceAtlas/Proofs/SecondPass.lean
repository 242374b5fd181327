import SourceAtlas.Proofs.Agreement
import SourceAtlas.Proofs.CurrentManifest
import SourceAtlas.Proofs.Reanalysis
/-!
A pass over what a run has left behind. When no page of the run failed, the manifest is read back as
it was recorded, every page is kept, and all that the pass writes is there already.
-/

namespace SourceAtlas

namespace Staleness

/-- Requests that are all decided alike are planned alike, and a page is stale only if a request is. -/
theorem plan_getElem? {requests : List PageRequest} {previous : Option Manifest} {hashes : FileHashes}
    (reusable : ∀ request ∈ requests, classify previous request hashes = .reusable) :
    (∀ request ∈ requests, (plan requests previous hashes)[request.path]? = some .reusable) ∧
      ((plan requests previous hashes).values.filter isStale).length = 0 := by
  refine ⟨fun request member => ?_, ?_⟩
  · refine (Table.getElem?_fill PageRequest.path
      (fun request => classify previous request hashes) member
      fun other inRequests _ => ?_).trans ?_
    · exact (reusable other inRequests).trans (reusable request member).symm
    · rw [reusable request member]
  · rw [Table.values_eq_map_snd, List.length_eq_zero_iff, List.filter_eq_nil_iff]
    intro decision member stale
    obtain ⟨⟨page, same⟩, listed, rfl⟩ := List.mem_map.mp member
    obtain ⟨request, inRequests, -, decided⟩ :=
      exists_of_plan (Std.ExtTreeMap.mem_toList_iff_getElem?_eq_some.mp listed)
    rw [← decided, reusable request inRequests] at stale
    cases stale

end Staleness

theorem RunReport.ofOutcomes_of_reused (decisions : Std.ExtTreeMap String Staleness)
    (requests : List PageRequest) :
    let report := ofOutcomes decisions (requests.map fun request => (request.path, .reused))
    report.reused = (requests.map PageRequest.path).mergeSort (· ≤ ·) ∧ report.regenerated = [] ∧
      report.failed = [] := by
  have all : ∀ outcome, ((requests.map fun request => (request.path, PageOutcome.reused)).filter
      fun entry => entry.2 = outcome).map Prod.fst =
        if outcome = .reused then requests.map PageRequest.path else [] := by
    intro outcome
    induction requests with
    | nil => simp
    | cons request rest ih =>
        by_cases same : outcome = .reused
        · simpa [same] using ih
        · simp [same, Ne.symm same]
  refine ⟨?_, ?_, ?_⟩
  · simp only [ofOutcomes, pagesWith, all, if_true]
  · simp [ofOutcomes, pagesWith, all]
  · simp only [ofOutcomes, failures]
    rw [← List.length_eq_zero_iff, List.length_mergeSort, List.length_eq_zero_iff, List.filterMap_map,
      List.filterMap_eq_nil_iff]
    exact fun request member => rfl

/-- A task is at a stage on the way to keeping its page. -/
def TaskStage.Keeps (task : PageTask) : TaskStage → Prop
  | register | carry _ | done .reused => True
  | load prior => task.prior = some prior
  | _ => False

theorem TaskStage.Keeps.advance {pass : Pass} {task : PageTask} {stage : TaskStage} {state : PassState}
    (keeps : stage.Keeps task) (now : Timestamp) {prior : PageStatus}
    (kept : task.kept? pass.docs state.tree = some prior) :
    (stage.advance (pass.dated now) task state).1.Keeps task ∧
      (stage.advance (pass.dated now) task state).2.tree = state.tree := by
  obtain ⟨decided, was, text, loaded, hashed⟩ := (PageTask.kept?_eq_some_iff ..).mp kept
  cases stage with
  | register => exact ⟨by simp only [TaskStage.advance, afterRegister, decided, was, Keeps], rfl⟩
  | load recalled =>
      obtain rfl : prior = recalled := Option.some.inj (was.symm.trans keeps)
      simp only [TaskStage.advance, Pass.dated, loaded, hashed, if_true, Keeps, and_self]
  | carry recalled => exact ⟨trivial, rfl⟩
  | done outcome => exact ⟨keeps, rfl⟩
  | _ => cases keeps

namespace Pass

variable (pass : Pass) {tasks : List PageTask} (state : PassState)
  (kept : ∀ task ∈ tasks, ∃ prior, task.kept? pass.docs state.tree = some prior)

theorem interleave_keeps (turns : List Turn) {underway : Underway}
    (kept : ∀ entry ∈ underway.tasks, ∃ prior, entry.1.kept? pass.docs underway.state.tree = some prior)
    (keeps : ∀ entry ∈ underway.tasks, entry.2.Keeps entry.1) :
    (∀ entry ∈ (pass.interleave turns underway).tasks, entry.2.Keeps entry.1) ∧
      (pass.interleave turns underway).state.tree = underway.state.tree := by
  induction turns generalizing underway with
  | nil => exact ⟨keeps, rfl⟩
  | cons turn rest ih =>
      rcases pass.takeTurn_cases underway turn with idle | ⟨front, task, stage, back, split, -, turned⟩
      · exact @ih (pass.takeTurn underway turn) (idle.symm ▸ kept) (idle.symm ▸ keeps) |>.imp_right
          (·.trans (by rw [idle]))
      · rw [split] at kept keeps
        simp only [List.forall_mem_append, List.forall_mem_cons] at kept keeps
        obtain ⟨prior, same⟩ := kept.2.1
        obtain ⟨onward, tree⟩ := keeps.2.1.advance turn.now same
        have still : (pass.takeTurn underway turn).state.tree = underway.state.tree := by
          rw [turned]
          exact tree
        obtain ⟨after, unchanged⟩ := @ih (pass.takeTurn underway turn) (by
            rw [still, turned]
            simpa only [List.forall_mem_append, List.forall_mem_cons] using kept) (by
            rw [turned]
            simpa only [List.forall_mem_append, List.forall_mem_cons] using ⟨keeps.1, onward, keeps.2.2⟩)
        exact ⟨after, unchanged.trans still⟩

include kept

/-- Tasks that all keep their pages change no file. -/
theorem runTasks_of_kept :
    (pass.runTasks tasks state).1 = tasks.map (fun task => (task.request.path, .reused)) ∧
      (pass.runTasks tasks state).2.tree = state.tree := by
  obtain ⟨keeps, tree⟩ := @interleave_keeps pass (pass.allTurns tasks.length) (.start tasks state)
    (by simpa [Underway.start] using kept) (by simp [Underway.start, TaskStage.Keeps])
  refine ⟨?_, tree⟩
  have pages := pass.runTasks_pages tasks state
  -- every outcome that is told is that of a page that was kept
  have reused : ∀ entry ∈ (pass.runTasks tasks state).1, entry = (entry.1, PageOutcome.reused) := by
    rintro ⟨page, outcome⟩ listed
    obtain ⟨⟨task, stage⟩, member, told⟩ := List.mem_filterMap.mp listed
    obtain ⟨other, came, same⟩ := Option.map_eq_some_iff.mp told
    obtain rfl := TaskStage.eq_done_of_outcome came
    cases same
    have way := keeps _ member
    cases outcome with
    | reused => rfl
    | _ => cases way
  calc (pass.runTasks tasks state).1
      = (pass.runTasks tasks state).1.map fun entry => (entry.1, .reused) := by
        conv_lhs => rw [← List.map_id (pass.runTasks tasks state).1]
        exact List.map_congr_left reused
    _ = ((pass.runTasks tasks state).1.map Prod.fst).map fun page => (page, .reused) := by
        rw [List.map_map]
        rfl
    _ = tasks.map fun task => (task.request.path, .reused) := by
        rw [pages, List.map_map]
        rfl

/-- Tasks that keep the pages of a manifest record its entries again. -/
theorem runTasks_entry_of_kept (fresh : ∀ task ∈ tasks, state.recorder.manifest[task.request.path]? = none)
    (distinct : (tasks.map fun task => task.request.path).Nodup) {task : PageTask}
    (member : task ∈ tasks) :
    (pass.runTasks tasks state).2.recorder.manifest[task.request.path]? = task.prior := by
  obtain ⟨outcome, listed, result⟩ := pass.runTasks_entered state distinct member (fresh task member)
  rw [(pass.runTasks_of_kept state kept).1] at listed
  obtain ⟨other, -, equal⟩ := List.mem_map.mp listed
  have reused : outcome = .reused := (congrArg Prod.snd equal).symm
  generalize (pass.runTasks tasks state).2.recorder.manifest[task.request.path]? = entry at result ⊢
  cases result with
  | kept prior text decided was stood hashed => exact was.symm
  | made body now generated stood => cases reused
  | failed fault => cases reused

end Pass

namespace Project

open FileTree

variable {project : Project}

namespace Completed

variable {previous : Option Manifest} {schedule : Schedule} {tree after : FileTree} {report : RunReport}
  (completed : project.Completed previous schedule tree report after)

include completed

structure Complete : Prop where
  entry : ∀ request ∈ completed.analysis.pages, ∃ status,
    completed.made.recorder.manifest[request.path]? = some status ∧
      Staleness.ofStatus status request completed.analysis.hashes = .reusable
  valid : completed.made.recorder.manifest.isValid = true
  readable : completed.made.recorder.manifest.IsReadable

/-- A run without failed pages has entries that the next run accepts. -/
theorem complete_of_unfailed (rooted : project.Rooted tree) (unfailed : report.failed = [])
    (sized : ∀ place content, tree.find? place = some (.file content) →
      content.size + 1 < Json.lineLimit)
    (known : ∀ manifest, previous = some manifest →
      manifest.isValid = true ∧ manifest.IsReadable) : completed.Complete := by
  obtain ⟨valid, readable⟩ := completed.manifest_readable sized known
  refine ⟨fun request member => ?_, valid, readable⟩
  obtain ⟨outcome, listed, recorded⟩ := completed.recorded rooted member
  cases recorded with
  | kept status text entry loaded hashed prior decided =>
      obtain ⟨known, was, reusable⟩ := (Staleness.classify_eq_reusable_iff ..).mp decided
      rw [prior, Option.some_inj] at was
      exact ⟨status, entry, was ▸ reusable⟩
  | made body now entry loaded generated =>
      refine ⟨_, entry, (Staleness.ofStatus_eq_reusable_iff ..).mpr
        ⟨fun source inSources => ?_, fun source => Iff.rfl⟩⟩
      obtain ⟨hash, hashed⟩ := Analysis.hash_of_mem_pages completed.analyzed member inSources
      rw [Staleness.isCurrent_ofPage, decide_eq_true_iff]
      exact ⟨inSources, hash, hashed, hashed⟩
  | failed fault absent => exact absurd listed (completed.not_failed unfailed)

/-- No page that the run left behind is an orphan. -/
theorem no_orphans (agrees : project.Agrees completed.made.recorder.manifest after) :
    project.orphans after (some completed.made.recorder.manifest)
      (completed.analysis.pages.map PageRequest.path) = [] := by
  have planned : ∀ page, page ∈ completed.made.recorder.manifest →
      page ∈ completed.analysis.pages.map PageRequest.path := by
    intro page member
    obtain ⟨status, entry⟩ := Table.exists_of_mem member
    obtain ⟨request, inPages, same⟩ := completed.planned_of_entry entry
    exact List.mem_map.mpr ⟨request, inPages, same⟩
  refine List.eq_nil_iff_forall_not_mem.mpr fun page orphan => ?_
  obtain ⟨unplanned, ⟨manifest, ⟨⟩, member⟩ | listed⟩ := (project.mem_orphans_iff ..).mp orphan
  · exact unplanned (planned page member)
  · exact unplanned (planned page ((agrees.listed page).mp listed).1)

/-- The files that a run has written last would be written again as they are. -/
theorem written (apart : project.ManifestApart) :
    (completed.made.recorder.manifest.save project.manifestPath).run.run after = (.ok (), after) ∧
      ((Disk.writeAtomic project.graphPath (graphText completed.analysis
        completed.made.references).toUTF8).adapt Fault.io).run.run after = (.ok (), after) := by
  obtain ⟨-, reached, there, held⟩ := Disk.changes_of_writeAtomic completed.manifestSaved
  obtain ⟨drawn, graphReached, graphThere, graphHeld⟩ := Disk.changes_of_writeAtomic completed.graphSaved
  constructor
  · rw [Manifest.save, run_adapt, Disk.run_writeAtomic_of_held (reached.mono drawn.dirs)
      (drawn.isDir there) (drawn.file apart.graph held)]
    rfl
  · rw [run_adapt, Disk.run_writeAtomic_of_held graphReached graphThere graphHeld]
    rfl

theorem classify_again (complete : completed.Complete) {request : PageRequest}
    (member : request ∈ completed.analysis.pages) :
    Staleness.classify (some completed.made.recorder.manifest) request completed.analysis.hashes =
      .reusable := by
  obtain ⟨status, entry, reusable⟩ := complete.entry request member
  simpa [Staleness.classify, entry] using reusable

theorem kept_again (complete : completed.Complete)
    (agrees : project.Agrees completed.made.recorder.manifest after) :
    ∀ task ∈ tasks (some completed.made.recorder.manifest) completed.analysis,
      ∃ prior, task.kept? project.docs after = some prior := by
  intro task member
  obtain ⟨request, inPages, rfl⟩ := List.mem_map.mp member
  obtain ⟨status, entry, -⟩ := complete.entry request inPages
  exact ⟨status, (PageTask.kept?_eq_some_iff ..).mpr
    ⟨completed.classify_again complete inPages, entry, agrees.entries _ _ entry⟩⟩

/-- The next tasks change no file, and leave on record what was there. -/
theorem runTasks_again (complete : completed.Complete)
    (agrees : project.Agrees completed.made.recorder.manifest after) (later : Schedule) :
    ∃ made, (project.pass later).runTasks (tasks (some completed.made.recorder.manifest)
          completed.analysis) (start after completed.analysis) =
        (completed.analysis.pages.map fun request => (request.path, .reused), made) ∧
      made.tree = after ∧ made.recorder.manifest = completed.made.recorder.manifest ∧
      made.references = completed.made.references := by
  have kept := completed.kept_again complete agrees
  have distinct := completed.tasks_nodup (some completed.made.recorder.manifest)
  have ended := (project.pass later).runTasks_of_kept (start after completed.analysis) kept
  have others := (project.pass later).runTasks_entry
    (tasks (some completed.made.recorder.manifest) completed.analysis) (start after completed.analysis)
  have recalled := @Pass.runTasks_entry_of_kept (project.pass later) _ (start after completed.analysis)
    kept (fun _ _ => rfl) distinct
  have registered := (project.pass later).runTasks_references
    (tasks (some completed.made.recorder.manifest) completed.analysis) (start after completed.analysis)
  have before := (project.pass schedule).runTasks_references (tasks previous completed.analysis)
    (start tree completed.analysis)
  rw [completed.ran] at before
  cases ran : (project.pass later).runTasks (tasks (some completed.made.recorder.manifest)
      completed.analysis) (start after completed.analysis) with
  | mk outcomes made =>
      rw [ran] at ended others recalled registered
      refine ⟨made, ?_, ended.2, ?_, ?_⟩
      · rw [show outcomes = _ from ended.1]
        simp [tasks, Pass.taskFor, Function.comp_def]
      · refine Std.ExtTreeMap.ext_getElem? fun page => ?_
        -- a planned page is recorded again; any other page has no entry on either side
        by_cases planned : ∃ request ∈ completed.analysis.pages, request.path = page
        · obtain ⟨request, member, rfl⟩ := planned
          exact recalled (List.mem_map_of_mem member)
        · have absent : completed.made.recorder.manifest[page]? = none := by
            cases entry : completed.made.recorder.manifest[page]? with
            | none => rfl
            | some status => exact absurd (completed.planned_of_entry entry) planned
          rw [absent, others page]
          · exact Std.ExtTreeMap.getElem?_empty
          · intro task member same
            obtain ⟨request, inPages, rfl⟩ := List.mem_map.mp member
            exact planned ⟨request, inPages, same.symm⟩
      · rw [registered, before, tasks, tasks, Pass.registerAll_taskFor, Pass.registerAll_taskFor]
        rfl

/-- The next run keeps every page and leaves the files as they are. -/
theorem run_again (rooted : project.Rooted tree) (keys : PageKeys previous)
    (apart : project.ManifestApart) (steady : completed.Steady) (complete : completed.Complete)
    (analyzed : project.analyze after = .ok completed.analysis) (later : Schedule) :
    (project.run (some completed.made.recorder.manifest) false later).run.run after =
      (.ok (.ofOutcomes
        (Staleness.plan completed.analysis.pages (some completed.made.recorder.manifest)
          completed.analysis.hashes)
        (completed.analysis.pages.map fun request => (request.path, .reused))), after) := by
  have agrees := completed.agrees rooted steady keys.plain apart
  obtain ⟨made, ran, unchanged, manifest, references⟩ :=
    completed.runTasks_again complete agrees later
  obtain ⟨saved, drawn⟩ := completed.written apart
  have swept : project.swept (some completed.made.recorder.manifest) completed.analysis made = after := by
    rw [Project.swept, unchanged, completed.no_orphans agrees]
    rfl
  exact run_eq
    { analysis := completed.analysis
      analyzed := analyzed
      outcomes := completed.analysis.pages.map fun request : PageRequest =>
        (request.path, PageOutcome.reused)
      made := made
      ran := ran
      reported := rfl
      saved := after
      manifestSaved := by rw [swept, manifest, saved]
      graphSaved := by rw [references, drawn] }

end Completed

end Project

end SourceAtlas
