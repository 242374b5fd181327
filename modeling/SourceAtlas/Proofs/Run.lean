import SourceAtlas.Proofs.Analysis
import SourceAtlas.Proofs.Pass
/-!
Runs over a project. A run that is not called off and ends well has made its pages, swept the docs
directory, and written the manifest and the call graph, in this order; afterwards manifest and disk
agree.
-/

namespace SourceAtlas.Project

open FileTree

variable (project : Project)

def pass (schedule : Schedule) : Pass :=
  { schedule with docs := project.docs, generator := project.generator }

def tasks (previous : Option Manifest) (analysis : Analysis) : List PageTask :=
  analysis.pages.map (Pass.taskFor previous analysis.hashes)

def start (tree : FileTree) (analysis : Analysis) : PassState :=
  { tree, recorder := { hashes := analysis.hashes } }

def swept (previous : Option Manifest) (analysis : Analysis) (made : PassState) : FileTree :=
  project.removeAll made.tree
    (project.orphans made.tree previous (analysis.pages.map PageRequest.path))

/-- The stages of a run that was not called off and ended well. -/
structure Completed (previous : Option Manifest) (schedule : Schedule) (tree : FileTree)
    (report : RunReport) (after : FileTree) where
  analysis : Analysis
  analyzed : project.analyze tree = .ok analysis
  outcomes : List (String × PageOutcome)
  made : PassState
  ran : (project.pass schedule).runTasks (tasks previous analysis) (start tree analysis) =
    (outcomes, made)
  reported : report = .ofOutcomes (Staleness.plan analysis.pages previous analysis.hashes) outcomes
  saved : FileTree
  manifestSaved : (made.recorder.manifest.save project.manifestPath).run.run
    (project.swept previous analysis made) = (.ok (), saved)
  graphSaved : ((Disk.writeAtomic project.graphPath
    (graphText analysis made.references).toUTF8).adapt Fault.io).run.run saved = (.ok (), after)

theorem run_pass {previous : Option Manifest} {schedule : Schedule} {tree : FileTree} {analysis : Analysis}
    {outcomes : List (String × PageOutcome)} {made : PassState}
    (ran : (project.pass schedule).runTasks (tasks previous analysis) (start tree analysis) =
      (outcomes, made)) :
    (project.pass schedule).run analysis.pages previous false (start tree analysis) =
      (.ofOutcomes (Staleness.plan analysis.pages previous analysis.hashes) outcomes, made) := by
  unfold Pass.run
  rw [if_neg (by simp)]
  show (RunReport.ofOutcomes _ ((project.pass schedule).runTasks (tasks previous analysis)
    (start tree analysis)).1, ((project.pass schedule).runTasks (tasks previous analysis)
    (start tree analysis)).2) = _
  rw [ran]
  rfl

/-- A run that ends well has gone through its stages. -/
theorem completed_of_run {previous : Option Manifest} {schedule : Schedule} {tree after : FileTree}
    {report : RunReport} (ran : (project.run previous false schedule).run.run tree = (.ok report, after)) :
    Nonempty (project.Completed previous schedule tree report after) := by
  unfold run at ran
  rw [run_bind, run_get] at ran
  simp only at ran
  rw [run_bind] at ran
  -- each stage is followed by cases on how it ended: a fault in one of them is the run's answer
  cases analyzed : project.analyze tree with
  | error fault =>
      rw [analyzed] at ran
      cases ran
  | ok analysis =>
      rw [analyzed] at ran
      have lifted : (liftM (Except.ok analysis : Except Fault Analysis) : Work Analysis).run.run tree =
          (.ok analysis, tree) := rfl
      rw [lifted] at ran
      cases turns : (project.pass schedule).runTasks (tasks previous analysis) (start tree analysis) with
      | mk outcomes made =>
          have passed := project.run_pass turns
          simp only [pass, start] at passed
          simp only [passed, run_bind, run_set] at ran
          cases saved : (made.recorder.manifest.save project.manifestPath).run.run
              (project.swept previous analysis made) with
          | mk result middle =>
              have skipped : carrySkipped previous [] made.recorder = made.recorder := rfl
              simp only [RunReport.ofOutcomes, skipped] at ran
              unfold swept at saved
              rw [saved] at ran
              cases result with
              | error fault => cases ran
              | ok _ =>
                  simp only at ran
                  cases wrote : ((Disk.writeAtomic project.graphPath
                      (graphText analysis made.references).toUTF8).adapt Fault.io).run.run middle with
                  | mk result final =>
                      rw [wrote] at ran
                      cases result with
                      | error fault => cases ran
                      | ok _ =>
                          cases ran
                          exact ⟨⟨analysis, analyzed, outcomes, made, turns, rfl, middle, saved, wrote⟩⟩

theorem removeAll_changes (tree : FileTree) (pages : List String) :
    Changes (fun place => ∃ page ∈ pages, place = project.docs.placeOf page) tree
      (project.removeAll tree pages) := by
  induction pages generalizing tree with
  | nil => exact .refl _ tree
  | cons page rest ih =>
      have first := project.docs.remove_changes page tree
      refine (first.mono ?_).trans ((ih _).mono ?_)
      · rintro place rfl
        exact ⟨page, List.mem_cons_self .., rfl⟩
      · rintro place ⟨other, member, same⟩
        exact ⟨other, List.mem_cons_of_mem page member, same⟩

theorem held_before_removeAll (pages : List String) {tree : FileTree} {place : Place}
    {entry : FileEntry} (left : (project.removeAll tree pages).find? place = some entry) :
    tree.find? place = some entry := by
  induction pages generalizing tree with
  | nil => exact left
  | cons page rest ih => exact project.docs.held_before_remove page (ih left)

/-- A plain page is gone after it was swept, when the docs directory can be reached. -/
theorem no_file_of_removeAll {tree : FileTree} (sound : tree.Sound) {pages : List String}
    {page : String} (member : page ∈ pages) (plain : IsPlain page)
    (way : ∀ content, tree.find? (project.docs.placeOf page) = some (.file content) →
      tree.isDir project.docs.root = true) (content : ByteArray) :
    (project.removeAll tree pages).find? (project.docs.placeOf page) ≠ some (.file content) := by
  intro left
  induction pages generalizing tree with
  | nil => cases member
  | cons first rest ih =>
      have changes := project.docs.remove_changes first tree
      have kept := project.held_before_removeAll rest left
      rcases List.mem_cons.mp member with rfl | later
      · exact project.docs.no_file_of_remove sound plain way content kept
      · apply ih (changes.sound sound) later _ left
        intro other held
        exact changes.isDir (way other (project.docs.held_before_remove first held))

/-- What is taken for granted about a project and the file tree that it stands in: the tree is one
that a file system can hold, the project is no file, and the docs directory has a path. -/
structure Rooted (tree : FileTree) : Prop where
  sound : tree.Sound
  rooted : ∀ content, tree.find? project.root.place ≠ some (.file content)
  named : project.docs.root.text ≠ ""

/-- What is taken for granted when pages may fail: when something stands where the docs directory
should be, its path leads there. -/
structure Grounded (tree : FileTree) : Prop where
  sound : tree.Sound
  rooted : ∀ content, tree.find? project.root.place ≠ some (.file content)
  reached : tree.find? project.docs.root.place = some .dir → tree.isDir project.docs.root = true

/-- The manifest is kept where no page and no call graph is. -/
structure ManifestApart : Prop where
  overview : project.manifestPath.place ≠ project.docs.placeOf Page.overview
  graph : project.manifestPath.place ≠ project.graphPath.place
  filePages : ∀ names, names ≠ [] →
    project.manifestPath.place ≠ project.docs.placeOf Page.filesDir ++ names

def PlainKeys (previous : Option Manifest) : Prop :=
  ∀ manifest, previous = some manifest → ∀ page, page ∈ manifest → IsPlain page

theorem mem_orphans_iff (tree : FileTree) (previous : Option Manifest) (planned : List String)
    (page : String) :
    page ∈ project.orphans tree previous planned ↔ page ∉ planned ∧
      ((∃ manifest, previous = some manifest ∧ page ∈ manifest) ∨
        page ∈ project.docs.pagesBelow tree Page.filesDir) := by
  have known : page ∈ (previous.map Std.ExtTreeMap.keys).getD [] ↔
      ∃ manifest, previous = some manifest ∧ page ∈ manifest := by
    cases previous <;> simp
  simp only [orphans, List.mem_mergeSort, List.mem_eraseDups, List.mem_filter, List.mem_append, known,
    Bool.not_eq_true', List.contains_eq_mem, decide_eq_false_iff_not]
  exact and_comm

variable {project}

theorem Rooted.of_dir {tree : FileTree} (sound : tree.Sound)
    (there : tree.find? project.root.place = some .dir) (named : project.docs.root.text ≠ "") :
    project.Rooted tree := by
  refine ⟨sound, fun content held => ?_, named⟩
  rw [there] at held
  cases held

theorem Grounded.toRooted {tree : FileTree} (grounded : project.Grounded tree) : project.Rooted tree := by
  refine ⟨grounded.sound, grounded.rooted, fun empty => ?_⟩
  have top : project.docs.root = ⟨""⟩ := by rw [← empty]
  have there := grounded.reached (by rw [top]; exact find?_nil tree)
  rw [isDir_iff, stat_eq_dir_iff_passable] at there
  exact there.2.1 empty

/-- A file below the docs directory shows that its path leads there. -/
theorem Grounded.isDir_docs {tree : FileTree} (grounded : project.Grounded tree) {page : String}
    (plain : IsPlain page) {content : ByteArray}
    (held : tree.find? (project.docs.placeOf page) = some (.file content)) :
    tree.isDir project.docs.root = true :=
  grounded.reached (grounded.sound.above plain.names_ne_nil held)

theorem graph_isPlain : IsPlain "call_graph.json" := ⟨["call_graph.json"], by simp, by decide, rfl⟩

theorem place_graphPath : project.graphPath.place = project.docs.placeOf "call_graph.json" :=
  project.docs.place_of_locate (project.docs.locate_of_plain graph_isPlain)

/-- A manifest with a name of its own beside the pages is kept apart from them. -/
theorem manifestApart_of_name (name : String) (ordinary : IsName name)
    (file : project.config.generation.manifestFile = ⟨name⟩) (offOverview : name ≠ Page.overview)
    (offGraph : name ≠ "call_graph.json") (offFiles : Page.filesDir ≠ name) :
    project.ManifestApart := by
  have plain : IsPlain name := ⟨[name], by simp, by simpa using ordinary, by simp⟩
  have placed : project.manifestPath.place = project.docs.placeOf name := by
    rw [manifestPath, Config.manifestPath, file, Path.place_join_join plain.isAbsolute]
    exact project.docs.place_of_locate (project.docs.locate_of_plain plain)
  refine ⟨fun same => offOverview ?_, fun same => offGraph ?_, fun names filled same => ?_⟩
  · exact project.docs.placeOf_inj plain Page.overview_isPlain (placed ▸ same)
  · rw [placed, place_graphPath] at same
    exact project.docs.placeOf_inj plain graph_isPlain same
  · rw [placed] at same
    exact project.docs.placeOf_append_ne names (by decide) ordinary offFiles same.symm

theorem placeOf_ofSource {path : String} (plain : IsPlain path) :
    ∃ rest, rest ≠ [] ∧ project.docs.placeOf (Page.ofSource path) =
      project.docs.placeOf Page.filesDir ++ rest := by
  obtain ⟨rest, filled, names⟩ := Page.exists_names_ofSource plain
  exact ⟨rest, filled, by rw [Docs.placeOf, names, ← List.append_assoc]; rfl⟩

theorem run_generate (project : Project) (force cancelled : Bool) (schedule : Schedule) (before : FileTree) :
    (project.generate force cancelled schedule).run.run before =
      (project.run (if force then none else project.previous before) cancelled schedule).run.run before := by
  unfold generate
  rw [run_bind, run_get]

theorem run_of_generate {force cancelled : Bool} {schedule : Schedule} {before after : FileTree}
    {report : RunReport}
    (ran : (project.generate force cancelled schedule).run.run before = (.ok report, after)) :
    (project.run (if force then none else project.previous before) cancelled schedule).run.run before =
      (.ok report, after) :=
  (project.run_generate force cancelled schedule before).symm.trans ran

theorem run_sync (project : Project) (failOnChanges cancelled : Bool) (schedule : Schedule)
    (before : FileTree) : (project.sync false failOnChanges cancelled schedule).run.run before =
      match (project.run (project.previous before) cancelled schedule).run.run before with
      | (.ok report, after) =>
          if failOnChanges && 0 < report.staleCount then (.error (.stalePages report.staleCount), after)
          else (.ok report, after)
      | (.error fault, after) => (.error fault, after) := by
  unfold sync
  rw [run_bind, run_get]
  simp only [Bool.false_eq_true, if_false]
  rw [run_bind]
  cases (project.run (project.previous before) cancelled schedule).run.run before with
  | mk result after =>
      cases result with
      | error fault => rfl
      | ok report =>
          simp only
          split <;> rfl

theorem run_of_sync {failOnChanges cancelled : Bool} {schedule : Schedule} {before after : FileTree}
    {report : RunReport}
    (ran : (project.sync false failOnChanges cancelled schedule).run.run before = (.ok report, after)) :
    (project.run (project.previous before) cancelled schedule).run.run before = (.ok report, after) := by
  rw [run_sync] at ran
  split at ran
  · next made left same =>
      split at ran
      · cases ran
      · rw [same, ran]
  · cases ran

namespace Completed

variable {previous : Option Manifest} {schedule : Schedule} {tree after : FileTree} {report : RunReport}
  (completed : project.Completed previous schedule tree report after)

include completed

/-- A run that can go through its stages ends well. -/
theorem run_eq : (project.run previous false schedule).run.run tree = (.ok report, after) := by
  obtain ⟨analysis, analyzed, outcomes, made, ran, rfl, middle, saved, drawn⟩ := completed
  have lifted : (liftM (project.analyze tree) : Work Analysis).run.run tree = (.ok analysis, tree) := by
    rw [analyzed]
    rfl
  have passed := project.run_pass ran
  have skipped : carrySkipped previous [] made.recorder = made.recorder := rfl
  unfold run
  rw [run_bind, run_get]
  simp only
  rw [run_bind, lifted]
  simp only [pass, start, swept] at passed saved ⊢
  simp only [passed, run_bind, run_set, RunReport.ofOutcomes, skipped, saved, drawn]
  rfl

theorem plain (rooted : project.Rooted tree) {request : PageRequest}
    (member : request ∈ completed.analysis.pages) : IsPlain request.path :=
  Analysis.isPlain_of_mem_pages rooted.sound rooted.rooted completed.analyzed member

theorem plain_task (rooted : project.Rooted tree) (recalled : Option Manifest) :
    ∀ task ∈ tasks recalled completed.analysis, IsPlain task.request.path := by
  intro task member
  obtain ⟨request, inPages, rfl⟩ := List.mem_map.mp member
  exact completed.plain rooted inPages

theorem tasks_nodup (recalled : Option Manifest) :
    ((tasks recalled completed.analysis).map fun task => task.request.path).Nodup := by
  have paths : (tasks recalled completed.analysis).map (fun task => task.request.path) =
      completed.analysis.pages.map PageRequest.path := by
    simp [tasks, Pass.taskFor, Function.comp_def]
  rw [paths]
  exact Analysis.pages_nodup completed.analyzed

/-- The tasks touch the places of planned pages alone. -/
theorem made_changes : Changes (fun place => ∃ request ∈ completed.analysis.pages,
    place = project.docs.placeOf request.path) tree completed.made.tree := by
  have changes := (project.pass schedule).runTasks_changes (tasks previous completed.analysis)
    (start tree completed.analysis)
  rw [completed.ran] at changes
  refine changes.mono ?_
  rintro place ⟨task, member, same⟩
  obtain ⟨request, inPages, rfl⟩ := List.mem_map.mp member
  exact ⟨request, inPages, same⟩

/-- How a planned page came out, with what is then on record about it. -/
inductive Recorded (request : PageRequest) : PageOutcome → Prop
  | kept (status : PageStatus) (text : String)
      (entry : completed.made.recorder.manifest[request.path]? = some status)
      (loaded : project.docs.load completed.made.tree request.path = .ok text)
      (hashed : Fingerprint.ofText text = status.contentHash)
      (prior : (previous.bind fun manifest => manifest[request.path]?) = some status)
      (decided : Staleness.classify previous request completed.analysis.hashes = .reusable) :
      Recorded request .reused
  | made (body : String) (now : Timestamp)
      (entry : completed.made.recorder.manifest[request.path]? =
        some (.ofPage completed.analysis.hashes now request.sources request.lines body))
      (loaded : project.docs.load completed.made.tree request.path = .ok body)
      (generated : project.generator request = .ok body) : Recorded request .regenerated
  | failed (fault : Fault) (absent : completed.made.recorder.manifest[request.path]? = none) :
      Recorded request (.failed fault)

theorem recorded (rooted : project.Rooted tree) {request : PageRequest}
    (member : request ∈ completed.analysis.pages) :
    ∃ outcome, (request.path, outcome) ∈ completed.outcomes ∧ completed.Recorded request outcome := by
  have turns := (project.pass schedule).runTasks_recorded (start tree completed.analysis)
    (completed.tasks_nodup previous) (List.mem_map_of_mem member) (completed.plain_task rooted previous) rfl
  rw [completed.ran] at turns
  obtain ⟨outcome, listed, result⟩ := turns
  refine ⟨outcome, listed, ?_⟩
  change TaskResult _ _ _ _ outcome completed.made.recorder.manifest[request.path]? at result
  generalize entry : completed.made.recorder.manifest[request.path]? = status at result
  cases result with
  | kept prior text decided was loaded hashed => exact .kept prior text entry loaded hashed was decided
  | made body now generated loaded => exact .made body now entry loaded generated
  | failed fault => exact .failed fault entry

theorem outcomes_pages :
    completed.outcomes.map Prod.fst = completed.analysis.pages.map PageRequest.path := by
  have pages := (project.pass schedule).runTasks_pages (tasks previous completed.analysis)
    (start tree completed.analysis)
  rw [completed.ran] at pages
  rw [pages]
  simp [tasks, Pass.taskFor, Function.comp_def]

theorem request_of_outcome {page : String} {outcome : PageOutcome}
    (listed : (page, outcome) ∈ completed.outcomes) :
    ∃ request ∈ completed.analysis.pages, request.path = page := by
  have inPages : page ∈ completed.outcomes.map Prod.fst := List.mem_map.mpr ⟨_, listed, rfl⟩
  rw [completed.outcomes_pages] at inPages
  exact List.mem_map.mp inPages

theorem outcome_eq {page : String} {left right : PageOutcome}
    (inLeft : (page, left) ∈ completed.outcomes) (inRight : (page, right) ∈ completed.outcomes) :
    left = right := by
  have distinct : (completed.outcomes.map Prod.fst).Nodup := by
    rw [completed.outcomes_pages]
    exact Analysis.pages_nodup completed.analyzed
  exact congrArg Prod.snd (Table.eq_of_key_eq distinct inLeft inRight rfl)

theorem mem_regenerated_iff (page : String) :
    page ∈ report.regenerated ↔ (page, PageOutcome.regenerated) ∈ completed.outcomes := by
  have told := congrArg RunReport.regenerated completed.reported
  rw [told]
  exact RunReport.mem_pagesWith_iff ..

theorem mem_reused_iff (page : String) :
    page ∈ report.reused ↔ (page, PageOutcome.reused) ∈ completed.outcomes := by
  have told := congrArg RunReport.reused completed.reported
  rw [told]
  exact RunReport.mem_pagesWith_iff ..

theorem mem_failed_iff (page message : String) :
    (page, message) ∈ report.failed ↔
      ∃ fault, (page, PageOutcome.failed fault) ∈ completed.outcomes ∧ fault.message = message := by
  have told := congrArg RunReport.failed completed.reported
  rw [told]
  exact RunReport.mem_failures_iff ..

/-- How a planned page came out, with the entry that it then has. -/
inductive Entered (request : PageRequest) : PageOutcome → Option PageStatus → Prop
  | kept (status : PageStatus)
      (prior : (previous.bind fun manifest => manifest[request.path]?) = some status)
      (decided : Staleness.classify previous request completed.analysis.hashes = .reusable) :
      Entered request .reused (some status)
  | made (body : String) (now : Timestamp) (generated : project.generator request = .ok body) :
      Entered request .regenerated
        (some (.ofPage completed.analysis.hashes now request.sources request.lines body))
  | failed (fault : Fault) : Entered request (.failed fault) none

theorem entered {request : PageRequest} (member : request ∈ completed.analysis.pages) :
    ∃ outcome, (request.path, outcome) ∈ completed.outcomes ∧
      completed.Entered request outcome completed.made.recorder.manifest[request.path]? := by
  have turns := (project.pass schedule).runTasks_entered (start tree completed.analysis)
    (completed.tasks_nodup previous) (List.mem_map_of_mem member) rfl
  rw [completed.ran] at turns
  obtain ⟨outcome, listed, result⟩ := turns
  refine ⟨outcome, listed, ?_⟩
  change TaskResult _ _ _ _ outcome completed.made.recorder.manifest[request.path]? at result
  generalize completed.made.recorder.manifest[request.path]? = status at result ⊢
  cases result with
  | kept prior text decided was stood hashed => exact .kept prior was decided
  | made body now generated stood => exact .made body now generated
  | failed fault => exact .failed fault

theorem not_failed (unfailed : report.failed = []) {page : String} {fault : Fault} :
    (page, PageOutcome.failed fault) ∉ completed.outcomes := by
  intro listed
  rw [completed.reported] at unfailed
  have none := congrArg List.length unfailed
  simp only [RunReport.ofOutcomes, RunReport.failures, List.length_mergeSort, List.length_nil,
    List.length_eq_zero_iff, List.filterMap_eq_nil_iff] at none
  exact Option.some_ne_none _ (none _ listed)

/-- After the tasks every planned page is in step with its entry, and the docs directory can be
reached if a page is in it that is not planned. -/
structure Steady : Prop where
  settled : ∀ request ∈ completed.analysis.pages, completed.made.Settled project.docs request.path
  way : ∀ page content, IsPlain page → (∀ request ∈ completed.analysis.pages, request.path ≠ page) →
    completed.made.tree.find? (project.docs.placeOf page) = some (.file content) →
      completed.made.tree.isDir project.docs.root = true

/-- A file that is no planned page is older than the tasks. -/
theorem older_of_unplanned (rooted : project.Rooted tree) {page : String} (plain : IsPlain page)
    (unplanned : ∀ request ∈ completed.analysis.pages, request.path ≠ page) {content : ByteArray}
    (held : completed.made.tree.find? (project.docs.placeOf page) = some (.file content)) :
    tree.find? (project.docs.placeOf page) = some (.file content) := by
  refine completed.made_changes.file_before ?_ held
  rintro ⟨request, member, same⟩
  exact unplanned request member
    (project.docs.placeOf_inj plain (completed.plain rooted member) same).symm

theorem steady_of_grounded (grounded : project.Grounded tree) : completed.Steady := by
  have rooted := grounded.toRooted
  refine ⟨fun request member => ?_, fun page content plain unplanned held => ?_⟩
  · have settled := (project.pass schedule).runTasks_settled (start tree completed.analysis)
      (completed.tasks_nodup previous) (List.mem_map_of_mem member) (completed.plain_task rooted previous)
      grounded.sound rfl fun content held => grounded.isDir_docs (completed.plain rooted member) held
    rw [completed.ran] at settled
    exact settled
  · exact completed.made_changes.isDir
      (grounded.isDir_docs plain (completed.older_of_unplanned rooted plain unplanned held))

/-- When no page fails, each of them shows the way to the docs directory. -/
theorem steady_of_unfailed (rooted : project.Rooted tree) (unfailed : report.failed = []) :
    completed.Steady := by
  have present : ∀ request ∈ completed.analysis.pages, ∃ status text,
      completed.made.recorder.manifest[request.path]? = some status ∧
        project.docs.load completed.made.tree request.path = .ok text ∧
        Fingerprint.ofText text = status.contentHash := by
    intro request member
    obtain ⟨outcome, listed, recorded⟩ := completed.recorded rooted member
    cases recorded with
    | kept status text entry loaded hashed prior decided => exact ⟨status, text, entry, loaded, hashed⟩
    | made body now entry loaded generated => exact ⟨_, body, entry, loaded, rfl⟩
    | failed fault absent => exact absurd listed (completed.not_failed unfailed)
  refine ⟨fun request member => ?_, fun page content plain unplanned held => ?_⟩
  · obtain ⟨status, text, entry, loaded, hashed⟩ := present request member
    unfold PassState.Settled
    rw [entry]
    exact ⟨text, loaded, hashed⟩
  · obtain ⟨request, member⟩ := Analysis.exists_mem_pages completed.analyzed
    obtain ⟨status, text, -, loaded, -⟩ := present request member
    exact project.docs.isDir_root_of_load rooted.named (completed.plain rooted member) loaded

theorem planned_of_entry {page : String} {status : PageStatus}
    (entry : completed.made.recorder.manifest[page]? = some status) :
    ∃ request ∈ completed.analysis.pages, request.path = page := by
  apply Classical.byContradiction
  intro absent
  have same := (project.pass schedule).runTasks_entry (tasks previous completed.analysis)
    (start tree completed.analysis) page (by
      intro task member other
      obtain ⟨request, inPages, rfl⟩ := List.mem_map.mp member
      exact absent ⟨request, inPages, other.symm⟩)
  rw [completed.ran, entry] at same
  cases same

/-- The sweep and what follows it touch the places of orphans, of the manifest and of the graph. -/
theorem after_changes : Changes (fun place =>
    (∃ page ∈ project.orphans completed.made.tree previous
      (completed.analysis.pages.map PageRequest.path), place = project.docs.placeOf page) ∨
    place = project.manifestPath.place ∨ place = project.graphPath.place)
    completed.made.tree after := by
  have swept := project.removeAll_changes completed.made.tree
    (project.orphans completed.made.tree previous (completed.analysis.pages.map PageRequest.path))
  obtain ⟨saved, -⟩ := Disk.changes_of_writeAtomic completed.manifestSaved
  obtain ⟨drawn, -⟩ := Disk.changes_of_writeAtomic completed.graphSaved
  refine (swept.mono ?_).trans ((saved.mono ?_).trans (drawn.mono ?_))
  · exact fun place orphan => Or.inl orphan
  · exact fun place same => Or.inr (Or.inl same)
  · exact fun place same => Or.inr (Or.inr same)

theorem plain_orphan (rooted : project.Rooted tree) (keys : PlainKeys previous) {page : String}
    (orphan : page ∈ project.orphans completed.made.tree previous
      (completed.analysis.pages.map PageRequest.path)) : IsPlain page := by
  obtain ⟨-, ⟨manifest, same, member⟩ | listed⟩ := (project.mem_orphans_iff ..).mp orphan
  · exact keys manifest same page member
  · obtain ⟨-, names, content, filled, rfl, held, -⟩ :=
      (project.docs.mem_pagesBelow_iff Page.filesDir_isPlain page).mp listed
    exact (project.docs.below_of_held (completed.made_changes.sound rooted.sound) filled held).1

/-- A planned page stands where the overview does or below the directory of file pages. -/
theorem place_cases (rooted : project.Rooted tree) {request : PageRequest}
    (member : request ∈ completed.analysis.pages) :
    project.docs.placeOf request.path = project.docs.placeOf Page.overview ∨
      ∃ rest, rest ≠ [] ∧
        project.docs.placeOf request.path = project.docs.placeOf Page.filesDir ++ rest := by
  rcases Analysis.page_cases completed.analyzed member with overview | ⟨source, inSources, ofSource⟩
  · exact Or.inl (by rw [overview])
  · rw [ofSource]
    exact Or.inr (placeOf_ofSource (Analysis.isPlain_of_mem_sources rooted.sound rooted.rooted
      completed.analyzed inSources))

/-- Nothing after the tasks touches the place of a planned page. -/
theorem planned_spared (rooted : project.Rooted tree) (keys : PlainKeys previous)
    (apart : project.ManifestApart) {request : PageRequest}
    (member : request ∈ completed.analysis.pages) :
    ¬ ((∃ page ∈ project.orphans completed.made.tree previous
        (completed.analysis.pages.map PageRequest.path),
        project.docs.placeOf request.path = project.docs.placeOf page) ∨
      project.docs.placeOf request.path = project.manifestPath.place ∨
      project.docs.placeOf request.path = project.graphPath.place) := by
  have plain := completed.plain rooted member
  rintro (⟨page, orphan, same⟩ | same | same)
  · have other := project.docs.placeOf_inj plain (completed.plain_orphan rooted keys orphan) same
    have planned : page ∈ completed.analysis.pages.map PageRequest.path :=
      other ▸ List.mem_map_of_mem member
    exact ((project.mem_orphans_iff ..).mp orphan).1 planned
  · rcases completed.place_cases rooted member with overview | ⟨rest, filled, below⟩
    · exact apart.overview (overview ▸ same.symm)
    · exact apart.filePages rest filled (below ▸ same.symm)
  · rw [place_graphPath] at same
    rcases completed.place_cases rooted member with overview | ⟨rest, filled, below⟩
    · rw [overview] at same
      exact absurd (List.append_cancel_left same) (by decide)
    · rw [below] at same
      exact project.docs.placeOf_append_ne rest (by decide) (by decide) (by decide) same

/-- A planned page is loaded after the run as after the tasks. -/
theorem load_after (rooted : project.Rooted tree) (keys : PlainKeys previous)
    (apart : project.ManifestApart) {request : PageRequest}
    (member : request ∈ completed.analysis.pages) {text : String}
    (loaded : project.docs.load completed.made.tree request.path = .ok text) :
    project.docs.load after request.path = .ok text :=
  project.docs.load_of_changes completed.after_changes
    (completed.planned_spared rooted keys apart member) loaded

theorem load_of_entry (rooted : project.Rooted tree) (steady : completed.Steady) (keys : PlainKeys previous)
    (apart : project.ManifestApart) {page : String} {status : PageStatus}
    (entry : completed.made.recorder.manifest[page]? = some status) :
    ∃ text, project.docs.load after page = .ok text ∧ Fingerprint.ofText text = status.contentHash := by
  obtain ⟨request, member, rfl⟩ := completed.planned_of_entry entry
  have settled := steady.settled request member
  unfold PassState.Settled at settled
  rw [entry] at settled
  obtain ⟨text, loaded, hashed⟩ := settled
  exact ⟨text, completed.load_after rooted keys apart member loaded, hashed⟩

theorem manifest_saved (offGraph : project.manifestPath.place ≠ project.graphPath.place) :
    after.readText project.manifestPath = .ok completed.made.recorder.manifest.toText := by
  obtain ⟨-, reached, -, held⟩ := Disk.changes_of_writeAtomic completed.manifestSaved
  obtain ⟨drawn, -⟩ := Disk.changes_of_writeAtomic completed.graphSaved
  rw [readText_eq_ok_iff]
  exact ⟨reached.mono drawn.dirs, drawn.file offGraph held⟩

end Completed

end SourceAtlas.Project
