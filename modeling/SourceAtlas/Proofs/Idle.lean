import SourceAtlas.Proofs.SecondPass
/-!
Passes that find no changes. After a run without failed pages `sync` has nothing to do, as long as the
run has left alone what the sources depend on.
-/

namespace SourceAtlas.Project

open FileTree

variable {project : Project} {schedule : Schedule}

/-- A pass that fails on changes finds none: it decides that every planned page can be reused, reuses
them all, and leaves every file as it is. -/
def Idle (project : Project) (schedule : Schedule) (tree : FileTree) : Prop :=
  ∃ analysis report, project.analyze tree = .ok analysis ∧
    (project.sync false true false schedule).run.run tree = (.ok report, tree) ∧
    (∀ request ∈ analysis.pages, report.decisions[request.path]? = some .reusable) ∧
    report.reused = (analysis.pages.map PageRequest.path).mergeSort (· ≤ ·) ∧
    report.regenerated = [] ∧ report.failed = [] ∧ report.skipped = []

/-- A run that was not called off has ended well: one with force, or one by the manifest that was
found, which has pages such as runs plan if there was any. -/
inductive Ended (project : Project) (schedule : Schedule) (before : FileTree) (report : RunReport)
    (after : FileTree) : Prop
  | forced (ran : (project.generate true false schedule).run.run before = (.ok report, after))
  | generated (keys : PageKeys (project.previous before))
      (ran : (project.generate false false schedule).run.run before = (.ok report, after))
  | synced (failOnChanges : Bool) (keys : PageKeys (project.previous before))
      (ran : (project.sync false failOnChanges false schedule).run.run before = (.ok report, after))

theorem Ended.run {before after : FileTree} {report : RunReport}
    (ended : project.Ended schedule before report after) :
    ∃ previous, (previous = none ∨ previous = project.previous before) ∧ PageKeys previous ∧
      (project.run previous false schedule).run.run before = (.ok report, after) := by
  cases ended with
  | forced ran =>
      have plain := run_of_generate ran
      rw [if_pos rfl] at plain
      exact ⟨none, Or.inl rfl, nofun, plain⟩
  | generated keys ran =>
      have plain := run_of_generate ran
      rw [if_neg Bool.false_ne_true] at plain
      exact ⟨_, Or.inr rfl, keys, plain⟩
  | synced failOnChanges keys ran =>
      exact ⟨_, Or.inr rfl, keys, run_of_sync ran⟩

/-- After a run without failed pages the next pass finds nothing to do. -/
theorem sync_again (project : Project) {tree after : FileTree} {report : RunReport}
    (rooted : project.Rooted tree)
    (sized : ∀ place content, tree.find? place = some (.file content) →
      content.size + 1 < Json.lineLimit)
    (apart : project.ManifestApart) (unread : project.ManifestUnread)
    (ended : project.Ended schedule tree report after) (unfailed : report.failed = [])
    (bystander : project.Bystander tree after) (later : Schedule) : project.Idle later after := by
  obtain ⟨previous, origin, keys, ran⟩ := ended.run
  obtain ⟨completed⟩ := project.completed_of_run ran
  have known : ∀ manifest, previous = some manifest →
      manifest.isValid = true ∧ manifest.IsReadable := by
    rintro manifest rfl
    rcases origin with none | loaded
    · cases none
    · unfold Project.previous Manifest.load? at loaded
      split at loaded
      · exact Manifest.isValid_of_ofText? loaded.symm
      · cases loaded
  have steady := completed.steady_of_unfailed rooted unfailed
  have complete := completed.complete_of_unfailed rooted unfailed sized known
  have analyzed := completed.analyze_again rooted keys apart unread bystander
  have again := completed.run_again rooted keys apart steady complete analyzed later
  obtain ⟨decided, stale⟩ := Staleness.plan_getElem? fun request member =>
    completed.classify_again complete member
  obtain ⟨reused, regenerated, failed⟩ := RunReport.ofOutcomes_of_reused
    (Staleness.plan completed.analysis.pages (some completed.made.recorder.manifest)
      completed.analysis.hashes) completed.analysis.pages
  refine ⟨completed.analysis, _, analyzed, ?_, decided, reused, regenerated, failed, rfl⟩
  rw [run_sync, completed.previous_after complete.valid complete.readable apart.graph, again]
  simp only [RunReport.staleCount, RunReport.ofOutcomes, stale]
  rfl

/-- What is to be evaluated of a run with force that ends well without failed pages. -/
theorem forced_run (project : Project) (schedule : Schedule) {tree : FileTree} (sound : tree.Sound)
    (rooted : tree.find? project.root.place = some .dir) (named : project.docs.root.text ≠ "")
    (unclaimed : ∀ extension, placeSuffix? project.manifestPath.place = some extension →
      ∀ language : Language, extension ∉ language.extensions)
    (unfailed : ((project.generate true false schedule).run.run tree).1.toOption.map RunReport.failed =
      some []) :
    project.Rooted tree ∧ ∃ report,
      (project.generate true false schedule).run.run tree =
        (.ok report, ((project.generate true false schedule).run.run tree).2) ∧
      report.failed = [] ∧ ¬ project.HasSource tree project.manifestPath.place ∧
      ¬ project.HasSource ((project.generate true false schedule).run.run tree).2
        project.manifestPath.place := by
  have standing : project.Rooted tree := .of_dir sound rooted named
  cases ran : (project.generate true false schedule).run.run tree with
  | mk result after =>
      rw [ran] at unfailed
      cases result with
      | error fault => cases unfailed
      | ok report =>
          obtain ⟨completed⟩ := project.completed_of_run (run_of_generate ran)
          have soundAfter := (completed.changes standing nofun).sound sound
          exact ⟨standing, report, rfl, Option.some.inj unfailed,
            SourceIndex.not_isSource sound unclaimed, SourceIndex.not_isSource soundAfter unclaimed⟩

/-- The project in `/r` whose sources have one function each. -/
def single : Project := { bare ⟨"docs"⟩ (fun _ => .ok "page") with parser := fun _ _ => oneFunction }

theorem singleTree_sound : singleTree.Sound := by
  have root := Sound.empty.insert [] "r" .dir (find?_nil _) (by decide)
    fun _ => rfl
  have src := root.insert ["r"] "src" .dir (by decide) (by decide)
    fun _ => rfl
  exact src.insert ["r", "src"] "a.py" _ (by decide) (by decide)
    fun found => absurd found (by decide)

theorem forced_single : ∃ report after,
    (single.generate true false newYear).run.run singleTree = (.ok report, after) ∧
      report.failed = [] ∧ single.Rooted singleTree ∧ single.ManifestApart ∧ single.ManifestUnread ∧
      (∀ place content, singleTree.find? place = some (.file content) →
        content.size + 1 < Json.lineLimit) ∧ single.Bystander singleTree after := by
  have suffix : placeSuffix? single.manifestPath.place = some "json" := by decide +kernel
  obtain ⟨rooted, report, ran, unfailed, before, after⟩ := forced_run single newYear
    singleTree_sound (by decide +kernel) (by decide)
    (unclaimed_of_written (Or.inr suffix)) (by decide +kernel)
  refine ⟨report, _, ran, unfailed, rooted,
    manifestApart_of_name ".docwright-manifest.json" (by decide) rfl (by decide) (by decide)
      (by decide),
    manifestUnread_of_suffix suffix, sized_of_entries (by decide +kernel), before, after, ?_, ?_⟩
  · intro dir top
    obtain ⟨entry, held⟩ := Option.isSome_iff_exists.mp top
    have other := forall_of_entries (fun place _ => place.getLast? != some ".git")
      (by decide +kernel) (by simp) held
    simp at other
  · intro dir member missing
    rw [List.mem_singleton.mp member] at missing
    exact absurd missing (by decide +kernel)

theorem sync_again_singleTree : ∃ report after,
    (single.generate true false newYear).run.run singleTree = (.ok report, after) ∧
      report.failed = [] ∧ single.Idle newYear after := by
  obtain ⟨report, after, ran, unfailed, rooted, apart, unread, sized, bystander⟩ := forced_single
  exact ⟨report, after, ran, unfailed,
    sync_again single rooted sized apart unread (.forced ran) unfailed bystander newYear⟩

/-- The next pass finds changes, although a run with force has just ended well, no page failed, and
the manifest is kept apart from pages, call graph and sources. -/
def Restless (project : Project) (cancelled : Bool) (tree : FileTree) : Prop :=
  project.Rooted tree ∧ project.ManifestApart ∧ ∃ report after,
    (project.generate true cancelled newYear).run.run tree = (.ok report, after) ∧
    report.failed = [] ∧ ¬ project.HasSource tree project.manifestPath.place ∧
    ¬ project.HasSource after project.manifestPath.place ∧ ¬ project.Idle newYear after

theorem not_idle_of_analyze {tree : FileTree}
    (lost : (project.analyze tree).isOk = false) : ¬ project.Idle schedule tree := by
  rintro ⟨analysis, report, analyzed, -⟩
  rw [analyzed] at lost
  cases lost

theorem not_idle_of_sync {tree : FileTree}
    (failed : ((project.sync false true false schedule).run.run tree).1.isOk = false) :
    ¬ project.Idle schedule tree := by
  rintro ⟨analysis, report, -, ran, -⟩
  rw [ran] at failed
  cases failed

/-- The project whose docs directory is its source directory, with a pattern that is none. -/
def selfMade : Project :=
  { bare ⟨"docs"⟩ (fun _ => .ok "page") with
    config := { project := { docsDir := ⟨"docs"⟩, sourceDirs := [⟨"docs"⟩], ignorePatterns := ["["] } } }

/-- The project whose docs directory makes `/r` a repository. -/
def hidden : Project := bare ⟨".git/docs"⟩ fun _ => .ok "page"

/-- The project whose manifest is the ignore file of `/r`. -/
def selfIgnored : Project :=
  { bare ⟨"docs"⟩ (fun _ => .ok "page") with
    config := { project := { docsDir := ⟨"docs"⟩ }, generation := { manifestFile := ⟨"/r/.ignore"⟩ } } }

def plainTree : FileTree := (({} : FileTree).insert ["r"] .dir).insert ["r", "src"] .dir

theorem plainTree_sound : plainTree.Sound := by
  have root := Sound.empty.insert [] "r" .dir (find?_nil _) (by decide)
    fun _ => rfl
  exact root.insert ["r"] "src" .dir (by decide) (by decide) fun _ => rfl

/-- The directory `/r` with a source that it ignores once it is a repository. -/
def ignoredTree : FileTree :=
  (plainTree.insert ["r", ".gitignore"] (.file "a.py".toUTF8)).insert ["r", "src", "a.py"]
    (.file "".toUTF8)

theorem ignoredTree_sound : ignoredTree.Sound := by
  have ignored := plainTree_sound.insert ["r"] ".gitignore"
    (.file "a.py".toUTF8) (by decide) (by decide) fun found => absurd found (by decide)
  exact ignored.insert ["r", "src"] "a.py" _ (by decide) (by decide)
    fun found => absurd found (by decide)

theorem restless_selfMade : selfMade.Restless false plainTree := by
  have suffix : placeSuffix? selfMade.manifestPath.place = some "json" := by decide +kernel
  obtain ⟨rooted, report, ran, unfailed, before, after⟩ := forced_run selfMade newYear
    plainTree_sound (by decide +kernel) (by decide)
    (unclaimed_of_written (Or.inr suffix)) (by decide +kernel)
  exact ⟨rooted, manifestApart_of_name ".docwright-manifest.json" (by decide) rfl (by decide)
    (by decide) (by decide), report, _, ran, unfailed, before, after,
    not_idle_of_analyze (by decide +kernel)⟩

theorem restless_selfIgnored : selfIgnored.Restless false plainTree := by
  have kept : selfIgnored.manifestPath.place = ["r", ".ignore"] := by decide +kernel
  have suffix : placeSuffix? selfIgnored.manifestPath.place = none := by decide +kernel
  obtain ⟨rooted, report, ran, unfailed, before, after⟩ := forced_run selfIgnored newYear
    plainTree_sound (by decide +kernel) (by decide)
    (fun extension some => by rw [suffix] at some; cases some) (by decide +kernel)
  refine ⟨rooted, ⟨?_, ?_, fun names filled => ?_⟩, report, _, ran, unfailed, before, after,
    not_idle_of_analyze (by decide +kernel)⟩
  · rw [kept]
    decide +kernel
  · rw [kept]
    decide +kernel
  · rw [kept, show selfIgnored.docs.placeOf Page.filesDir = ["r", "docs", "files"] by decide +kernel]
    simp

/-- The pass after a run by no manifest is idle only if its pages depend on the same sources. -/
theorem Idle.same_sources {tree after : FileTree} {report : RunReport} (rooted : project.Rooted tree)
    (sized : ∀ place content, tree.find? place = some (.file content) →
      content.size + 1 < Json.lineLimit)
    (apart : project.ManifestApart)
    (ran : (project.generate true false schedule).run.run tree = (.ok report, after))
    (unfailed : report.failed = []) {later : Schedule} (idle : project.Idle later after)
    {analysis : Analysis} (analyzed : project.analyze tree = .ok analysis) {request : PageRequest}
    (member : request ∈ analysis.pages) {again : Analysis} (reanalyzed : project.analyze after = .ok again)
    {other : PageRequest} (alsoMember : other ∈ again.pages) (same : other.path = request.path) :
    ∀ source, source ∈ other.sources ↔ source ∈ request.sources := by
  obtain ⟨completed⟩ := project.completed_of_run (run_of_generate ran)
  have complete := completed.complete_of_unfailed rooted unfailed sized nofun
  have first : completed.analysis = analysis := Except.ok.inj (completed.analyzed.symm.trans analyzed)
  obtain ⟨third, second, analyzedAgain, synced, decided, -⟩ := idle
  have agree : third = again := Except.ok.inj (analyzedAgain.symm.trans reanalyzed)
  rw [run_sync, completed.previous_after complete.valid complete.readable apart.graph] at synced
  split at synced
  · next report_ after_ ranAgain =>
      split at synced
      · cases synced
      · cases synced
        obtain ⟨next⟩ := project.completed_of_run ranAgain
        have decision := decided other (agree ▸ alsoMember)
        rw [next.reported] at decision
        obtain ⟨asked, inNext, path, reusable⟩ := Staleness.exists_of_plan decision
        have nextAgain : next.analysis = again := Except.ok.inj (next.analyzed.symm.trans reanalyzed)
        rw [nextAgain] at inNext reusable
        rw [Table.eq_of_key_eq (Analysis.pages_nodup reanalyzed) inNext alsoMember path] at reusable
        rw [← first] at member
        obtain ⟨outcome, listed, recorded⟩ := completed.recorded rooted member
        cases recorded with
        | kept status text entry loaded hashed prior decided => cases prior
        | made body now entry loaded generated =>
            rw [Staleness.classify, same, entry] at reusable
            exact ((Staleness.ofStatus_eq_reusable_iff ..).mp reusable).2
        | failed fault => exact absurd listed (completed.not_failed unfailed)
  · cases synced

theorem overview_of_evaluated (project : Project) (tree : FileTree) (sources : List String)
    (evaluated : (project.analyze tree).toOption.map (fun analysis =>
      analysis.pages.map fun request => (request.path, request.sources)) =
        some [(Page.overview, sources)]) :
    ∃ analysis, project.analyze tree = .ok analysis ∧ ∃ request ∈ analysis.pages,
      request.path = Page.overview ∧ request.sources = sources := by
  cases analyzed : project.analyze tree with
  | error fault =>
      rw [analyzed] at evaluated
      cases evaluated
  | ok analysis =>
      rw [analyzed] at evaluated
      have pages : analysis.pages.map (fun request => (request.path, request.sources)) =
          [(Page.overview, sources)] := Option.some.inj evaluated
      obtain ⟨request, member, same⟩ := List.mem_map.mp (pages ▸ List.mem_singleton_self _)
      exact ⟨analysis, rfl, request, member, congrArg Prod.fst same, congrArg Prod.snd same⟩

theorem restless_hidden : hidden.Restless false ignoredTree := by
  have suffix : placeSuffix? hidden.manifestPath.place = some "json" := by decide +kernel
  have apart : hidden.ManifestApart :=
    manifestApart_of_name ".docwright-manifest.json" (by decide) rfl (by decide) (by decide)
      (by decide)
  obtain ⟨rooted, report, ran, unfailed, before, after⟩ := forced_run hidden newYear
    ignoredTree_sound (by decide +kernel) (by decide)
    (unclaimed_of_written (Or.inr suffix)) (by decide +kernel)
  refine ⟨rooted, apart, report, _, ran, unfailed, before, after, fun idle => ?_⟩
  have sized : ∀ place content, ignoredTree.find? place = some (.file content) →
      content.size + 1 < Json.lineLimit :=
    sized_of_entries (by decide +kernel)
  obtain ⟨analysis, analyzed, request, member, path, sources⟩ :=
    overview_of_evaluated hidden ignoredTree ["src/a.py"]
      (by decide +kernel)
  obtain ⟨again, reanalyzed, other, alsoMember, otherPath, otherSources⟩ :=
    overview_of_evaluated hidden ((hidden.generate true false newYear).run.run ignoredTree).2 []
      (by decide +kernel)
  have same := idle.same_sources rooted sized apart ran unfailed analyzed member reanalyzed alsoMember
    (otherPath.trans path.symm) "src/a.py"
  rw [sources, otherSources] at same
  exact absurd (same.mpr (List.mem_singleton_self _)) (List.not_mem_nil)

def emptyTree : FileTree := ({} : FileTree).insert ["r"] .dir

/-- Without source directories there are no sources. -/
theorem not_hasSource_of_missing {tree : FileTree}
    (missing : ∀ dir ∈ project.config.project.sourceDirs, tree.place? (project.root.join dir) = none)
    (place : Place) : ¬ project.HasSource tree place := by
  rintro ⟨dir, member, sources, found, source, inSources, -⟩
  rcases (SourceIndex.inDir_eq_ok_iff ..).mp found with ⟨-, rfl⟩ | ⟨base, kept, there, -⟩
  · cases inSources
  · rw [missing dir member] at there
    cases there

theorem restless_cancelled : (bare ⟨"docs"⟩ fun _ => .ok "page").Restless true emptyTree := by
  have sound : emptyTree.Sound := Sound.empty.insert [] "r" .dir (find?_nil _) (by decide)
    fun _ => rfl
  obtain ⟨report, ran, unfailed⟩ := exists_of_view
    ((bare ⟨"docs"⟩ fun _ => .ok "page").generate true true newYear) emptyTree RunReport.failed []
    (by decide +kernel)
  exact ⟨.of_dir sound (by decide +kernel) (by decide),
    manifestApart_of_name ".docwright-manifest.json" (by decide) rfl (by decide) (by decide)
      (by decide),
    report, _, ran, unfailed, not_hasSource_of_missing (by decide +kernel) _,
    not_hasSource_of_missing (by decide +kernel) _, not_idle_of_sync (by decide +kernel)⟩

/-- A pass after a run without failed pages may still find changes: when the run brought about a source
directory, when it made a directory the top of a repository, when its manifest is an ignore file, and
when it was called off. -/
theorem sync_finds_changes :
    selfMade.Restless false plainTree ∧ hidden.Restless false ignoredTree ∧
      selfIgnored.Restless false plainTree ∧
      (bare ⟨"docs"⟩ fun _ => .ok "page").Restless true emptyTree :=
  ⟨restless_selfMade, restless_hidden, restless_selfIgnored, restless_cancelled⟩

end SourceAtlas.Project
