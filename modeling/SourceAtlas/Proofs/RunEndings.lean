import SourceAtlas.Proofs.Descent
import SourceAtlas.Proofs.Evaluation
import SourceAtlas.Proofs.FailOnChanges
import SourceAtlas.Proofs.OwnFiles
/-!
How a run over analysed sources ends. No page and no orphan can stop it; what can is the manifest, which
is then left as it was, and the call graph, which is written when the manifest is on disk already.
-/

namespace SourceAtlas

open FileTree

theorem FileTree.Sound.reaches_child {tree : FileTree} (sound : tree.Sound) {base : Path}
    (there : tree.isDir base = true) {name : String} (named : IsFileName name) :
    tree.Reaches (base.join ⟨name⟩) := by
  obtain ⟨-, -, way⟩ := (stat_eq_dir_iff_passable tree base).mp ((isDir_iff tree base).mp there)
  have held : tree.find? (base.place ++ []) = some .dir := by
    rw [List.append_nil]
    exact sound.placeFrom (find?_nil tree) way
  have reached := sound.reaches_name way held named
  rwa [List.nil_append, String.intercalate_singleton] at reached

namespace Project

variable (project : Project)

/-- How what follows a sweep can end: both files are written, or the first is not, or the second is
not. -/
inductive Concluded (manifest : Manifest) (graph : String) (report : RunReport) (swept : FileTree) :
    Except Fault RunReport → FileTree → Prop
  | done (saved after : FileTree)
      (kept : (Disk.writeAtomic project.manifestPath manifest.toText.toUTF8).run.run swept =
        (.ok (), saved))
      (drawn : (Disk.writeAtomic project.graphPath graph.toUTF8).run.run saved = (.ok (), after)) :
      Concluded manifest graph report swept (.ok report) after
  | unsaved (fault : IoFault) (after : FileTree)
      (lost : (Disk.writeAtomic project.manifestPath manifest.toText.toUTF8).run.run swept =
        (.error fault, after)) :
      Concluded manifest graph report swept (.error (.unsavedManifest project.manifestPath fault)) after
  | undrawn (fault : IoFault) (saved after : FileTree)
      (kept : (Disk.writeAtomic project.manifestPath manifest.toText.toUTF8).run.run swept =
        (.ok (), saved))
      (lost : (Disk.writeAtomic project.graphPath graph.toUTF8).run.run saved = (.error fault, after)) :
      Concluded manifest graph report swept (.error (.io fault)) after

theorem concluded (previous : Option Manifest) (analysis : Analysis) (report : RunReport)
    (made : PassState) (swept : FileTree) :
    project.Concluded (carrySkipped previous report.skipped made.recorder).manifest
      (graphText analysis made.references) report swept
      ((project.conclude previous analysis report made).run.run swept).1
      ((project.conclude previous analysis report made).run.run swept).2 := by
  unfold conclude Manifest.save
  rw [run_bind, run_adapt]
  cases kept : (Disk.writeAtomic project.manifestPath
      (carrySkipped previous report.skipped made.recorder).manifest.toText.toUTF8).run.run swept with
  | mk result saved =>
      cases result with
      | error fault => exact .unsaved fault saved kept
      | ok _ =>
          simp only [Except.mapError]
          rw [run_bind, run_adapt]
          cases drawn : (Disk.writeAtomic project.graphPath
              (graphText analysis made.references).toUTF8).run.run saved with
          | mk result after =>
              cases result with
              | error fault => exact .undrawn fault saved after kept drawn
              | ok _ => exact .done saved after kept drawn

/-- How a run over analysed sources can end. When the manifest cannot be saved no file has changed since
the sweep, and a manifest that could be read at the start is there, unless a page was planned in its
place. When the call graph cannot be written the manifest is saved, and the docs directory is not there or
has a directory in the place of the call graph. -/
inductive Ending (previous : Option Manifest) (cancelled : Bool) (schedule : Schedule) (tree : FileTree)
    (analysis : Analysis) : Except Fault RunReport → FileTree → Prop
  | done (report : RunReport) (after : FileTree) :
      Ending previous cancelled schedule tree analysis (.ok report) after
  | unsaved (fault : IoFault) (after : FileTree)
      (still : Changes (fun _ => False)
        (project.swept previous analysis (project.passed previous cancelled schedule tree analysis).2) after)
      (kept : ∀ content, tree.read project.manifestPath = .ok content →
        (∀ request ∈ analysis.pages,
          project.docs.placeOf request.path ≠ project.manifestPath.place) →
        after.read project.manifestPath = .ok content) :
      Ending previous cancelled schedule tree analysis
        (.error (.unsavedManifest project.manifestPath fault)) after
  | undrawn (fault : IoFault) (manifest : Manifest) (saved after : FileTree)
      (recorded : saved.readText project.manifestPath = .ok manifest.toText)
      (still : Changes (fun _ => False) saved after)
      (blocked : saved.isDir project.docsDir = false ∨ saved.find? project.graphPath.place = some .dir) :
      Ending previous cancelled schedule tree analysis (.error (.io fault)) after

variable {project} {previous : Option Manifest} {cancelled : Bool} {schedule : Schedule} {tree : FileTree}
  {analysis : Analysis}

theorem passed_changes : Changes (fun place => ∃ request ∈ analysis.pages,
    place = project.docs.placeOf request.path) tree
      (project.passed previous cancelled schedule tree analysis).2.tree := by
  apply ((project.pass schedule).run_changes analysis.pages previous cancelled (start tree analysis)).mono
  rintro place ⟨request, member, path, located, rfl⟩
  exact ⟨request, member, project.docs.place_of_locate located⟩

theorem swept_dirs (made : PassState) (place : Place) (held : made.tree.find? place = some .dir) :
    (project.swept previous analysis made).find? place = some .dir :=
  (project.removeAll_changes made.tree _).dirs place held

/-- A manifest that can be read at the start can be replaced after the sweep, if no page was planned in
its place: a sweep may delete it, but puts no directory there. -/
theorem manifest_writable {content : ByteArray} (found : tree.read project.manifestPath = .ok content)
    (apart : ∀ request ∈ analysis.pages,
      project.docs.placeOf request.path ≠ project.manifestPath.place) (text : ByteArray) :
    ∃ after, (Disk.writeAtomic project.manifestPath text).run.run
      (project.swept previous analysis (project.passed previous cancelled schedule tree analysis).2) =
        (.ok (), after) := by
  obtain ⟨reached, held⟩ := (read_eq_ok_iff ..).mp found
  -- no page is made in its place, and a sweep that deletes it leaves nothing there
  have made : Changes _ tree (project.passed previous cancelled schedule tree analysis).2.tree :=
    passed_changes
  have kept : (project.passed previous cancelled schedule tree analysis).2.tree.find?
      project.manifestPath.place = some (.file content) := by
    refine made.file ?_ held
    rintro ⟨request, member, same⟩
    exact apart request member same.symm
  refine ⟨_, ((reached.mono made.dirs).mono (swept_dirs _)).run_writeAtomic ?_ text⟩
  intro dir
  have before := project.held_before_removeAll _ dir
  rw [kept] at before
  cases before

/-- The call graph can be written in a docs directory that is there, unless a directory is in its
place. -/
theorem graph_writable {saved : FileTree} (sound : saved.Sound)
    (there : saved.isDir project.docsDir = true)
    (free : saved.find? project.graphPath.place ≠ some .dir) (text : ByteArray) :
    ∃ after, (Disk.writeAtomic project.graphPath text).run.run saved = (.ok (), after) :=
  have reached : saved.Reaches project.graphPath := sound.reaches_child there (by decide)
  ⟨_, reached.run_writeAtomic free text⟩

/-- A run ends well when there is a place for its manifest and one for its call graph after the tasks, and
then leaves both beside what the sweep has left. -/
theorem run_of_writable {passed : List (String × PageOutcome) × PassState}
    (analyzed : project.analyze tree = .ok analysis)
    (ran : (project.pass schedule).runTasks (tasks previous analysis) (start tree analysis) = passed)
    (manifest : passed.2.tree.Reaches project.manifestPath)
    (manifestFree : passed.2.tree.find? project.manifestPath.place ≠ some .dir)
    (graph : passed.2.tree.Reaches project.graphPath)
    (graphFree : passed.2.tree.find? project.graphPath.place ≠ some .dir)
    (apart : project.manifestPath.place ≠ project.graphPath.place) :
    (project.run previous false schedule).run.run tree =
      (.ok (.ofOutcomes (Staleness.plan analysis.pages previous analysis.hashes) passed.1),
        ((project.swept previous analysis passed.2).insert project.manifestPath.place
          (.file passed.2.recorder.manifest.toText.toUTF8)).insert project.graphPath.place
            (.file (graphText analysis passed.2.references).toUTF8)) := by
  obtain ⟨outcomes, made⟩ := passed
  have dirs : ∀ place, made.tree.find? place = some .dir →
      (project.swept previous analysis made).find? place = some .dir := swept_dirs made
  have free : ∀ {place}, made.tree.find? place ≠ some .dir →
      (project.swept previous analysis made).find? place ≠ some .dir :=
    fun empty dir => empty (project.held_before_removeAll _ dir)
  have saved := (manifest.mono dirs).run_writeAtomic (free manifestFree)
    made.recorder.manifest.toText.toUTF8
  rcases Disk.writeAtomic_cases saved with ⟨_, wrong, -⟩ | ⟨-, changes, -⟩
  · cases wrong
  have empty : ((project.swept previous analysis made).insert project.manifestPath.place
      (.file made.recorder.manifest.toText.toUTF8)).find? project.graphPath.place ≠ some .dir := by
    rw [find?_insert _ _ _ manifest.place_ne_nil, if_neg apart.symm]
    exact free graphFree
  have drawn := ((graph.mono dirs).mono changes.dirs).run_writeAtomic empty
    (graphText analysis made.references).toUTF8
  have completed : project.Completed previous schedule tree _ _ := {
    analysis, analyzed, outcomes, made, ran
    reported := rfl
    saved := _
    manifestSaved := by
      rw [Manifest.save, run_adapt, saved]
      rfl
    graphSaved := by
      rw [run_adapt, drawn]
      rfl }
  exact completed.run_eq

/-- A run over analysed sources ends well, or with a manifest that could not be saved; only the place of
the call graph can make it end otherwise. -/
theorem run_ends (sound : tree.Sound) (analyzed : project.analyze tree = .ok analysis) :
    project.Ending previous cancelled schedule tree analysis
      ((project.run previous cancelled schedule).run.run tree).1
      ((project.run previous cancelled schedule).run.run tree).2 := by
  rw [run_of_analyzed analyzed]
  have made : Changes _ tree (project.passed previous cancelled schedule tree analysis).2.tree :=
    passed_changes
  have swept : Changes _ _ (project.swept previous analysis
      (project.passed previous cancelled schedule tree analysis).2) :=
    project.removeAll_changes (project.passed previous cancelled schedule tree analysis).2.tree _
  have concluded := project.concluded previous analysis
    (project.passed previous cancelled schedule tree analysis).1
    (project.passed previous cancelled schedule tree analysis).2
    (project.swept previous analysis (project.passed previous cancelled schedule tree analysis).2)
  generalize ((project.conclude previous analysis _ _).run.run _).1 = result at concluded ⊢
  generalize ((project.conclude previous analysis _ _).run.run _).2 = after at concluded ⊢
  -- the pass and the sweep cannot fail, so what is left is to write the two files
  cases concluded with
  | done saved after kept drawn => exact .done _ _
  | unsaved fault after lost =>
      rcases Disk.writeAtomic_cases lost with ⟨_, -, still⟩ | ⟨wrong, -⟩
      · refine .unsaved fault after still fun content found apart => ?_
        obtain ⟨written, ended⟩ := manifest_writable found apart _
        rw [lost] at ended
        cases ended
      · cases wrong
  | undrawn fault saved after kept lost =>
      rcases Disk.writeAtomic_cases kept with ⟨_, wrong, -⟩ | ⟨-, changes, reached, -, held⟩
      · cases wrong
      rcases Disk.writeAtomic_cases lost with ⟨_, -, still⟩ | ⟨wrong, -⟩
      · refine .undrawn fault _ saved after ((readText_eq_ok_iff ..).mpr ⟨reached, held⟩) still ?_
        -- a call graph that has a place would have been written
        apply Classical.byContradiction
        intro open_
        obtain ⟨there, free⟩ := not_or.mp open_
        obtain ⟨written, ended⟩ := graph_writable (changes.sound (swept.sound (made.sound sound)))
          (by simpa using there) free _
        rw [lost] at ended
        cases ended
      · cases wrong

theorem run_ends_strayTree : ∃ analysis, paged.analyze strayTree = .ok analysis ∧
    paged.Ending none false newYear strayTree analysis
      ((paged.run none false newYear).run.run strayTree).1
      ((paged.run none false newYear).run.run strayTree).2 := by
  obtain ⟨report, ran⟩ := exists_of_isOk (paged.run none false newYear) strayTree (by decide +kernel)
  obtain ⟨completed⟩ := paged.completed_of_run ran
  exact ⟨completed.analysis, completed.analyzed, run_ends strayTree_sound completed.analyzed⟩

def blockedTree : FileTree := strayTree.insert ["r", "docs", "call_graph.json"] .dir

theorem blockedTree_sound : blockedTree.Sound :=
  strayTree_sound.insert ["r", "docs"] "call_graph.json" .dir (by decide) (by decide) fun _ => rfl

/-- A run over analysed sources may end in a fault when its manifest is saved: the call graph has no
place then. -/
theorem run_ends_undrawn : blockedTree.Sound ∧ (paged.analyze blockedTree).isOk = true ∧
    (blockedTree.find? paged.manifestPath.place).isNone = true ∧
    ∃ after, (paged.run (paged.previous blockedTree) false newYear).run.run blockedTree =
        (.error (.io .isDirectory), after) ∧
      (after.find? paged.manifestPath.place).isSome = true :=
  ⟨blockedTree_sound, by decide +kernel, by decide +kernel, _, eq_of_faultOf? (by decide +kernel),
    by decide +kernel⟩

end Project

end SourceAtlas
