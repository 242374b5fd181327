import SourceAtlas.Proofs.Evaluation
/-!
Manifest and disk after a run. Whatever the run found in the docs directory, afterwards the manifest's
pages are on disk as recorded, and below the directory of file pages there are no others.
-/

namespace SourceAtlas.Project

open FileTree

/-- The manifest file holds a manifest, every entry's page is on disk with the recorded fingerprint,
and the file pages on disk are those of the manifest. -/
structure Agrees (project : Project) (manifest : Manifest) (tree : FileTree) : Prop where
  saved : tree.readText project.manifestPath = .ok manifest.toText
  entries : ∀ page status, manifest[page]? = some status →
    ∃ text, project.docs.load tree page = .ok text ∧ Fingerprint.ofText text = status.contentHash
  listed : ∀ page, page ∈ project.docs.pagesBelow tree Page.filesDir ↔
    page ∈ manifest ∧ page ≠ Page.overview

namespace Completed

variable {project : Project} {previous : Option Manifest} {schedule : Schedule} {tree after : FileTree}
  {report : RunReport} (completed : project.Completed previous schedule tree report after)

include completed

theorem file_left (rooted : project.Rooted tree) (steady : completed.Steady) (keys : PlainKeys previous)
    (apart : project.ManifestApart) {names : List String} (filled : names ≠ []) {content : ByteArray}
    (held : after.find? (project.docs.placeOf Page.filesDir ++ names) = some (.file content)) :
    completed.made.tree.find? (project.docs.placeOf Page.filesDir ++ names) = some (.file content) ∧
      Page.below Page.filesDir names ∉
        project.orphans completed.made.tree previous
          (completed.analysis.pages.map PageRequest.path) := by
  obtain ⟨saved, -⟩ := Disk.changes_of_writeAtomic completed.manifestSaved
  obtain ⟨drawn, -⟩ := Disk.changes_of_writeAtomic completed.graphSaved
  have offGraph : project.docs.placeOf Page.filesDir ++ names ≠ project.graphPath.place := by
    rw [place_graphPath]
    exact project.docs.placeOf_append_ne names (by decide) (by decide) (by decide)
  have inSwept := saved.file_before (Ne.symm (apart.filePages names filled))
    (drawn.file_before offGraph held)
  have before := project.held_before_removeAll _ inSwept
  refine ⟨before, fun orphan => ?_⟩
  have madeSound := completed.made_changes.sound rooted.sound
  have plain := completed.plain_orphan rooted keys orphan
  have placed := (project.docs.below_of_held madeSound filled before).2
  refine project.no_file_of_removeAll madeSound orphan plain (fun other stood => ?_) content
    (by rw [placed]; exact inSwept)
  refine steady.way _ other plain (fun request member same => ?_) stood
  exact ((project.mem_orphans_iff ..).mp orphan).1 (same ▸ List.mem_map_of_mem member)

/-- A file page that is on disk after the tasks is planned, or the sweep finds it. -/
theorem planned_or_orphan (rooted : project.Rooted tree) (steady : completed.Steady)
    {names : List String} (filled : names ≠ []) {content : ByteArray}
    (held : completed.made.tree.find? (project.docs.placeOf Page.filesDir ++ names) =
      some (.file content))
    (suffixed : Path.extension? ⟨Page.below Page.filesDir names⟩ =
      some "md") :
    (∃ request ∈ completed.analysis.pages,
        request.path = Page.below Page.filesDir names) ∨
      Page.below Page.filesDir names ∈
        project.orphans completed.made.tree previous
          (completed.analysis.pages.map PageRequest.path) := by
  by_cases planned : ∃ request ∈ completed.analysis.pages,
      request.path = Page.below Page.filesDir names
  · exact Or.inl planned
  · right
    have madeSound := completed.made_changes.sound rooted.sound
    obtain ⟨plain, placed⟩ := project.docs.below_of_held madeSound filled held
    have there := steady.way _ content plain
      (fun request member same => planned ⟨request, member, same⟩) (by rw [placed, held])
    have files := madeSound.isDir_join there Page.filesDir_isPlain.names_ne_nil
      (madeSound.above filled held)
    rw [Page.filesDir_isPlain.intercalate] at files
    rw [project.mem_orphans_iff]
    refine ⟨?_, Or.inr ?_⟩
    · intro member
      obtain ⟨request, inPages, same⟩ := List.mem_map.mp member
      exact planned ⟨request, inPages, same⟩
    · rw [project.docs.mem_pagesBelow_iff Page.filesDir_isPlain]
      exact ⟨(isDir_iff _ _).mp files, names, content, filled, rfl, held, suffixed⟩

theorem agrees (rooted : project.Rooted tree) (steady : completed.Steady) (keys : PlainKeys previous)
    (apart : project.ManifestApart) : project.Agrees completed.made.recorder.manifest after := by
  refine ⟨completed.manifest_saved apart.graph, fun page status entry =>
    completed.load_of_entry rooted steady keys apart entry, fun page => ?_⟩
  rw [project.docs.mem_pagesBelow_iff Page.filesDir_isPlain]
  constructor
  · rintro ⟨-, names, content, filled, rfl, held, suffixed⟩
    obtain ⟨before, kept⟩ := completed.file_left rooted steady keys apart filled held
    have placed := (project.docs.below_of_held (completed.made_changes.sound rooted.sound)
      filled before).2
    -- what the run left was there before the sweep, so it is planned or it would have been swept
    rcases completed.planned_or_orphan rooted steady filled before suffixed with
      ⟨request, member, same⟩ | orphan
    · have settled := steady.settled request member
      unfold PassState.Settled at settled
      rw [same] at settled
      cases entry : completed.made.recorder.manifest[Page.below Page.filesDir names]? with
      | none =>
          rw [entry, placed] at settled
          exact absurd before (settled content)
      | some status =>
          refine ⟨Std.ExtTreeMap.mem_iff_isSome_getElem?.mpr (by simp [entry]), fun overview => ?_⟩
          rw [overview] at placed
          exact project.docs.placeOf_append_ne names (by decide) (by decide) (by decide) placed.symm
    · exact absurd orphan kept
  · rintro ⟨member, other⟩
    obtain ⟨status, entry⟩ := Table.exists_of_mem member
    obtain ⟨text, loaded, -⟩ := completed.load_of_entry rooted steady keys apart entry
    obtain ⟨request, inPages, rfl⟩ := completed.planned_of_entry entry
    rcases Analysis.page_cases completed.analyzed inPages with overview | ⟨source, inSources, same⟩
    · exact absurd overview other
    · have plainSource := Analysis.isPlain_of_mem_sources rooted.sound rooted.rooted
        completed.analyzed inSources
      have plain := Page.ofSource_isPlain plainSource
      obtain ⟨rest, filled, names⟩ := Page.exists_names_ofSource plainSource
      rw [same] at loaded ⊢
      have held := project.docs.file_of_load loaded
      rw [Docs.placeOf, names, ← List.append_assoc] at held
      refine ⟨project.docs.stat_dir_of_load plain Page.filesDir_isPlain filled names loaded,
        rest, _, filled, ?_, held, Page.extension?_ofSource plainSource⟩
      rw [Page.below, ← names, plain.intercalate]

end Completed

/-- When a run that is not called off ends well, the manifest that it leaves and the disk agree,
whatever the docs directory held and however its pages came out. -/
theorem run_agrees (project : Project) {previous : Option Manifest} {schedule : Schedule}
    {tree after : FileTree} {report : RunReport} (grounded : project.Grounded tree)
    (keys : PlainKeys previous) (apart : project.ManifestApart)
    (ran : (project.run previous false schedule).run.run tree = (.ok report, after)) :
    ∃ manifest, project.Agrees manifest after := by
  obtain ⟨completed⟩ := project.completed_of_run ran
  exact ⟨_, completed.agrees grounded.toRooted (completed.steady_of_grounded grounded) keys apart⟩

def bare (docsDir : Path) (generator : PageGenerator) : Project where
  config := { project := { docsDir } }
  root := ⟨"/r"⟩
  parser := fun _ _ => .leaf "module" 0
  generator

def strayTree : FileTree :=
  (((({} : FileTree).insert ["r"] .dir).insert ["r", "docs"] .dir).insert
    ["r", "docs", "files"] .dir).insert ["r", "docs", "files", "old.md"] (.file "old".toUTF8)

def newYear : Timestamp := ⟨⟨2024, 1, 1, 0, 0, 0, 0⟩, by decide⟩

theorem strayTree_sound : strayTree.Sound := by
  have root := Sound.empty.insert [] "r" .dir (find?_nil _) (by decide)
    fun _ => rfl
  have docs := root.insert ["r"] "docs" .dir (by decide) (by decide)
    fun _ => rfl
  have files := docs.insert ["r", "docs"] "files" .dir (by decide)
    (by decide) fun _ => rfl
  exact files.insert ["r", "docs", "files"] "old.md" _ (by decide) (by decide)
    fun found => absurd found (by decide)

theorem run_agrees_strayTree : ∃ report after manifest,
    ((bare ⟨"docs"⟩ fun _ => .ok "page").run none false newYear).run.run strayTree =
      (.ok report, after) ∧ (bare ⟨"docs"⟩ fun _ => .ok "page").Agrees manifest after := by
  have rooted : strayTree.find? (bare ⟨"docs"⟩ fun _ => .ok "page").root.place = some .dir := by
    decide +kernel
  obtain ⟨report, ran⟩ := exists_of_isOk
    ((bare ⟨"docs"⟩ fun _ => .ok "page").run none false newYear) strayTree (by decide +kernel)
  obtain ⟨manifest, agrees⟩ := run_agrees _
    ⟨strayTree_sound, fun content => by simp [rooted], fun _ => by decide +kernel⟩
    (by rintro manifest ⟨⟩)
    (manifestApart_of_name ".docwright-manifest.json" (by decide) rfl (by decide)
      (by decide) (by decide)) ran
  exact ⟨report, _, manifest, ran, agrees⟩

theorem not_mem_of_toText_eq {manifest : Manifest}
    (text : manifest.toText = (∅ : Manifest).toText) (page : String) : page ∉ manifest := by
  intro member
  have none : Std.ExtTreeMap.toList (∅ : Manifest) = [] := by decide
  have written := congrArg String.toList text
  simp only [Manifest.toText, Json.toPretty, Manifest.toJson, Json.ofMap, String.toList_ofList, none,
    List.map_nil] at written
  cases entries : manifest.toList with
  | nil =>
      obtain ⟨status, entry⟩ := Table.exists_of_mem member
      have listed := Std.ExtTreeMap.mem_toList_iff_getElem?_eq_some.mpr entry
      rw [entries] at listed
      cases listed
  | cons first rest =>
      rw [entries] at written
      simp [Json.pretty, Json.newLine] at written

/-- The project with its docs directory behind one that is missing, and no page that can be made. -/
def detour : Project := bare ⟨"x/../docs"⟩ fun _ => .error .noWorkers

/-- Without a way to the docs directory a run may end well and leave a stray page: the sweep does not
find it, and the directories made for the graph file then open the way to it. -/
theorem run_leaves_stray_page :
    detour.ManifestApart ∧ ∃ report after,
      (detour.run none false newYear).run.run strayTree = (.ok report, after) ∧
        ¬ ∃ manifest, detour.Agrees manifest after := by
  refine ⟨manifestApart_of_name ".docwright-manifest.json" (by decide) rfl (by decide)
    (by decide) (by decide), ?_⟩
  obtain ⟨report, ran⟩ := exists_of_isOk (detour.run none false newYear)
    strayTree (by decide +kernel)
  refine ⟨report, _, ran, ?_⟩
  rintro ⟨manifest, agrees⟩
  have text : (FileTree.readText ((detour.run none false newYear).run.run strayTree).2
      detour.manifestPath).toOption = some (∅ : Manifest).toText := by decide +kernel
  have listed : "files/old.md" ∈ detour.docs.pagesBelow
      ((detour.run none false newYear).run.run strayTree).2 Page.filesDir := by decide +kernel
  rw [agrees.saved] at text
  exact not_mem_of_toText_eq (Option.some.inj text) _ ((agrees.listed _).mp listed).1

end SourceAtlas.Project
