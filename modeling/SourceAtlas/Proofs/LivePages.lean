import SourceAtlas.Proofs.FailOnChanges
import SourceAtlas.Proofs.Idle
/-!
What a sweep spares. Orphans are told from planned pages by how their paths are written, and are deleted
where their paths lead; a page of the run at hand is safe unless the manifest spells its path in another
way.
-/

namespace SourceAtlas

namespace Docs

open FileTree

variable (docs : Docs)

theorem parts_of_locate {page : String} {path : Path} (located : docs.locate page = .ok path) :
    Path.parts ⟨page⟩ = (Path.names ⟨page⟩).map .name := by
  obtain ⟨-, names, -⟩ := (docs.locate_eq_ok_iff page path).mp located
  unfold Path.names
  generalize Path.parts ⟨page⟩ = parts at names
  induction parts with
  | nil => rfl
  | cons part rest ih =>
      have later := ih fun other member => names other (List.mem_cons_of_mem part member)
      cases part with
      | name text => simpa [PathPart.name?] using later
      | root => cases names .root (List.mem_cons_self ..)
      | here => cases names .here (List.mem_cons_self ..)
      | up => cases names .up (List.mem_cons_self ..)

theorem remove_changes_of_locate (page : String) (tree : FileTree) :
    Changes (fun place => (∃ path, docs.locate page = .ok path) ∧ place = docs.placeOf page) tree
      ((docs.remove page).run.run tree).2 := by
  cases located : docs.locate page with
  | error fault =>
      rw [run_remove, located]
      exact .refl _ tree
  | ok path => exact (docs.remove_changes page tree).mono fun place same => ⟨⟨path, rfl⟩, same⟩

/-- Pages with paths that are taken stand in one place when their paths have the same parts. -/
theorem parts_eq_of_placeOf {page other : String} {path otherPath : Path}
    (located : docs.locate page = .ok path) (otherLocated : docs.locate other = .ok otherPath)
    (same : docs.placeOf page = docs.placeOf other) : Path.parts ⟨page⟩ = Path.parts ⟨other⟩ := by
  rw [docs.parts_of_locate located, docs.parts_of_locate otherLocated, List.append_cancel_left same]

end Docs

namespace Project

open FileTree

variable {project : Project}

theorem removeAll_changes_of_locate (tree : FileTree) (pages : List String) :
    Changes (fun place => ∃ page ∈ pages, (∃ path, project.docs.locate page = .ok path) ∧
      place = project.docs.placeOf page) tree (project.removeAll tree pages) := by
  induction pages generalizing tree with
  | nil => exact .refl _ tree
  | cons page rest ih =>
      have first := project.docs.remove_changes_of_locate page tree
      refine (first.mono ?_).trans ((ih _).mono ?_)
      · rintro place ⟨located, rfl⟩
        exact ⟨page, List.mem_cons_self .., located, rfl⟩
      · rintro place ⟨other, member, there⟩
        exact ⟨other, List.mem_cons_of_mem page member, there⟩

/-- No page of a manifest is the given one with its path written in another way. -/
def SpelledOnce (previous : Option Manifest) (page : String) : Prop :=
  ∀ manifest, previous = some manifest → ∀ key, key ∈ manifest →
    Path.parts ⟨key⟩ = Path.parts ⟨page⟩ → key = page

namespace Completed

variable {previous : Option Manifest} {schedule : Schedule} {tree after : FileTree} {report : RunReport}
  (completed : project.Completed previous schedule tree report after)

include completed

/-- A page that was made or kept is on disk before the sweep. -/
theorem load_of_reported (rooted : project.Rooted tree) {page : String}
    (reported : page ∈ report.regenerated ∨ page ∈ report.reused) :
    ∃ request ∈ completed.analysis.pages, request.path = page ∧
      ∃ text, project.docs.load completed.made.tree page = .ok text := by
  have came : ∃ outcome, (page, outcome) ∈ completed.outcomes ∧
      ∀ fault, outcome ≠ PageOutcome.failed fault := by
    rcases reported with regenerated | reused
    · exact ⟨_, (completed.mem_regenerated_iff page).mp regenerated, nofun⟩
    · exact ⟨_, (completed.mem_reused_iff page).mp reused, nofun⟩
  obtain ⟨outcome, listed, well⟩ := came
  obtain ⟨request, member, rfl⟩ := completed.request_of_outcome listed
  obtain ⟨other, alsoListed, recorded⟩ := completed.recorded rooted member
  refine ⟨request, member, rfl, ?_⟩
  cases recorded with
  | kept status text entry loaded hashed prior decided => exact ⟨text, loaded⟩
  | made body now entry loaded generated => exact ⟨body, loaded⟩
  | failed fault absent => exact absurd (completed.outcome_eq listed alsoListed) (well fault)

/-- The sweep spares a planned page whose path is spelled in one way. -/
theorem swept_spares (rooted : project.Rooted tree) {request : PageRequest}
    (member : request ∈ completed.analysis.pages) (spelled : SpelledOnce previous request.path)
    {content : ByteArray}
    (held : completed.made.tree.find? (project.docs.placeOf request.path) = some (.file content)) :
    (project.swept previous completed.analysis completed.made).find?
      (project.docs.placeOf request.path) = some (.file content) := by
  have plain := completed.plain rooted member
  refine (removeAll_changes_of_locate completed.made.tree _).file ?_ held
  rintro ⟨page, orphan, ⟨path, located⟩, same⟩
  obtain ⟨unplanned, known⟩ := (project.mem_orphans_iff ..).mp orphan
  have samePath : page = request.path := by
    rcases known with ⟨manifest, found, inManifest⟩ | listed
    · exact spelled manifest found page inManifest
        (project.docs.parts_eq_of_placeOf located (project.docs.locate_of_plain plain) same.symm)
    · -- a page that the directory lists has a plain path
      obtain ⟨-, names, other, filled, rfl, there, -⟩ :=
        (project.docs.mem_pagesBelow_iff Page.filesDir_isPlain page).mp listed
      have below := project.docs.below_of_held (completed.made_changes.sound rooted.sound) filled there
      exact project.docs.placeOf_inj below.1 plain same.symm
  exact unplanned (samePath ▸ List.mem_map_of_mem member)

end Completed

/-- Without failed pages a planned page that had no entry is made. -/
theorem Completed.regenerated_of_unlisted {previous : Option Manifest} {schedule : Schedule}
    {tree after : FileTree} {report : RunReport}
    (completed : project.Completed previous schedule tree report after) (unfailed : report.failed = [])
    {request : PageRequest} (member : request ∈ completed.analysis.pages)
    (unlisted : (previous.bind fun manifest => manifest[request.path]?) = none) :
    request.path ∈ report.regenerated := by
  obtain ⟨outcome, listed, entered⟩ := completed.entered member
  rw [completed.mem_regenerated_iff]
  generalize completed.made.recorder.manifest[request.path]? = entry at entered
  cases entered with
  | kept status prior decided =>
      rw [unlisted] at prior
      cases prior
  | made body generated => exact listed
  | failed fault => exact absurd listed (completed.not_failed unfailed)

/-- A file that something is written to, or next to, stays a file. -/
theorem file_of_written {path : Path} {written : ByteArray} {before after : FileTree} {place : Place}
    (changes : Changes (· = path.place) before after)
    (put : after.find? path.place = some (.file written)) {content : ByteArray}
    (held : before.find? place = some (.file content)) :
    ∃ content, after.find? place = some (.file content) := by
  by_cases same : place = path.place
  · exact ⟨written, same ▸ put⟩
  · exact ⟨content, changes.file same held⟩

/-- After a run that ends well, a page that it made or kept is a file where its path leads, whatever the
manifest before had listed, as long as that manifest did not spell the path of the page in another
way; the sweep has left it alone. -/
theorem run_keeps_pages (project : Project) {previous : Option Manifest} {schedule : Schedule}
    {tree after : FileTree} {report : RunReport} (rooted : project.Rooted tree)
    (ran : (project.run previous false schedule).run.run tree = (.ok report, after)) {page : String}
    (reported : page ∈ report.regenerated ∨ page ∈ report.reused)
    (spelled : SpelledOnce previous page) :
    ∃ path, project.docs.locate page = .ok path ∧ after.isFile path = true := by
  obtain ⟨completed⟩ := project.completed_of_run ran
  obtain ⟨request, member, rfl, text, loaded⟩ := completed.load_of_reported rooted reported
  obtain ⟨path, located, read⟩ := (project.docs.load_eq_ok_iff ..).mp loaded
  obtain ⟨reached, -⟩ := (readText_eq_ok_iff ..).mp read
  obtain ⟨saved, -, -, manifestHeld⟩ := Disk.changes_of_writeAtomic completed.manifestSaved
  obtain ⟨drawn, -, -, graphHeld⟩ := Disk.changes_of_writeAtomic completed.graphSaved
  have inSwept := completed.swept_spares rooted member spelled (project.docs.file_of_load loaded)
  obtain ⟨_, inSaved⟩ := file_of_written saved manifestHeld inSwept
  obtain ⟨content, held⟩ := file_of_written drawn graphHeld inSaved
  rw [← project.docs.place_of_locate located] at held
  have stood := (stat_eq_file_iff after path content).mpr
    ⟨reached.mono completed.after_changes.dirs, held⟩
  exact ⟨path, located, by rw [isFile, stood]⟩

def anyStatus : PageStatus where
  sources := []
  hashes := ∅
  lines := none
  contentHash := "0"
  generatedAt := newYear

def manifestOf (page : String) : Manifest := (∅ : Manifest).insert page anyStatus

theorem manifestOf_getElem? {page key : String} {status : PageStatus}
    (entry : (manifestOf page)[key]? = some status) : key = page ∧ status = anyStatus := by
  rw [manifestOf, Std.ExtTreeMap.getElem?_insert] at entry
  split at entry
  · next same =>
      rw [Std.LawfulEqCmp.compare_eq_iff_eq] at same
      cases entry
      exact ⟨same.symm, rfl⟩
  · simp at entry

theorem eq_of_mem_manifestOf {page key : String} (member : key ∈ manifestOf page) : key = page := by
  obtain ⟨status, entry⟩ := Table.exists_of_mem member
  exact (manifestOf_getElem? entry).1

/-- A manifest with a page of whatever path is one that can be read. -/
theorem accepted_manifestOf {page : String} (filled : page ≠ "") : Accepted (some (manifestOf page)) := by
  rintro manifest ⟨⟩
  refine ⟨_, Manifest.ofText?_toText ((Manifest.isValid_iff _).mpr fun key status entry => ?_)
    fun key status entry => ?_⟩
  · obtain ⟨rfl, rfl⟩ := manifestOf_getElem? entry
    exact ⟨filled, by decide⟩
  · obtain ⟨-, rfl⟩ := manifestOf_getElem? entry
    exact nofun

theorem run_keeps_pages_plainTree : ∃ report after,
    (paged.run (some (manifestOf "files/./old.md")) false newYear).run.run plainTree =
      (.ok report, after) ∧ "index.md" ∈ report.regenerated ∧
    ∃ path, paged.docs.locate "index.md" = .ok path ∧ after.isFile path = true := by
  have rooted : paged.Rooted plainTree := .of_dir plainTree_sound (by decide +kernel) (by decide)
  obtain ⟨report, ran, regenerated⟩ := exists_of_view
    (paged.run (some (manifestOf "files/./old.md")) false newYear) plainTree RunReport.regenerated
    ["index.md"] (by decide +kernel)
  have made : "index.md" ∈ report.regenerated := by
    rw [regenerated]
    exact List.mem_singleton_self _
  refine ⟨report, _, ran, made, run_keeps_pages paged rooted ran (Or.inl made) ?_⟩
  rintro manifest ⟨⟩ key member same
  cases eq_of_mem_manifestOf member
  exact absurd same (by decide)

/-- A sweep deletes the page that the run has just made, when the manifest has its path with a slash
too many. -/
theorem sweep_deletes_made_page : Accepted (some (manifestOf "files//src/a.py.md")) ∧
    ∃ report after, (single.run (some (manifestOf "files//src/a.py.md")) false newYear).run.run
        singleTree = (.ok report, after) ∧ "files/src/a.py.md" ∈ report.regenerated ∧
      single.docs.locate "files/src/a.py.md" = .ok ⟨"/r/docs/files/src/a.py.md"⟩ ∧
      after.isFile ⟨"/r/docs/files/src/a.py.md"⟩ = false := by
  refine ⟨accepted_manifestOf (by decide), ?_⟩
  obtain ⟨report, ran, unfailed⟩ := exists_of_view
    (single.run (some (manifestOf "files//src/a.py.md")) false newYear) singleTree RunReport.failed
    [] (by decide +kernel)
  refine ⟨report, _, ran, ?_, rfl, by decide +kernel⟩
  obtain ⟨completed⟩ := single.completed_of_run ran
  have planned : (single.analyze singleTree).toOption.map (fun analysis =>
      analysis.pages.map PageRequest.path) = some ["files/src/a.py.md", "index.md"] := by
    decide +kernel
  rw [completed.analyzed] at planned
  have first : "files/src/a.py.md" ∈ completed.analysis.pages.map PageRequest.path := by
    rw [show completed.analysis.pages.map PageRequest.path = _ from Option.some.inj planned]
    exact List.mem_cons_self ..
  obtain ⟨request, member, path⟩ := List.mem_map.mp first
  have unlisted : (manifestOf "files//src/a.py.md")["files/src/a.py.md"]? = none :=
    Std.ExtTreeMap.getElem?_eq_none fun member => absurd (eq_of_mem_manifestOf member) (by decide)
  rw [← path]
  exact completed.regenerated_of_unlisted unfailed member (by rw [path]; exact unlisted)

end Project

end SourceAtlas
