import SourceAtlas.Proofs.Idle
import SourceAtlas.Proofs.Snapshots
/-!
What the overview vouches for. It depends on every source file, so when it can be kept, nothing that
pages are made from has changed since it was recorded.
-/

namespace SourceAtlas

/-- What a task leaves on record describes its page, if what it goes by is valid. -/
theorem TaskResult.describes {pass : Pass} {previous : Option Manifest} {request : PageRequest}
    {hashes : FileHashes} {stands : String → Prop} {outcome : PageOutcome} {status : PageStatus}
    (result : TaskResult pass (Pass.taskFor previous hashes request) hashes stands outcome (some status))
    (valid : ∀ status, (previous.bind fun manifest => manifest[request.path]?) = some status →
      status.isValid = true) : status.Describes request hashes := by
  cases result with
  | kept prior text decided was stood hashed =>
      -- what is carried over has just been compared with the sources as they are now
      obtain ⟨known, found, reusable⟩ := (Staleness.classify_eq_reusable_iff ..).mp decided
      obtain rfl : known = status := Option.some.inj (found.symm.trans was)
      exact PageStatus.describes_of_reusable (valid known found) reusable
  | made body now generated stood => exact PageStatus.describes_ofPage ..

namespace Project

open FileTree

/-- What the tasks of a run over a snapshot have on record of a page; the run goes by no manifest or by
one that a text holds. -/
structure RecordedIn (project : Project) (seen : FileTree) (analysis : Analysis) (page : String)
    (status : PageStatus) : Prop where
  analyzed : project.analyze seen = .ok analysis
  entry : ∃ earlier schedule, Accepted earlier ∧ ((project.pass schedule).runTasks (tasks earlier analysis)
    (start seen analysis)).2.recorder.manifest[page]? = some status

variable {project : Project}

theorem RecordedIn.describes {seen : FileTree} {analysis : Analysis} {page : String}
    {status : PageStatus} (recorded : project.RecordedIn seen analysis page status) :
    ∃ request ∈ analysis.pages, request.path = page ∧ status.Describes request analysis.hashes := by
  obtain ⟨analyzed, earlier, schedule, accepted, entry⟩ := recorded
  -- the recorder starts without entries, and tasks leave none for other pages
  have planned : ∃ request ∈ analysis.pages, request.path = page := by
    apply Classical.byContradiction
    intro absent
    rw [Pass.runTasks_entry] at entry
    · simp [start] at entry
    · intro task member same
      obtain ⟨request, inPages, rfl⟩ := List.mem_map.mp member
      exact absent ⟨request, inPages, same.symm⟩
  obtain ⟨request, member, rfl⟩ := planned
  have distinct : ((tasks earlier analysis).map fun task => task.request.path).Nodup := by
    rw [tasks, List.map_map]
    exact Analysis.pages_nodup analyzed
  obtain ⟨outcome, -, result⟩ := (project.pass schedule).runTasks_entered (start seen analysis) distinct
    (List.mem_map_of_mem member) rfl
  refine ⟨request, member, rfl, ?_⟩
  change TaskResult _ _ _ _ outcome (((project.pass schedule).runTasks (tasks earlier analysis)
    (start seen analysis)).2.recorder.manifest[request.path]?) at result
  rw [entry] at result
  apply result.describes
  intro status found
  obtain ⟨manifest, known, inManifest⟩ := Option.bind_eq_some_iff.mp found
  obtain ⟨text, read⟩ := accepted manifest known
  exact ((Manifest.isValid_iff _).mp (Manifest.isValid_of_ofText? read).1 _ _ inManifest).2

theorem sources_of_overview {tree : FileTree} {analysis : Analysis}
    (analyzed : project.analyze tree = .ok analysis) {request : PageRequest}
    (member : request ∈ analysis.pages) (path : request.path = Page.overview) :
    request.sources = analysis.files.map fun file => file.source.path := by
  have planned : (Analysis.plan project.config analysis).overviewPage ∈ analysis.pages := by
    rw [(Analysis.files_of_ofTree analyzed).2.2]
    exact List.mem_append_right _ (List.mem_singleton_self _)
  rw [Table.eq_of_key_eq (Analysis.pages_nodup analyzed) member planned path]
  rfl

/-- When the overview that was recorded over one snapshot can be kept over another, both are analysed
alike: in the call graph, the callers of each name, the drawable view, and every page that is planned. -/
theorem overview_vouches (project : Project) {seen tree : FileTree} {old new : Analysis}
    (sound : seen.Sound) (alsoSound : tree.Sound) (analyzed : project.analyze tree = .ok new)
    (apart : Analysis.TextsApart seen tree old new) {previous : Option Manifest} {status : PageStatus}
    (recorded : project.RecordedIn seen old Page.overview status)
    (found : (previous.bind fun manifest => manifest[Page.overview]?) = some status)
    {request : PageRequest} (member : request ∈ new.pages) (path : request.path = Page.overview)
    (reusable : Staleness.classify previous request new.hashes = .reusable) :
    new.graph = old.graph ∧ new.usedBy = old.usedBy ∧ new.projection = old.projection ∧
      new.pages = old.pages := by
  obtain ⟨asked, askedMember, askedPath, describes⟩ := recorded.describes
  obtain ⟨known, entry, decided⟩ := (Staleness.classify_eq_reusable_iff ..).mp reusable
  rw [path, found, Option.some_inj] at entry
  subst entry
  obtain ⟨current, same⟩ := (Staleness.ofStatus_eq_reusable_iff ..).mp decided
  have asks := sources_of_overview analyzed member path
  have asked_ := sources_of_overview recorded.analyzed askedMember askedPath
  -- the overview asks for all sources, so comparing its sources compares the snapshots
  apply Analysis.alike_of_hashes sound alsoSound recorded.analyzed analyzed apart
  · intro path
    rw [← asks, ← asked_]
    exact (same path).trans (describes.sources path)
  · intro path listed
    rw [← asks] at listed
    obtain ⟨hash, before, now⟩ := (Staleness.isCurrent_iff ..).mp (current path listed)
    rw [describes.hashes, if_pos ((describes.sources path).mp ((same path).mp listed))] at before
    rw [now, before]

def ownSource : SourceFile :=
  ⟨"src/a.py", ⟨"/r/src/a.py"⟩, "python", Fingerprint.ofText "def f(): pass\n", 1⟩

def analysisOf (project : Project) (tree : FileTree) (sources : List SourceFile) : Analysis :=
  .ofFiles project.config (sources.map (Analysis.fileOf project.config project.parser tree))

/-- The tree with the source and a file that is none beside it. -/
def filledTree : FileTree := singleTree.insert ["r", "src", "b.txt"] (.file "notes".toUTF8)

theorem filledTree_sound : filledTree.Sound :=
  singleTree_sound.insert ["r", "src"] "b.txt" _ (by decide) (by decide)
    fun found => absurd found (by decide)

theorem printed_ownSource {tree : FileTree}
    (read : (tree.readText ownSource.location).toOption = some "def f(): pass\n") :
    printed tree ownSource = ownSource := printed_eq_self (ok_of_toOption read) rfl

theorem analyze_singleTree :
    single.analyze singleTree = .ok (analysisOf single singleTree [ownSource]) :=
  analyze_of_walked singleTree_sound (by decide +kernel)
    (List.forall_mem_singleton.mpr (printed_ownSource (by decide +kernel))) (List.pairwise_singleton ..)

theorem analyze_filledTree :
    single.analyze filledTree = .ok (analysisOf single filledTree [ownSource]) :=
  analyze_of_walked filledTree_sound (by decide +kernel)
    (List.forall_mem_singleton.mpr (printed_ownSource (by decide +kernel))) (List.pairwise_singleton ..)

theorem textsApart_filledTree : Analysis.TextsApart singleTree filledTree
    (analysisOf single singleTree [ownSource]) (analysisOf single filledTree [ownSource]) := by
  intro source member other otherMember text otherText read otherRead _
  have same : filledTree.readText ownSource.location = singleTree.readText ownSource.location := by
    have here : (filledTree.readText ownSource.location).toOption = some "def f(): pass\n" := by
      decide +kernel
    have there : (singleTree.readText ownSource.location).toOption = some "def f(): pass\n" := by
      decide +kernel
    rw [ok_of_toOption here, ok_of_toOption there]
  have own : source = ownSource := List.mem_singleton.mp member
  have otherOwn : other = ownSource := List.mem_singleton.mp otherMember
  rw [own, same] at read
  rw [otherOwn, read] at otherRead
  exact Except.ok.inj otherRead

theorem overview_vouches_filledTree : ∃ old new previous status request,
    single.analyze filledTree = .ok new ∧ single.RecordedIn singleTree old Page.overview status ∧
      (previous.bind fun manifest => manifest[Page.overview]?) = some status ∧ request ∈ new.pages ∧
      Staleness.classify previous request new.hashes = .reusable ∧ new.pages = old.pages := by
  have made : (((single.pass newYear).runTasks (tasks none (analysisOf single singleTree [ownSource]))
      (start singleTree (analysisOf single singleTree [ownSource]))).2.recorder.manifest[
        Page.overview]?).isSome = true := by
    decide +kernel
  obtain ⟨status, entry⟩ := Option.isSome_iff_exists.mp made
  have recorded : single.RecordedIn singleTree (analysisOf single singleTree [ownSource])
      Page.overview status := ⟨analyze_singleTree, none, newYear, nofun, entry⟩
  generalize ((single.pass newYear).runTasks (tasks none (analysisOf single singleTree [ownSource]))
    (start singleTree (analysisOf single singleTree [ownSource]))).2.recorder.manifest = manifest at entry
  obtain ⟨asked, askedMember, askedPath, describes⟩ := recorded.describes
  obtain ⟨request, member, path⟩ : ∃ request ∈ (analysisOf single filledTree [ownSource]).pages,
      request.path = Page.overview := ⟨_, List.mem_append_right _ (List.mem_singleton_self _), rfl⟩
  have sources : asked.sources = request.sources :=
    (sources_of_overview analyze_singleTree askedMember askedPath).trans
      (sources_of_overview analyze_filledTree member path).symm
  have reusable : Staleness.classify (some manifest) request
      (analysisOf single filledTree [ownSource]).hashes = .reusable := by
    apply (Staleness.classify_eq_reusable_iff ..).mpr
    refine ⟨status, by rw [path]; exact entry, (Staleness.ofStatus_eq_reusable_iff ..).mpr ⟨?_, ?_⟩⟩
    · intro source listed
      obtain ⟨hash, known⟩ := Analysis.hash_of_mem_pages analyze_singleTree askedMember (sources ▸ listed)
      have recordedHash := describes.hashes source
      rw [if_pos (sources ▸ listed), known] at recordedHash
      exact (Staleness.isCurrent_iff ..).mpr ⟨hash, recordedHash, known⟩
    · intro source
      rw [← sources]
      exact (describes.sources source).symm
  have found : ((some manifest).bind fun manifest => manifest[Page.overview]?) = some status := entry
  obtain ⟨-, -, -, pages⟩ := overview_vouches single singleTree_sound filledTree_sound
    analyze_filledTree textsApart_filledTree recorded found member path reusable
  exact ⟨_, _, some manifest, status, request, analyze_filledTree, recorded, found, member, reusable,
    pages⟩

end Project

end SourceAtlas
