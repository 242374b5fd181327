import SourceAtlas.Proofs.Agreement
import SourceAtlas.Proofs.Manifest
import SourceAtlas.Proofs.Staleness
/-!
What a run leaves on record. Its manifest has the pages that it made or kept, and every entry says
what the page is made from now, whichever run recorded the entry first.
-/

namespace SourceAtlas

theorem Fingerprint.ofText_ne_empty (text : String) : ofText text ≠ "" := by
  intro empty
  have wide : ∀ width n : Nat, (hex width n).length = width := by
    intro width
    induction width with
    | zero => exact fun n => rfl
    | succ width ih => intro n; simp [hex, ih]
  have chars := congrArg (fun text => text.toList.length) empty
  simp [ofText, digest, Chain.words, wide, Fingerprint.length] at chars

namespace PageStatus

theorem isValid_iff (status : PageStatus) :
    status.isValid = true ↔ status.contentHash ≠ "" ∧
      ∀ source, source ∉ status.sources → status.hashes[source]? = none := by
  simp only [isValid, Bool.and_eq_true, Bool.not_eq_true', String.isEmpty_eq_false_iff, List.all_eq_true,
    List.contains_iff_mem, Std.ExtTreeMap.mem_keys]
  refine and_congr_right fun _ => forall_congr' fun source => ?_
  rw [Std.ExtTreeMap.mem_iff_isSome_getElem?]
  cases status.hashes[source]? with
  | none => simp
  | some hash => simp

theorem isValid_ofPage (hashes : FileHashes) (now : Timestamp) (sources : List String)
    (lines : Option LineInfo) (body : String) :
    (ofPage hashes now sources lines body).isValid = true := by
  refine (isValid_iff _).mpr ⟨Fingerprint.ofText_ne_empty body, fun source unlisted => ?_⟩
  exact (ofPage_hashes ..).trans (if_neg unlisted)

/-- A status lists the sources of a request, with the fingerprints that they have. -/
structure Describes (status : PageStatus) (request : PageRequest) (hashes : FileHashes) : Prop where
  sources : ∀ source, source ∈ status.sources ↔ source ∈ request.sources
  hashes : ∀ source, status.hashes[source]? =
    if source ∈ request.sources then hashes[source]? else none

theorem describes_ofPage (hashes : FileHashes) (now : Timestamp) (request : PageRequest)
    (lines : Option LineInfo) (body : String) :
    (ofPage hashes now request.sources lines body).Describes request hashes :=
  ⟨fun _ => Iff.rfl, ofPage_hashes hashes now request.sources lines body⟩

/-- What a page can be kept by describes the page as it would be made now. -/
theorem describes_of_reusable {status : PageStatus} {request : PageRequest} {hashes : FileHashes}
    (valid : status.isValid = true)
    (reusable : Staleness.ofStatus status request hashes = .reusable) :
    status.Describes request hashes := by
  obtain ⟨current, same⟩ := (Staleness.ofStatus_eq_reusable_iff ..).mp reusable
  refine ⟨fun source => (same source).symm, fun source => ?_⟩
  by_cases asked : source ∈ request.sources
  · obtain ⟨hash, recorded, now⟩ := (Staleness.isCurrent_iff ..).mp (current source asked)
    rw [if_pos asked, recorded, now]
  · rw [if_neg asked]
    exact ((isValid_iff status).mp valid).2 source fun listed => asked ((same source).mpr listed)

/-- A status that describes a page is decided on like one that has just been recorded. -/
theorem Describes.ofStatus_eq {status : PageStatus} {request : PageRequest} {hashes : FileHashes}
    (describes : status.Describes request hashes) (asked : PageRequest) (found : FileHashes)
    (now : Timestamp) (lines : Option LineInfo) (body : String) :
    Staleness.ofStatus status asked found =
      Staleness.ofStatus (.ofPage hashes now request.sources lines body) asked found := by
  have current : ∀ source, Staleness.isCurrent status found source =
      Staleness.isCurrent (.ofPage hashes now request.sources lines body) found source := by
    intro source
    rw [Staleness.isCurrent, Staleness.isCurrent, describes.hashes, ofPage_hashes]
  have members : Staleness.sameMembers asked.sources status.sources =
      Staleness.sameMembers asked.sources request.sources := by
    rw [Bool.eq_iff_iff, Staleness.sameMembers_iff, Staleness.sameMembers_iff]
    exact forall_congr' fun source => by rw [describes.sources source]
  simp only [Staleness.ofStatus, current, members]
  rfl

end PageStatus

theorem Analysis.page_ne_empty {config : Config} {root : Path} {parser : Parser} {tree : FileTree}
    {analysis : Analysis} (analyzed : ofTree config root parser tree = .ok analysis)
    {request : PageRequest} (member : request ∈ analysis.pages) : request.path ≠ "" := by
  rcases page_cases analyzed member with same | ⟨source, -, same⟩
  · rw [same]
    decide
  · rw [same]
    simp [Page.ofSource, Page.filesDir]

namespace Project

open FileTree

variable {project : Project}

/-- A manifest to go by is none, or one that a text holds. -/
def Accepted (previous : Option Manifest) : Prop :=
  ∀ manifest, previous = some manifest → ∃ text, Manifest.ofText? text = some manifest

/-- A manifest is the record of a run: it has the pages that the run made or kept, and its entries
describe them as they were planned. -/
structure IsRecord (report : RunReport) (analysis : Analysis) (manifest : Manifest) : Prop where
  pages : ∀ page, page ∈ manifest ↔ page ∈ report.regenerated ∨ page ∈ report.reused
  entries : ∀ page status, manifest[page]? = some status →
    ∃ request ∈ analysis.pages, request.path = page ∧ status.Describes request analysis.hashes

namespace Completed

variable {previous : Option Manifest} {schedule : Schedule} {tree after : FileTree} {report : RunReport}
  (completed : project.Completed previous schedule tree report after)

include completed

theorem manifest_readable
    (sized : ∀ place content, tree.find? place = some (.file content) →
      content.size + 1 < Json.lineLimit)
    (known : ∀ manifest, previous = some manifest → manifest.isValid = true ∧ manifest.IsReadable) :
    completed.made.recorder.manifest.isValid = true ∧ completed.made.recorder.manifest.IsReadable := by
  have entries : ∀ page status, completed.made.recorder.manifest[page]? = some status →
      page ≠ "" ∧ status.isValid = true ∧ status.IsReadable := by
    intro page status found
    obtain ⟨request, member, rfl⟩ := completed.planned_of_entry found
    refine ⟨Analysis.page_ne_empty completed.analyzed member, ?_⟩
    obtain ⟨outcome, listed, entered⟩ := completed.entered member
    rw [found] at entered
    cases entered with
    | kept _ prior decided =>
        obtain ⟨manifest, same, carried⟩ := Option.bind_eq_some_iff.mp prior
        obtain ⟨valid, readable⟩ := known manifest same
        exact ⟨((manifest.isValid_iff).mp valid _ _ carried).2, readable _ _ carried⟩
    | made body generated =>
        refine ⟨PageStatus.isValid_ofPage .., fun lines given source range inLines => ?_⟩
        obtain ⟨place, content, held, first, last⟩ :=
          Analysis.lines_of_mem_pages completed.analyzed member given inLines
        exact ⟨Nat.lt_of_le_of_lt first (sized place content held),
          Nat.lt_of_le_of_lt last (sized place content held)⟩
  constructor
  · apply (Manifest.isValid_iff _).mpr
    intro page status found
    exact ⟨(entries page status found).1, (entries page status found).2.1⟩
  · intro page status found
    exact (entries page status found).2.2

/-- The next run finds the manifest as it was recorded, if nothing has changed its file. -/
theorem previous_of_same (valid : completed.made.recorder.manifest.isValid = true)
    (readable : completed.made.recorder.manifest.IsReadable)
    (offGraph : project.manifestPath.place ≠ project.graphPath.place) {later : FileTree}
    (same : later.readText project.manifestPath = after.readText project.manifestPath) :
    project.previous later = some completed.made.recorder.manifest := by
  unfold Project.previous Manifest.load?
  rw [same, completed.manifest_saved offGraph]
  exact Manifest.ofText?_toText valid readable

theorem previous_after (valid : completed.made.recorder.manifest.isValid = true)
    (readable : completed.made.recorder.manifest.IsReadable)
    (offGraph : project.manifestPath.place ≠ project.graphPath.place) :
    project.previous after = some completed.made.recorder.manifest :=
  completed.previous_of_same valid readable offGraph rfl

theorem mem_manifest_iff (page : String) : page ∈ completed.made.recorder.manifest ↔
    page ∈ report.regenerated ∨ page ∈ report.reused := by
  rw [completed.mem_regenerated_iff, completed.mem_reused_iff, Std.ExtTreeMap.mem_iff_isSome_getElem?]
  constructor
  · intro inside
    obtain ⟨status, found⟩ := Option.isSome_iff_exists.mp inside
    obtain ⟨request, member, rfl⟩ := completed.planned_of_entry found
    obtain ⟨outcome, listed, entered⟩ := completed.entered member
    rw [found] at entered
    cases entered with
    | kept _ prior decided => exact Or.inr listed
    | made body generated => exact Or.inl listed
  · intro listed
    have inOutcomes : ∃ outcome, (page, outcome) ∈ completed.outcomes ∧
        (outcome = .regenerated ∨ outcome = .reused) := by
      rcases listed with regenerated | reused
      · exact ⟨_, regenerated, Or.inl rfl⟩
      · exact ⟨_, reused, Or.inr rfl⟩
    obtain ⟨outcome, listed, present⟩ := inOutcomes
    obtain ⟨request, member, rfl⟩ := completed.request_of_outcome listed
    obtain ⟨other, alsoListed, entered⟩ := completed.entered member
    rw [completed.outcome_eq listed alsoListed] at present
    generalize completed.made.recorder.manifest[request.path]? = entry at entered ⊢
    cases entered with
    | kept status prior decided => rfl
    | made body generated => rfl
    | failed fault => simp at present

/-- The manifest of a run is its record. An entry that was carried over has passed the comparison with
the sources of now, so it says what a fresh one would say. -/
theorem isRecord (accepted : Accepted previous) :
    IsRecord report completed.analysis completed.made.recorder.manifest := by
  refine ⟨completed.mem_manifest_iff, fun page status found => ?_⟩
  obtain ⟨request, member, rfl⟩ := completed.planned_of_entry found
  obtain ⟨outcome, listed, entered⟩ := completed.entered member
  refine ⟨request, member, rfl, ?_⟩
  rw [found] at entered
  cases entered with
  | kept _ prior decided =>
      obtain ⟨known, was, reusable⟩ := (Staleness.classify_eq_reusable_iff ..).mp decided
      rw [prior, Option.some_inj] at was
      subst was
      obtain ⟨manifest, same, carried⟩ := Option.bind_eq_some_iff.mp prior
      obtain ⟨text, read⟩ := accepted manifest same
      have valid := (manifest.isValid_iff.mp (Manifest.isValid_of_ofText? read).1 _ _ carried).2
      exact PageStatus.describes_of_reusable valid reusable
  | made body generated => exact PageStatus.describes_ofPage ..

end Completed

theorem decisions_of_run {previous : Option Manifest} {schedule : Schedule} {tree after : FileTree}
    {report : RunReport}
    (ran : (project.run previous false schedule).run.run tree = (.ok report, after)) {analysis : Analysis}
    (analyzed : project.analyze tree = .ok analysis) :
    report.decisions = Staleness.plan analysis.pages previous analysis.hashes := by
  obtain ⟨completed⟩ := project.completed_of_run ran
  rw [completed.reported, Except.ok.inj (analyzed.symm.trans completed.analyzed)]
  rfl

/-- What a run that is not called off leaves on record when it ends well, whatever it went by, found on
disk, and made of its pages. The manifest file holds the record of the run. While it is left alone, a
page that failed is decided to have no entry if it is still planned, and a page that was made or kept
is decided on as if it had just been recorded. -/
theorem run_recorded (project : Project) {previous : Option Manifest} {schedule : Schedule}
    {tree after : FileTree} {report : RunReport} (accepted : Accepted previous)
    (offGraph : project.manifestPath.place ≠ project.graphPath.place)
    (sized : ∀ place content, tree.find? place = some (.file content) →
      content.size + 1 < Json.lineLimit)
    (ran : (project.run previous false schedule).run.run tree = (.ok report, after)) :
    ∃ analysis manifest, project.analyze tree = .ok analysis ∧
      after.readText project.manifestPath = .ok manifest.toText ∧
      IsRecord report analysis manifest ∧
      ∀ later, later.readText project.manifestPath = after.readText project.manifestPath →
        project.previous later = some manifest ∧
        (∀ page message, (page, message) ∈ report.failed → page ∉ manifest ∧
          ∀ clock next ended again,
            (project.run (project.previous later) false clock).run.run later = (.ok next, ended) →
            project.analyze later = .ok again → page ∈ again.pages.map PageRequest.path →
              next.decisions[page]? = some .noPriorPageEntry) ∧
        ∀ request ∈ analysis.pages, request.path ∈ manifest →
          ∀ asked : PageRequest, asked.path = request.path → ∀ hashes recordedAt lines body,
            Staleness.classify (project.previous later) asked hashes = Staleness.ofStatus
              (.ofPage analysis.hashes recordedAt request.sources lines body) asked hashes := by
  obtain ⟨completed⟩ := project.completed_of_run ran
  have record := completed.isRecord accepted
  obtain ⟨valid, readable⟩ := completed.manifest_readable sized fun manifest same => by
    obtain ⟨text, read⟩ := accepted manifest same
    exact Manifest.isValid_of_ofText? read
  refine ⟨completed.analysis, completed.made.recorder.manifest, completed.analyzed,
    completed.manifest_saved offGraph, record, fun later unchanged => ?_⟩
  have found := completed.previous_of_same valid readable offGraph unchanged
  refine ⟨found, fun page message failed => ?_, fun request member present asked same => ?_⟩
  · have absent : page ∉ completed.made.recorder.manifest := by
      obtain ⟨fault, listed, -⟩ := (completed.mem_failed_iff page message).mp failed
      rw [record.pages, completed.mem_regenerated_iff, completed.mem_reused_iff]
      rintro (regenerated | reused)
      · cases completed.outcome_eq listed regenerated
      · cases completed.outcome_eq listed reused
    refine ⟨absent, fun clock next ended again ranNext analyzed planned => ?_⟩
    obtain ⟨asked, inAgain, rfl⟩ := List.mem_map.mp planned
    rw [decisions_of_run ranNext analyzed,
      Staleness.plan_getElem?_of_mem (Analysis.pages_nodup analyzed) inAgain, found]
    simp only [Staleness.classify, Std.ExtTreeMap.getElem?_eq_none absent]
  · intro hashes recordedAt lines body
    obtain ⟨status, entry⟩ := Table.exists_of_mem present
    obtain ⟨other, inPages, path, describes⟩ := record.entries request.path status entry
    rw [Table.eq_of_key_eq (Analysis.pages_nodup completed.analyzed) inPages member path] at describes
    rw [found]
    simp only [Staleness.classify, same, entry]
    exact describes.ofStatus_eq asked hashes recordedAt lines body

/-- The tree of a text with one function `f`. -/
def oneFunction : SyntaxTree where
  rows := #[⟨none, "module", none, 0, 14⟩, ⟨some 0, "function_definition", none, 0, 13⟩,
    ⟨some 1, "identifier", some "name", 4, 5⟩]
  nonempty := by decide
  preorder := by decide

def singleTree : FileTree :=
  ((({} : FileTree).insert ["r"] .dir).insert ["r", "src"] .dir).insert ["r", "src", "a.py"]
    (.file "def f(): pass\n".toUTF8)

/-- The project that can make the pages of files, but no overview. -/
def halved : Project :=
  { bare ⟨"docs"⟩ (fun request => if request.path = Page.overview then .error .noWorkers else .ok "page") with
    parser := fun _ _ => oneFunction }

theorem run_recorded_halved : ∃ report after manifest status,
    (halved.run none false newYear).run.run singleTree = (.ok report, after) ∧
      report.failed.map Prod.fst = ["index.md"] ∧ halved.previous after = some manifest ∧
      manifest["files/src/a.py.md"]? = some status ∧ "index.md" ∉ manifest := by
  obtain ⟨report, ran, seen⟩ := exists_of_view (halved.run none false newYear) singleTree
    (fun report => (report.failed.map Prod.fst, report.regenerated)) (["index.md"], ["files/src/a.py.md"])
    (by decide +kernel)
  obtain ⟨failed, made⟩ := Prod.mk.injEq .. ▸ seen
  obtain ⟨analysis, manifest, -, -, record, followed⟩ := run_recorded halved (by rintro manifest ⟨⟩)
    (by decide +kernel) (sized_of_entries (by decide +kernel)) ran
  obtain ⟨found, retried, -⟩ := followed _ rfl
  have kept : "files/src/a.py.md" ∈ manifest :=
    (record.pages _).mpr (Or.inl (made ▸ List.mem_singleton_self _))
  obtain ⟨status, entry⟩ := Table.exists_of_mem kept
  obtain ⟨⟨page, message⟩, listed, same⟩ := List.mem_map.mp (failed ▸ List.mem_singleton_self "index.md")
  cases same
  exact ⟨report, _, manifest, status, ran, failed, found, entry, (retried "index.md" message listed).1⟩

def overlaid : Project :=
  { bare ⟨"docs"⟩ (fun _ => .error .noWorkers) with
    config := { project := { docsDir := ⟨"docs"⟩ }, generation := { manifestFile := ⟨"call_graph.json"⟩ } } }

/-- A manifest that is kept where the call graph is kept is lost: the overview, which failed, is not
decided to have no entry but to have no manifest. -/
theorem run_loses_manifest : ∃ report after next ended,
    (overlaid.run none false newYear).run.run strayTree = (.ok report, after) ∧
      report.failed.map Prod.fst = ["index.md"] ∧
      (overlaid.run (overlaid.previous after) false newYear).run.run after = (.ok next, ended) ∧
      next.decisions["index.md"]? = some .noPriorManifest := by
  obtain ⟨report, ran, failed⟩ := exists_of_view (overlaid.run none false newYear) strayTree
    (fun report => report.failed.map Prod.fst) ["index.md"] (by decide +kernel)
  generalize lost : ((overlaid.run none false newYear).run.run strayTree).2 = after at ran
  have missing : (overlaid.previous after).isNone = true := by
    rw [← lost]
    decide +kernel
  obtain ⟨next, ranNext, decided⟩ := exists_of_view (overlaid.run none false newYear) after
    (fun report => report.decisions["index.md"]?) (some .noPriorManifest)
    (by rw [← lost]; decide +kernel)
  generalize ((overlaid.run none false newYear).run.run after).2 = ended at ranNext
  refine ⟨report, after, next, ended, ran, failed, ?_, decided⟩
  rw [Option.isNone_iff_eq_none.mp missing]
  exact ranNext

end Project

end SourceAtlas
