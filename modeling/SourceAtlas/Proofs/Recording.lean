import SourceAtlas.Proofs.CurrentManifest
/-!
Manifests that are recorded call by call. Of several calls for a page the last counts, and what was
recorded is read back from the file that it is saved to, by whatever calls it came about.
-/

namespace SourceAtlas

open FileTree

/-- A call to a recorder: a page that has just been made, or one that is kept. -/
inductive RecorderCall where
  | record (now : Timestamp) (page : String) (sources : List String) (body : String)
      (lines : Option LineInfo)
  | carry (page : String) (status : PageStatus)

namespace RecorderCall

def page : RecorderCall → String
  | record _ page _ _ _ => page
  | carry page _ => page

def status (hashes : FileHashes) : RecorderCall → PageStatus
  | record now _ sources body lines => .ofPage hashes now sources lines body
  | carry _ status => status

/-- A page has a path; lines that are recorded fit their type, and a status that is carried over is one
of a manifest file. -/
def IsProper : RecorderCall → Prop
  | record _ page _ _ lines => page ≠ "" ∧ ∀ given, lines = some given →
      ∀ (source : String) (range : LineRange), given[source]? = some range → range.IsReadable
  | carry page status => page ≠ "" ∧ ∃ (tree : FileTree) (path : Path) (manifest : Manifest) (key : String),
      Manifest.load? tree path = some manifest ∧ manifest[key]? = some status

theorem IsProper.status_isReadable {call : RecorderCall} (proper : call.IsProper) (hashes : FileHashes) :
    call.page ≠ "" ∧ (call.status hashes).isValid = true ∧ (call.status hashes).IsReadable := by
  cases call with
  | record now page sources body lines =>
      obtain ⟨filled, ranged⟩ := proper
      exact ⟨filled, PageStatus.isValid_ofPage .., ranged⟩
  | carry page status =>
      obtain ⟨filled, tree, path, manifest, key, loaded, entry⟩ := proper
      unfold Manifest.load? at loaded
      split at loaded
      · obtain ⟨valid, readable⟩ := Manifest.isValid_of_ofText? loaded
        exact ⟨filled, (manifest.isValid_iff.mp valid key status entry).2, readable key status entry⟩
      · cases loaded

end RecorderCall

namespace Recorder

def apply (recorder : Recorder) : RecorderCall → Recorder
  | .record now page sources body lines => recorder.record now page sources body lines
  | .carry page status => recorder.carry page status

def applyAll (recorder : Recorder) (calls : List RecorderCall) : Recorder := calls.foldl apply recorder

theorem apply_hashes (recorder : Recorder) (call : RecorderCall) :
    (recorder.apply call).hashes = recorder.hashes := by
  cases call <;> rfl

theorem apply_manifest (recorder : Recorder) (call : RecorderCall) :
    (recorder.apply call).manifest =
      recorder.manifest.insert call.page (call.status recorder.hashes) := by
  cases call <;> rfl

/-- The entry of a page is what the last call for it has left, or what was there before. -/
theorem applyAll_getElem? (recorder : Recorder) (calls : List RecorderCall) (page : String) :
    (recorder.applyAll calls).manifest[page]? =
      (((calls.filter fun call => call.page = page).getLast?).map
        (RecorderCall.status recorder.hashes)).or recorder.manifest[page]? := by
  induction calls generalizing recorder with
  | nil => rfl
  | cons call rest ih =>
      -- the first call counts only if no later one is for its page
      have stepped : recorder.applyAll (call :: rest) = (recorder.apply call).applyAll rest := rfl
      rw [stepped, ih, apply_hashes, apply_manifest, Std.ExtTreeMap.getElem?_insert]
      by_cases same : call.page = page
      · rw [List.filter_cons_of_pos (by simpa using same), List.getLast?_cons]
        cases (rest.filter fun call => call.page = page).getLast? <;> simp [same]
      · rw [List.filter_cons_of_neg (by simpa using same)]
        simp [same]

theorem start_getElem? (hashes : FileHashes) (calls : List RecorderCall) (page : String) :
    (Recorder.applyAll { hashes } calls).manifest[page]? =
      ((calls.filter fun call => call.page = page).getLast?).map (RecorderCall.status hashes) := by
  rw [applyAll_getElem?]
  simp

theorem applyAll_isReadable (hashes : FileHashes) {calls : List RecorderCall}
    (proper : ∀ call ∈ calls, call.IsProper) :
    (Recorder.applyAll { hashes } calls).manifest.isValid = true ∧
      (Recorder.applyAll { hashes } calls).manifest.IsReadable := by
  have entries : ∀ page status, (Recorder.applyAll { hashes } calls).manifest[page]? = some status →
      page ≠ "" ∧ status.isValid = true ∧ status.IsReadable := by
    intro page status found
    rw [start_getElem?] at found
    obtain ⟨call, last, rfl⟩ := Option.map_eq_some_iff.mp found
    obtain ⟨member, same⟩ := List.mem_filter.mp (List.mem_of_getLast? last)
    rw [← of_decide_eq_true same]
    exact (proper call member).status_isReadable hashes
  constructor
  · apply (Manifest.isValid_iff _).mpr
    intro page status found
    exact ⟨(entries page status found).1, (entries page status found).2.1⟩
  · intro page status found
    exact (entries page status found).2.2

end Recorder

namespace Manifest

theorem load?_of_save {manifest : Manifest} (valid : manifest.isValid = true)
    (readable : manifest.IsReadable) {path : Path} {tree after : FileTree}
    (saved : (manifest.save path).run.run tree = (.ok (), after)) :
    load? after path = some manifest := by
  obtain ⟨-, reached, -, held⟩ := Disk.changes_of_writeAtomic saved
  unfold load?
  rw [(readText_eq_ok_iff after path manifest.toText).mpr ⟨reached, held⟩]
  exact ofText?_toText valid readable

/-- A manifest is saved where no directory stands, in a directory that is there. -/
theorem save_ok (manifest : Manifest) {path : Path} {tree : FileTree} (reached : tree.Reaches path)
    (there : tree.isDir (Disk.parentOf path) = true) (free : tree.find? path.place ≠ some .dir) :
    ∃ after, (manifest.save path).run.run tree = (.ok (), after) := by
  have replaced := (replace_eq_ok_iff tree _ path manifest.toText.toUTF8).mpr ⟨reached, free, rfl⟩
  refine ⟨tree.insert path.place (.file manifest.toText.toUTF8), ?_⟩
  rw [save, run_adapt, Disk.run_writeAtomic, Disk.run_createDirAll_of_isDir there]
  simp only [replaced]
  rfl

end Manifest

/-- What a recorder has after proper calls, in any order and with any pages repeated: for each page the
status that the last call for it has left. Where it can be saved it is, whatever the file has held, and
the file then holds this manifest for the next run. -/
theorem Recorder.saved_loads (hashes : FileHashes) {calls : List RecorderCall}
    (proper : ∀ call ∈ calls, call.IsProper) :
    ∃ manifest, (Recorder.applyAll { hashes } calls).manifest = manifest ∧
      (∀ page, manifest[page]? =
        ((calls.filter fun call => call.page = page).getLast?).map (RecorderCall.status hashes)) ∧
      ∀ (tree : FileTree) (path : Path),
        (tree.Reaches path → tree.isDir (Disk.parentOf path) = true →
          tree.find? path.place ≠ some .dir →
            ∃ after, (manifest.save path).run.run tree = (.ok (), after)) ∧
        ∀ after, (manifest.save path).run.run tree = (.ok (), after) →
          Manifest.load? after path = some manifest := by
  obtain ⟨valid, readable⟩ := applyAll_isReadable hashes proper
  refine ⟨_, rfl, start_getElem? hashes calls, fun tree path => ⟨?_, fun after saved => ?_⟩⟩
  · exact Manifest.save_ok _
  · exact Manifest.load?_of_save valid readable saved

/-- A call for a page that is made from a source without a fingerprint, which it lists twice. -/
def recordOf (page source : String) : RecorderCall :=
  .record Project.newYear page [source, source] "text" none

theorem recordOf_isProper {page : String} (filled : page ≠ "") (source : String) :
    (recordOf page source).IsProper := ⟨filled, nofun⟩

theorem Recorder.saved_loads_of_repeated : ∃ after manifest status,
    (Recorder.applyAll { hashes := ∅ } [.carry "b.md" status, recordOf "a.md" "a.py",
      recordOf "a.md" "c.py"]).manifest = manifest ∧
      (manifest.save ⟨"/m.json"⟩).run.run ({} : FileTree) = (.ok (), after) ∧
      Manifest.load? after ⟨"/m.json"⟩ = some manifest ∧
      manifest["a.md"]?.map PageStatus.sources = some ["c.py", "c.py"] ∧
      manifest["b.md"]? = some status := by
  have reached : ({} : FileTree).Reaches ⟨"/m.json"⟩ :=
    ⟨[], "m.json", Project.ok_of_toOption (by decide +kernel), by decide⟩
  have there : ({} : FileTree).isDir (Disk.parentOf ⟨"/m.json"⟩) = true := by decide +kernel
  have free : ({} : FileTree).find? (Path.place ⟨"/m.json"⟩) ≠ some .dir := by decide +kernel
  -- the status that is carried over is one of a manifest that was saved before
  have before : ∀ call ∈ [recordOf "b.md" "b.py"], call.IsProper := by
    intro call member
    rw [List.mem_singleton.mp member]
    exact recordOf_isProper (by decide) "b.py"
  obtain ⟨first, -, firstEntries, firstFile⟩ := Recorder.saved_loads ∅ before
  obtain ⟨saved, firstSaved⟩ := (firstFile {} ⟨"/m.json"⟩).1 reached there free
  have loaded := (firstFile {} ⟨"/m.json"⟩).2 saved firstSaved
  have entry := firstEntries "b.md"
  simp only [recordOf, RecorderCall.page, List.filter, decide_true, List.getLast?_singleton,
    Option.map_some] at entry
  generalize RecorderCall.status ∅ _ = status at entry
  have proper : ∀ call ∈ [.carry "b.md" status, recordOf "a.md" "a.py", recordOf "a.md" "c.py"],
      call.IsProper := by
    simp only [List.forall_mem_cons]
    exact ⟨⟨by decide, saved, ⟨"/m.json"⟩, first, "b.md", loaded, entry⟩,
      recordOf_isProper (by decide) "a.py", recordOf_isProper (by decide) "c.py", List.forall_mem_nil _⟩
  obtain ⟨manifest, recorded, entries, file⟩ := Recorder.saved_loads ∅ proper
  obtain ⟨after, again⟩ := (file {} ⟨"/m.json"⟩).1 reached there free
  refine ⟨after, manifest, status, recorded, again, (file {} ⟨"/m.json"⟩).2 after again, ?_, ?_⟩
  · rw [entries]
    rfl
  · rw [entries]
    rfl

end SourceAtlas
