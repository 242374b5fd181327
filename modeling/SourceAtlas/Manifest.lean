import SourceAtlas.Fingerprint
import SourceAtlas.Page
import SourceAtlas.Timestamp
/-!
The manifest: what each page was made from when it was last made. A run reads the manifest of the run
before it and records a new one.
-/

namespace SourceAtlas

/-- What a page was made from: its source files, the fingerprints of those that had one, the lines it
documents, the fingerprint of its text, and when it was made. -/
structure PageStatus where
  sources : List String
  hashes : FileHashes
  lines : Option LineInfo
  contentHash : String
  generatedAt : Timestamp

namespace PageStatus

def ofPage (hashes : FileHashes) (now : Timestamp) (sources : List String) (lines : Option LineInfo)
    (body : String) : PageStatus where
  sources
  hashes := sources.foldl (fun known source =>
    match hashes[source]? with
    | some hash => known.insert source hash
    | none => known) ∅
  lines
  contentHash := Fingerprint.ofText body
  generatedAt := now

/-- A status has the fingerprint of a text, and fingerprints of none but its own sources. -/
def isValid (status : PageStatus) : Bool :=
  !status.contentHash.isEmpty && status.hashes.keys.all fun source => status.sources.contains source

end PageStatus

abbrev Manifest := Std.ExtTreeMap String PageStatus

namespace Manifest

/-- Every page has a path and a valid status. -/
def isValid (manifest : Manifest) : Bool :=
  manifest.toList.all fun (page, status) => !page.isEmpty && status.isValid

end Manifest

/-- The manifest of the run at hand, with the fingerprints that the run goes by. -/
structure Recorder where
  hashes : FileHashes
  manifest : Manifest := ∅

namespace Recorder

def record (recorder : Recorder) (now : Timestamp) (page : String) (sources : List String)
    (body : String) (lines : Option LineInfo) : Recorder :=
  { recorder with
    manifest := recorder.manifest.insert page (.ofPage recorder.hashes now sources lines body) }

/-- Keeps the status that a page had before. -/
def carry (recorder : Recorder) (page : String) (status : PageStatus) : Recorder :=
  { recorder with manifest := recorder.manifest.insert page status }

end Recorder

end SourceAtlas
