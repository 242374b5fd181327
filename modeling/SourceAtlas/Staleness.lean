import SourceAtlas.Manifest
/-!
Whether a page can be kept from the run before, and if not, why.
-/

namespace SourceAtlas

inductive Staleness where
  | noPriorManifest
  | noPriorPageEntry
  | hashMismatch (source : String)
  | sourceSetChanged
  | reusable
  deriving Repr, DecidableEq

namespace Staleness

def isStale : Staleness → Bool
  | reusable => false
  | _ => true

def reason : Staleness → String
  | noPriorManifest => "no_prior_manifest"
  | noPriorPageEntry => "no_prior_page_entry"
  | hashMismatch _ => "hash_mismatch"
  | sourceSetChanged => "source_set_changed"
  | reusable => "reusable"

def toJson : Staleness → Json
  | hashMismatch source => .obj [("reason", .str "hash_mismatch"), ("source", .str source)]
  | decision => .obj [("reason", .str decision.reason)]

/-- A source has a fingerprint now, and it is the recorded one. -/
def isCurrent (status : PageStatus) (hashes : FileHashes) (source : String) : Bool :=
  match hashes[source]?, status.hashes[source]? with
  | some now, some recorded => now == recorded
  | _, _ => false

def sameMembers (left right : List String) : Bool :=
  left.all right.contains && right.all left.contains

/-- Compares a request with what its page was made from: first each source in order, then the
sources as sets. -/
def ofStatus (status : PageStatus) (request : PageRequest) (hashes : FileHashes) : Staleness :=
  match request.sources.find? fun source => !isCurrent status hashes source with
  | some source => hashMismatch source
  | none => if sameMembers request.sources status.sources then reusable else sourceSetChanged

def classify (previous : Option Manifest) (request : PageRequest) (hashes : FileHashes) : Staleness :=
  match previous with
  | none => noPriorManifest
  | some manifest =>
      match manifest[request.path]? with
      | none => noPriorPageEntry
      | some status => ofStatus status request hashes

/-- The decisions about some requests by page; of several for one page the last counts. -/
def plan (requests : List PageRequest) (previous : Option Manifest) (hashes : FileHashes) :
    Std.ExtTreeMap String Staleness :=
  requests.foldl (fun decisions request =>
    decisions.insert request.path (classify previous request hashes)) ∅

end Staleness

end SourceAtlas
