import SourceAtlas.Json.Reader
import SourceAtlas.Manifest
/-!
The manifest as JSON text. A record may also be read from an array of its fields in order; fields
that are not known do not count, and a known one must not be repeated.
-/

namespace SourceAtlas

def Json.ofMap {α : Type} (write : α → Json) (map : Std.ExtTreeMap String α) : Json :=
  .obj (map.toList.map fun (key, value) => (key, write value))

def LineRange.toJson (range : LineRange) : Json :=
  .obj [("startLine", .natural range.first), ("endLine", .natural range.last)]

def LineInfo.toJson (lines : LineInfo) : Json := .ofMap LineRange.toJson lines

namespace PageStatus

/-- The fields of a status but for its time. -/
def timelessFields (status : PageStatus) : List (String × Json) :=
  [("sourceFiles", .texts status.sources), ("sourceHashes", .ofMap .str status.hashes)] ++
    (match status.lines with
      | some lines => [("sourceLineInfo", lines.toJson)]
      | none => []) ++
    [("contentHash", .str status.contentHash)]

def toJson (status : PageStatus) : Json :=
  .obj (status.timelessFields ++ [("generatedAt", .str status.generatedAt.toText)])

end PageStatus

namespace Json

/-- The values of a record's fields, from an object or from an array. Outside, none is a field that
is missing; the whole is none when a field is repeated or the array has another length. -/
def recordFields? (names : List String) : Json → Option (List (Option Json))
  | arr items => if items.length = names.length then some (items.map some) else none
  | obj fields => names.mapM fun name =>
      match fields.filter fun field => field.1 == name with
      | [] => some none
      | [field] => some (some field.2)
      | _ => none
  | _ => none

def lineLimit : Nat := 18446744073709551616

def line? : Json → Option Nat
  | natural n => if n < lineLimit then some n else none
  | _ => none

def texts? : Json → Option (List String)
  | arr items => items.mapM text?
  | _ => none

/-- A string map; of several fields with one name the last counts. -/
def map? {α : Type} (read : Json → Option α) : Json → Option (Std.ExtTreeMap String α)
  | obj fields => do
      let entries ← fields.mapM fun (key, value) => do return (key, ← read value)
      return entries.foldl (fun map (key, value) => map.insert key value) ∅
  | _ => none

def nullable? {α : Type} (read : Json → Option α) : Json → Option (Option α)
  | null => some none
  | json => (read json).map some

def timestamp? (json : Json) : Option Timestamp := do Timestamp.ofText? (← json.text?)

def lineRange? (json : Json) : Option LineRange := do
  let [some first, some last] ← json.recordFields? ["startLine", "endLine"] | none
  return { first := ← first.line?, last := ← last.line? }

def pageStatus? (json : Json) : Option PageStatus := do
  let [some sources, some hashes, lines, some contentHash, some generatedAt] ←
    json.recordFields?
      ["sourceFiles", "sourceHashes", "sourceLineInfo", "contentHash", "generatedAt"] | none
  return {
    sources := ← sources.texts?
    hashes := ← hashes.map? text?
    lines := ← (lines.getD null).nullable? (map? lineRange?)
    contentHash := ← contentHash.text?
    generatedAt := ← generatedAt.timestamp? }

end Json

namespace Manifest

def toJson (manifest : Manifest) : Json := .obj [("pages", .ofMap PageStatus.toJson manifest)]

def toText (manifest : Manifest) : String := manifest.toJson.toPretty

/-- The manifest that a text holds, unless it is malformed or not valid. -/
def ofText? (text : String) : Option Manifest := do
  let [some pages] ← (← Json.parse? text).recordFields? ["pages"] | none
  let manifest : Manifest ← pages.map? Json.pageStatus?
  if manifest.isValid then some manifest else none

end Manifest

end SourceAtlas
