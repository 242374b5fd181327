import Std.Time.DateTime.Timestamp
import SourceAtlas.CommandLine
import SourceAtlas.Json.Reader
import SourceAtlas.SyntaxTree.TreeBank
/-!
The program. It takes up the working directory as a file tree, carries out what its arguments ask
for, and puts the changes back. The syntax trees of the sources are read from a file beside them.
-/

namespace SourceAtlas

def treeBankFile : String := ".docwright-trees.json"

/-- The bank in the file of that name below a directory; without one it is empty. -/
def TreeBank.load (tree : FileTree) (root : Path) : TreeBank :=
  match tree.readText (root.join ⟨treeBankFile⟩) with
  | .ok text => ((Json.parse? text).map TreeBank.ofJson).getD []
  | .error _ => []

/-- The directories down to a place, which is one itself. -/
def FileTree.ofPlace (place : Place) : FileTree :=
  (List.range (place.length + 1)).foldl (fun tree count =>
    if count = 0 then tree else tree.insert (place.take count) .dir) {}

/-- The directories and files below a directory; links are passed over. -/
partial def takeUp (dir : IO.FS.DirEntry) (place : Place) (tree : FileTree) : IO FileTree := do
  let kind := (← dir.path.symlinkMetadata).type
  match kind with
  | .dir => do
      let mut tree := tree.insert place .dir
      for entry in ← dir.path.readDir do
        tree ← takeUp entry (place ++ [entry.fileName]) tree
      return tree
  | .file => return tree.insert place (.file (← IO.FS.readBinFile dir.path))
  | _ => return tree

def pathText (place : Place) : String := "/" ++ String.intercalate "/" place

/-- Puts a finished file in place of the one that is there. -/
def putFile (place : Place) (content : ByteArray) : IO Unit := do
  let finished := pathText place ++ ".docwright-tmp"
  IO.FS.writeBinFile finished content
  IO.FS.rename finished (pathText place)

/-- Makes the disk what a tree says, where it says something else than before. -/
def putBack (before after : FileTree) : IO Unit := do
  for (place, entry) in after.entries.toList do
    match entry with
    | .dir => if before.find? place != some .dir then IO.FS.createDirAll (pathText place)
    | .file content =>
        if before.find? place != some (.file content) then putFile place content
  for (place, _) in before.files do
    if (after.find? place).isNone then IO.FS.removeFile (pathText place)

def clock : IO Timestamp := do
  let now ← Std.Time.Timestamp.now
  match Timestamp.ofNanos? now.toNanosecondsSinceUnixEpoch.val with
  | some time => return time
  | none => throw (IO.userError "the clock shows no date")

/-- Carries out what arguments ask for in a directory. -/
def runIn (dir : IO.FS.DirEntry) (place : Place) (arguments : List String) : IO Outcome := do
  let before ← takeUp dir place (FileTree.ofPlace place)
  let root : Path := ⟨pathText place⟩
  let surroundings : Surroundings := {
    root
    parser := (TreeBank.load before root).parser
    cancelled := false
    schedule := { now := ← clock } }
  let (outcome, after) := ((Request.ofArguments arguments).run surroundings).run before
  putBack before after
  return outcome

end SourceAtlas

open SourceAtlas in
def main (arguments : List String) : IO UInt32 := do
  let current ← IO.currentDir
  let place := ((toString current).splitOn "/").filter fun name => !name.isEmpty
  let outcome ← runIn { root := current, fileName := "." } place arguments
  for line in outcome.output do
    IO.println line
  for line in outcome.errors do
    IO.eprintln line
  return UInt32.ofNat outcome.exitCode
