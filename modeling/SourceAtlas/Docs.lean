import SourceAtlas.Fault
/-!
The docs directory: page paths name files below it, and a path that could lead elsewhere is refused.
-/

namespace SourceAtlas

structure Docs where
  root : Path
  deriving Repr, DecidableEq

/-- Operations that answer a fault and may still have changed the file tree. -/
abbrev Work (α : Type) := ExceptT Fault (StateM FileTree) α

namespace Docs

variable (docs : Docs)

/-- Where a page is kept: its path must be made of names alone. -/
def locate (page : String) : Except Fault Path :=
  if page.isEmpty || !(Path.parts ⟨page⟩).all PathPart.isName then .error (.outsideDocs page)
  else .ok (docs.root.join ⟨page⟩)

def load (tree : FileTree) (page : String) : Except Fault String := do
  match tree.readText (← docs.locate page) with
  | .ok text => .ok text
  | .error fault => .error (.io fault)

def store (page body : String) : Work Unit := do
  match docs.locate page with
  | .ok path => (Disk.writeAtomic path body.toUTF8).adapt Fault.io
  | .error fault => throw fault

/-- Deletes a page, which may be missing. -/
def remove (page : String) : Work Unit := do
  match docs.locate page with
  | .error fault => throw fault
  | .ok path =>
      match (← get).unlink path with
      | .ok tree => set tree
      | .error .notFound => pure ()
      | .error fault => throw (.io fault)

/-- The pages on disk below a directory, by path. -/
def pagesBelow (tree : FileTree) (subdir : String) : List String :=
  let dir := docs.root.join ⟨subdir⟩
  match tree.stat dir, tree.place? dir, Path.afterParts? docs.root.parts dir.parts with
  | .ok .dir, some place, some above =>
      let pages := (tree.below place).filterMap fun (names, entry) =>
        let path := String.intercalate "/" (above.map PathPart.text ++ names)
        match entry with
        | .dir => none
        | .file _ => if Path.extension? ⟨path⟩ = some "md" then some path else none
      pages.mergeSort (· ≤ ·)
  | _, _, _ => []

end Docs

end SourceAtlas
