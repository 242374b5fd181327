import SourceAtlas.Docs
import SourceAtlas.Manifest.Written
/-!
The manifest file. One that is missing or cannot be read counts as none.
-/

namespace SourceAtlas.Manifest

def load? (tree : FileTree) (path : Path) : Option Manifest :=
  match tree.readText path with
  | .ok text => ofText? text
  | .error _ => none

def save (manifest : Manifest) (path : Path) : Work Unit :=
  (Disk.writeAtomic path manifest.toText.toUTF8).adapt (Fault.unsavedManifest path)

end SourceAtlas.Manifest
