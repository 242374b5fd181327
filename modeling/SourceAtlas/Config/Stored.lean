import SourceAtlas.Config.Written
import SourceAtlas.FileTree
/-!
Settings files.
-/

namespace SourceAtlas.Config

/-- A path given on the command line, seen from the directory `root`. The empty path leads nowhere. -/
def seenFrom (root path : Path) : Path := if path.text.isEmpty then path else root.join path

def load (tree : FileTree) (root path : Path) : Except Fault Config :=
  match tree.readText (seenFrom root path) with
  | .ok text => ofText text
  | .error fault => .error (.io fault)

/-- The names of the settings file of a project, in the order they are looked for. -/
def fileNames : List String := ["Docwright.toml", "docwright.toml", ".docwright.toml"]

/-- The settings in a given file or else in the first settings file of a project. Without a file, the
settings are the given ones. -/
def loadOrDefault (tree : FileTree) (root : Path) (path : Option Path) : Except Fault Config :=
  let candidates := match path with
    | some path => [path]
    | none => fileNames.map Path.mk
  match candidates.find? fun path => tree.present (seenFrom root path) with
  | some path => load tree root path
  | none => .ok {}

end SourceAtlas.Config
