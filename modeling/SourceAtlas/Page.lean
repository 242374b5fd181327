import Std.Data.ExtTreeMap
import SourceAtlas.Json
/-!
Pages that a run is asked for, how they are named, and how one links to another.
-/

namespace SourceAtlas

/-- The first and the last line of a part of a file. -/
structure LineRange where
  first : Nat
  last : Nat
  deriving Repr, DecidableEq

abbrev LineInfo := Std.ExtTreeMap String LineRange

/-- A page to produce: its path below the docs directory, the source files it depends on, the lines
of them that it documents, the entities that it defines, and what is handed to its template. -/
structure PageRequest where
  path : String
  sources : List String
  lines : Option LineInfo
  entities : List String
  context : Json

namespace Page

def overview : String := "index.md"

def filesDir : String := "files"

def ofSource (path : String) : String := filesDir ++ "/" ++ path ++ ".md"

/-- The link from one page to another: up to the docs directory and down again. -/
def link (source target : String) : String :=
  String.join (List.replicate (source.toList.count '/') "../") ++ target

end Page

end SourceAtlas
