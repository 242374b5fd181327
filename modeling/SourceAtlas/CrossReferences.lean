import SourceAtlas.Json
import Std.Data.ExtTreeMap
/-!
Which pages document an entity.
-/

namespace SourceAtlas

/-- The pages of each entity, in order and without repetition. -/
abbrev CrossReferences := Std.ExtTreeMap String (List String)

namespace CrossReferences

/-- A sorted list with a page at its place, unless it is there already. -/
def insertPage (page : String) : List String → List String
  | [] => [page]
  | first :: rest =>
      if page < first then page :: first :: rest
      else if page = first then first :: rest
      else first :: insertPage page rest

def register (references : CrossReferences) (page : String) (entities : List String) :
    CrossReferences :=
  entities.foldl (fun references entity =>
    references.insert entity (insertPage page (references.getD entity []))) references

/-- The pages of an entity; none for a name that no page documents. -/
def pagesFor (references : CrossReferences) (entity : String) : List String :=
  references.getD entity []

def toJson (references : CrossReferences) : Json :=
  .obj (references.toList.map fun (entity, pages) => (entity, .texts pages))

end CrossReferences

end SourceAtlas
