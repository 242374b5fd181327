import SourceAtlas.Json
import SourceAtlas.ParsedFile
/-!
Syntax trees as JSON documents, and banks of the trees of known texts. A bank stands in for a parser:
it answers the tree it holds for a text in a language, and a tree of one node for any other text.
-/

namespace SourceAtlas

namespace SyntaxTree

/-- The fields that a document numbers. -/
def fieldNames : Array String := #["name", "body", "function", "type", "field", "property", "attribute"]

def nameAt? (table : Array String) : Json → Option String
  | .natural index => table[index]?
  | _ => none

/-- The row `[parent, kind, field, start, end]`; a negative parent or field is none. -/
def rowOfJson? (kinds : Array String) : Json → Option SyntaxRow
  | .arr [parent, kind, field, start, stop] => do
      return { parent := parent.natural?
               kind := ← nameAt? kinds kind
               field := nameAt? fieldNames field
               start := ← start.natural?
               stop := ← stop.natural? }
  | _ => none

/-- The tree in a document `{"kinds": [...], "nodes": [row...]}`. -/
def ofJson? (document : Json) : Option SyntaxTree :=
  match document.field? "kinds", document.field? "nodes" with
  | some (.arr kinds), some (.arr rows) => do
      let kinds ← kinds.mapM Json.text?
      let rows ← rows.mapM (rowOfJson? kinds.toArray)
      ofRows? rows.toArray
  | _, _ => none

end SyntaxTree

abbrev TreeBank := List ((String × String) × SyntaxTree)

namespace TreeBank

def insert (bank : TreeBank) (language text : String) (tree : SyntaxTree) : TreeBank :=
  ((language, text), tree) :: bank

def parser (bank : TreeBank) : Parser := fun language text =>
  (bank.lookup (language.tag, text)).getD (.leaf "" text.utf8ByteSize)

/-- The entry `{"language": ..., "source": ..., "tree": ...}`. -/
def entryOfJson? (entry : Json) : Option ((String × String) × SyntaxTree) :=
  match entry.field? "language", entry.field? "source", entry.field? "tree" with
  | some (.str language), some (.str text), some tree => do
      return ((language, text), ← SyntaxTree.ofJson? tree)
  | _, _, _ => none

/-- The bank in an array of entries; what is no entry is passed over. -/
def ofJson : Json → TreeBank
  | .arr entries => entries.filterMap entryOfJson?
  | _ => []

end TreeBank

end SourceAtlas
