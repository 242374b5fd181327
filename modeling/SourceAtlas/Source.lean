import SourceAtlas.SyntaxTree
import SourceAtlas.Text.Blank
/-!
A parsed source text: the bytes and the syntax tree over them.
-/

namespace SourceAtlas

structure Source where
  bytes : ByteArray
  tree : SyntaxTree

namespace Source

variable (source : Source)

/-- The text of a node without white space at its ends; a blank node has none. -/
def nodeText? (node : source.tree.Node) : Option String := do
  let row := source.tree.row node
  let text := Blank.trim (← String.fromUTF8? (source.bytes.extract row.start row.stop))
  if text.isEmpty then none else some text

def fieldText? (node : source.tree.Node) (field : String) : Option String := do
  source.nodeText? (← source.tree.childByField? node field)

/-- The number, from one, of the line that byte `offset` stands in. -/
def lineAt (offset : Nat) : Nat :=
  (source.bytes.extract 0 offset).toList.count 10 + 1

end Source

end SourceAtlas
