import SourceAtlas.Language
import SourceAtlas.Source
/-!
The name that a call node invokes and the name that a definition node gives, by language. Shapes that
a language does not recognise have no name.
-/

namespace SourceAtlas.Source

variable (source : Source)

/-- A function expression: a name, a field, the last part of a path, or one of these with type arguments. -/
def rustCallee? (node : source.tree.Node) : Option String :=
  if source.tree.kind node = "identifier" then source.nodeText? node
  else if source.tree.kind node = "field_expression" then source.fieldText? node "field"
  else if source.tree.kind node = "scoped_identifier" then source.fieldText? node "name"
  else if source.tree.kind node = "generic_function" then
    match _found : source.tree.childByField? node "function" with
    | none => none
    | some inner => rustCallee? inner
  else none
termination_by source.tree.rows.size - node.val
decreasing_by
  have below := SyntaxTree.lt_of_childByField? _found
  have bound := inner.isLt
  simp only [Fin.lt_def] at below
  omega

/-- A bare name, or the last part of a member access of the given kind. -/
def memberCallee? (access field : String) (node : source.tree.Node) : Option String :=
  if source.tree.kind node = "identifier" then source.nodeText? node
  else if source.tree.kind node = access then source.fieldText? node field
  else none

/-- A name, with type arguments or without. -/
def csharpName? (node : source.tree.Node) : Option String :=
  if source.tree.kind node = "identifier" then source.nodeText? node
  else if source.tree.kind node = "generic_name" then
    match source.tree.childByField? node "name" with
    | some name => source.nodeText? name
    | none => do
        source.nodeText? (← (source.tree.children node).find? fun child =>
          source.tree.kind child == "identifier")
  else none

def csharpCallee? (node : source.tree.Node) : Option String :=
  if source.tree.kind node = "member_access_expression" then do
    source.csharpName? (← source.tree.childByField? node "name")
  else source.csharpName? node

/-- The name that a call node invokes; receivers and paths are left out. -/
def callName? (language : Language) (call : source.tree.Node) : Option String :=
  match language with
  | .java => source.fieldText? call "name"
  | .rust => do source.rustCallee? (← source.tree.childByField? call "function")
  | .python => do
      source.memberCallee? "attribute" "attribute" (← source.tree.childByField? call "function")
  | .javascript => do
      source.memberCallee? "member_expression" "property" (← source.tree.childByField? call "function")
  | .csharp => do source.csharpCallee? (← source.tree.childByField? call "function")

/-- The type that an implementation block is for: type arguments and the path before it do not count. -/
def implementedType? (node : source.tree.Node) : Option String := do
  let written ← source.tree.childByField? node "type"
  let plain ←
    if source.tree.kind written = "generic_type" then source.tree.childByField? written "type"
    else some written
  if source.tree.kind plain = "scoped_type_identifier" then source.fieldText? plain "name"
  else source.nodeText? plain

def definedName? (language : Language) (node : source.tree.Node) : Option String :=
  if language = .rust ∧ source.tree.kind node = "impl_item" then source.implementedType? node
  else source.fieldText? node "name"

end SourceAtlas.Source
