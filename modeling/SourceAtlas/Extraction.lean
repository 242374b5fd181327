import SourceAtlas.CallGraph
import SourceAtlas.CallName
import SourceAtlas.Noise
/-!
What one source file declares: its functions, classes and methods as entities, and the calls that the
functions and methods make.
-/

namespace SourceAtlas

/-- What a definition is; a method is a function that belongs to a class. -/
inductive EntityKind where
  | function
  | type
  | method
  deriving Repr, DecidableEq

def EntityKind.text : EntityKind → String
  | function => "function"
  | .type => "class"
  | method => "method"

/-- A named definition with its first and last line, counted from one. A method's name is
`Class.method`. -/
structure Entity where
  name : String
  kind : EntityKind
  startLine : Nat
  endLine : Nat
  deriving Repr, DecidableEq

/-- The calls and the entities of one file, the entities by their lines. -/
structure FileAnalysis where
  graph : CallGraph := {}
  entities : List Entity := []

namespace FileAnalysis

def lineSpan? (analysis : FileAnalysis) : Option (Nat × Nat) := do
  let first ← (analysis.entities.map Entity.startLine).min?
  let last ← (analysis.entities.map Entity.endLine).max?
  return (first, last)

end FileAnalysis

namespace Source

variable (source : Source) (language : Language)

def entityOf (name : String) (kind : EntityKind) (node : source.tree.Node) : Entity where
  name
  kind
  startLine := source.lineAt (source.tree.row node).start
  endLine := source.lineAt (source.tree.row node).stop

/-- The node whose calls count as those of a definition: its body, or all of it. -/
def bodyOf (node : source.tree.Node) : source.tree.Node :=
  (source.tree.childByField? node "body").getD node

/-- The names called in a definition, each once, in the order they are first called. -/
def callsIn (noise : NoiseWords) (node : source.tree.Node) : List String :=
  let calls := source.tree.findOfKind (source.bodyOf node) language.callKinds
  ((calls.filterMap (source.callName? language)).filter fun name =>
    !noise.isNoise name language.tag).eraseDups

structure Definition where
  name : String
  kind : EntityKind
  node : source.tree.Node

def freeFunctions : List (Definition source) :=
  (source.tree.findOfKind source.tree.root language.functionKinds).filterMap fun node =>
    if source.tree.hasAncestorOfKind node language.classKinds then none
    else (source.definedName? language node).map fun name => ⟨name, .function, node⟩

/-- The function nodes whose closest function or class is `owner`. -/
def methodsOf (owner : source.tree.Node) : List source.tree.Node :=
  (source.tree.findOfKind owner language.functionKinds).filter fun node =>
    source.tree.nearestAncestor? node (fun above =>
      language.functionKinds.contains (source.tree.kind above) ||
        language.classKinds.contains (source.tree.kind above)) == some owner

/-- The named classes, each followed by its named methods. -/
def classDefinitions : List (Definition source) :=
  (source.tree.findOfKind source.tree.root language.classKinds).flatMap fun node =>
    match source.definedName? language node with
    | none => []
    | some owner => ⟨owner, .type, node⟩ :: (source.methodsOf language node).filterMap fun method =>
        (source.definedName? language method).map fun name =>
          ⟨owner ++ "." ++ name, .method, method⟩

/-- The definitions in the order they are looked up: free functions, then class by class. -/
def definitions : List (Definition source) :=
  source.freeFunctions language ++ source.classDefinitions language

/-- Adds a definition's calls to a graph; a class makes none of its own. -/
def addDefinition (noise : NoiseWords) (graph : CallGraph) (definition : Definition source) : CallGraph :=
  match definition.kind with
  | .type => graph
  | _ => graph.addCalls definition.name (source.callsIn language noise definition.node)

/-- By first line, then by last line. -/
def startsBefore (left right : Entity) : Bool :=
  left.startLine < right.startLine ||
    (left.startLine == right.startLine && left.endLine ≤ right.endLine)

def analyze (noise : NoiseWords) : FileAnalysis where
  graph := (source.definitions language).foldl (source.addDefinition language noise) {}
  entities := ((source.definitions language).map fun definition =>
    source.entityOf definition.name definition.kind definition.node).mergeSort startsBefore

end Source

end SourceAtlas
