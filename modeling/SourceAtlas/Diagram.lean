import SourceAtlas.CallGraph
/-!
Diagrams: the best-connected names of a call graph, up to a limit, with the edges between them.
-/

namespace SourceAtlas

/-- How a node is styled: names with a dot or a double colon stand for members. -/
inductive NodeKind where
  | qualified
  | function
  deriving Repr, DecidableEq

namespace NodeKind

def text : NodeKind → String
  | qualified => "qualified"
  | function => "function"

def isQualified : List Char → Bool
  | [] => false
  | '.' :: _ => true
  | ':' :: ':' :: _ => true
  | _ :: rest => isQualified rest

def ofName (name : String) : NodeKind :=
  if isQualified name.toList then qualified else function

end NodeKind

/-- A node with the name that it stands for and the label that it shows. -/
structure DiagramNode where
  id : String
  name : String
  label : String
  kind : NodeKind
  deriving Repr, DecidableEq

structure DiagramEdge where
  source : String
  target : String
  deriving Repr, DecidableEq

/-- Nodes, edges between them, and the number of names that have no node. -/
structure Diagram where
  nodes : List DiagramNode
  edges : List DiagramEdge
  omitted : Nat
  deriving Repr, DecidableEq

inductive Projection where
  | noGraph
  | graph (diagram : Diagram)
  deriving Repr, DecidableEq

namespace Projection

def isNoGraph : Projection → Bool
  | noGraph => true
  | graph _ => false

def diagram? : Projection → Option Diagram
  | noGraph => none
  | graph diagram => some diagram

end Projection

namespace Diagram

/-- A name cut to `budget` characters, the last of which marks the cut. -/
def truncateLabel (name : String) (budget : Nat) : String :=
  if name.length ≤ budget then name
  else if budget = 0 then ""
  else String.ofList (name.toList.take (budget - 1) ++ ['…'])

/-- The positions of the `limit` highest scores, earlier ones first among equals, in increasing order. -/
def rank (scores : List Nat) (limit : Nat) : List Nat :=
  if scores.length ≤ limit then List.range scores.length
  else ((scores.zipIdx.mergeSort fun left right => right.1 ≤ left.1).take limit).map Prod.snd
    |>.mergeSort (· ≤ ·)

/-- Names in the order they are first seen, each with a score. `slots` tells where a name stands. -/
structure Tally where
  names : Array String := #[]
  scores : Array Nat := #[]
  slots : Std.ExtTreeMap String Nat := ∅

namespace Tally

/-- Adds to the score of a name; a new name gets a place at the end. -/
def add (tally : Tally) (name : String) (amount : Nat) : Tally :=
  match tally.slots[name]? with
  | some slot => { tally with scores := tally.scores.modify slot (· + amount) }
  | none =>
      { names := tally.names.push name
        scores := tally.scores.push amount
        slots := tally.slots.insert name tally.names.size }

/-- The names of a graph, scored by the edges at them: each caller, then its callees. -/
def ofGraph (graph : CallGraph) : Tally :=
  graph.toList.foldl (fun tally (caller, callees) =>
    callees.foldl (fun tally callee => tally.add callee 1) (tally.add caller callees.length)) {}

/-- The `limit` best names, as they stand in the tally. -/
def best (tally : Tally) (limit : Nat) : List String :=
  (rank tally.scores.toList limit).filterMap fun slot => tally.names[slot]?

end Tally

def nodeId (position : Nat) : String := "n" ++ toString position

def idOf? (kept : List String) (name : String) : Option String :=
  (kept.idxOf? name).map nodeId

/-- Names only those nodes that `limit` lets in, labelled within `budget` characters. -/
def ofGraph (graph : CallGraph) (limit budget : Nat) : Diagram :=
  let tally := Tally.ofGraph graph
  let kept := tally.best limit
  { nodes := kept.zipIdx.map fun (name, position) =>
      { id := nodeId position
        name
        label := truncateLabel name budget
        kind := NodeKind.ofName name }
    edges := graph.edges.filterMap fun (caller, callee) =>
      match idOf? kept caller, idOf? kept callee with
      | some source, some target => some ⟨source, target⟩
      | _, _ => none
    omitted := tally.names.size - kept.length }

def escapeLabel (label : List Char) : List Char :=
  label.flatMap fun c => if c = '"' then "#quot;".toList else [c]

def nodeLine (node : DiagramNode) : String :=
  let quoted := "    " ++ node.id ++ "[\"" ++ String.ofList (escapeLabel node.label.toList) ++ "\"]"
  match node.kind with
  | .qualified => quoted ++ ":::qualified\n"
  | .function => quoted ++ "\n"

def edgeLine (edge : DiagramEdge) : String :=
  "    " ++ edge.source ++ " --> " ++ edge.target ++ "\n"

def mermaid (diagram : Diagram) : String :=
  "flowchart LR\n" ++ String.join (diagram.nodes.map nodeLine) ++
    String.join (diagram.edges.map edgeLine) ++
    "    classDef qualified fill:#eef3ff,stroke:#5b6fa8"

end Diagram

namespace CallGraph

/-- The diagram of a graph; a graph without edges has none. -/
def project (graph : CallGraph) (limit budget : Nat) : Projection :=
  if graph.isEmpty then .noGraph else .graph (Diagram.ofGraph graph limit budget)

end CallGraph

end SourceAtlas
