import SourceAtlas.Diagram
import SourceAtlas.Json
/-!
The JSON forms of a call graph and of its drawable view.
-/

namespace SourceAtlas

/-- Callers as fields, in first-seen order. -/
def CallGraph.toJson (graph : CallGraph) : Json :=
  .obj (graph.toList.map fun (caller, callees) => (caller, .texts callees))

def DiagramNode.toJson (node : DiagramNode) : Json :=
  .obj [("id", .str node.id), ("name", .str node.name), ("label", .str node.label),
    ("kind", .str node.kind.text)]

def DiagramEdge.toJson (edge : DiagramEdge) : Json :=
  .obj [("from", .str edge.source), ("to", .str edge.target)]

def Projection.toJson : Projection → Json
  | .noGraph => .obj [("status", .str "no_graph")]
  | .graph diagram => .obj [("status", .str "graph"),
      ("nodes", .arr (diagram.nodes.map DiagramNode.toJson)),
      ("edges", .arr (diagram.edges.map DiagramEdge.toJson)),
      ("omitted_nodes", .natural diagram.omitted)]

end SourceAtlas
