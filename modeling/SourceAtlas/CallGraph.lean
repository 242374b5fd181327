import Std.Data.ExtTreeMap
/-!
Call graphs: which name calls which, in the order the calls were first seen. `CallGraph` leads from
callers to callees and `UsedBy` back again; both are an `Adjacency`.
-/

namespace SourceAtlas

/-- Names under keys, both in first-seen order and without repetition. `slots` tells where a key's
entry stands. -/
structure Adjacency where
  entries : Array (String × List String) := #[]
  slots : Std.ExtTreeMap String Nat := ∅

namespace Adjacency

def toList (adjacency : Adjacency) : List (String × List String) := adjacency.entries.toList

def get? (adjacency : Adjacency) (key : String) : Option (List String) := do
  let slot ← adjacency.slots[key]?
  let entry ← adjacency.entries[slot]?
  return entry.2

/-- A list with a name at its end, unless the name is in it already. -/
def addName (names : List String) (name : String) : List String :=
  if names.contains name then names else names ++ [name]

/-- Puts a name under a key. An empty key or name is nothing to put. -/
def add (adjacency : Adjacency) (key name : String) : Adjacency :=
  if key.isEmpty || name.isEmpty then adjacency
  else match adjacency.slots[key]? with
    | some slot =>
        { adjacency with
          entries := adjacency.entries.modify slot fun entry => (entry.1, addName entry.2 name) }
    | none =>
        { entries := adjacency.entries.push (key, [name])
          slots := adjacency.slots.insert key adjacency.entries.size }

def addPairs (adjacency : Adjacency) (pairs : List (String × String)) : Adjacency :=
  pairs.foldl (fun grown pair => grown.add pair.1 pair.2) adjacency

def pairs (adjacency : Adjacency) : List (String × String) :=
  adjacency.toList.flatMap fun (key, names) => names.map fun name => (key, name)

def size (adjacency : Adjacency) : Nat := adjacency.entries.size

def isEmpty (adjacency : Adjacency) : Bool := adjacency.entries.isEmpty

instance : BEq Adjacency := ⟨fun left right => left.entries == right.entries⟩

end Adjacency

structure CallGraph where
  adjacency : Adjacency := {}
  deriving BEq

namespace CallGraph

def toList (graph : CallGraph) : List (String × List String) := graph.adjacency.toList

def edges (graph : CallGraph) : List (String × String) := graph.adjacency.pairs

def addCalls (graph : CallGraph) (caller : String) (callees : List String) : CallGraph :=
  { adjacency := graph.adjacency.addPairs (callees.map fun callee => (caller, callee)) }

def ofList (calls : List (String × List String)) : CallGraph :=
  calls.foldl (fun graph (caller, callees) => graph.addCalls caller callees) {}

def callees? (graph : CallGraph) (caller : String) : Option (List String) :=
  graph.adjacency.get? caller

def containsEdge (graph : CallGraph) (caller callee : String) : Bool :=
  ((graph.callees? caller).getD []).contains callee

def callers (graph : CallGraph) : List String := graph.toList.map Prod.fst

def size (graph : CallGraph) : Nat := graph.adjacency.size

def isEmpty (graph : CallGraph) : Bool := graph.adjacency.isEmpty

def edgeCount (graph : CallGraph) : Nat := (graph.toList.flatMap Prod.snd).length

/-- Adds all edges of `other`, in its order. -/
def merge (graph other : CallGraph) : CallGraph :=
  other.toList.foldl (fun merged (caller, callees) => merged.addCalls caller callees) graph

end CallGraph

/-- Names and the callers that use them: call graphs read backwards. -/
structure UsedBy where
  adjacency : Adjacency := {}
  deriving BEq

namespace UsedBy

def toList (usedBy : UsedBy) : List (String × List String) := usedBy.adjacency.toList

def addGraph (usedBy : UsedBy) (graph : CallGraph) : UsedBy :=
  { adjacency := usedBy.adjacency.addPairs (graph.edges.map fun edge => (edge.2, edge.1)) }

def ofGraphs (graphs : List CallGraph) : UsedBy := graphs.foldl addGraph {}

/-- The callers of a name; none when nothing calls it. -/
def callersOf (usedBy : UsedBy) (name : String) : List String :=
  (usedBy.adjacency.get? name).getD []

def size (usedBy : UsedBy) : Nat := usedBy.adjacency.size

def isEmpty (usedBy : UsedBy) : Bool := usedBy.adjacency.isEmpty

end UsedBy

end SourceAtlas
