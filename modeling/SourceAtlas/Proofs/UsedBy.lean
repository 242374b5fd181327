import Mathlib.Data.List.ProdSigma
import Mathlib.Data.Prod.Basic
import SourceAtlas.Proofs.CallGraph
/-!
The calls of all files from callers to callees, and the same calls read backwards. Both views are made
by putting in the edges of one graph after the other, so they hold the same edges, and a graph that is
put in again changes neither of them.
-/

namespace SourceAtlas

open Adjacency

namespace CallGraph

/-- Graphs as they are made: by recording calls, from a list of callers with their callees, and by
merging. -/
inductive Built : CallGraph → Prop
  | empty : Built {}
  | addCalls {graph : CallGraph} (built : Built graph) (caller : String) (callees : List String) :
      Built (graph.addCalls caller callees)
  | ofList (calls : List (String × List String)) : Built (.ofList calls)
  | merge {graph other : CallGraph} (built : Built graph) (also : Built other) :
      Built (graph.merge other)

theorem foldl_addCalls (calls : List (String × List String)) (graph : CallGraph) :
    (calls.foldl (fun grown (caller, callees) => grown.addCalls caller callees) graph).adjacency =
      graph.adjacency.addPairs
        (calls.flatMap fun (caller, callees) => callees.map fun callee => (caller, callee)) := by
  induction calls generalizing graph with
  | nil => rfl
  | cons call rest ih =>
      rw [List.foldl_cons, ih, List.flatMap_cons, addPairs_append]
      rfl

theorem merge_adjacency (graph other : CallGraph) :
    (graph.merge other).adjacency = graph.adjacency.addPairs other.edges :=
  foldl_addCalls other.toList graph

theorem foldl_merge (graphs : List CallGraph) (graph : CallGraph) :
    (graphs.foldl merge graph).adjacency = graph.adjacency.addPairs (graphs.flatMap edges) := by
  induction graphs generalizing graph with
  | nil => rfl
  | cons first rest ih =>
      rw [List.foldl_cons, ih, merge_adjacency, List.flatMap_cons, addPairs_append]

variable {graph : CallGraph}

theorem Built.arranged (built : graph.Built) : graph.adjacency.Arranged := by
  induction built with
  | empty => exact arranged_empty
  | addCalls _ caller callees ih => exact ih.addPairs _
  | ofList calls =>
      rw [CallGraph.ofList, foldl_addCalls]
      exact arranged_empty.addPairs _
  | merge _ _ ih _ =>
      rw [merge_adjacency]
      exact ih.addPairs _

theorem containsEdge_iff (arranged : graph.adjacency.Arranged) (caller callee : String) :
    graph.containsEdge caller callee = true ↔ (caller, callee) ∈ graph.edges := by
  rw [containsEdge, List.contains_iff_mem]
  exact (arranged.mem_pairs_iff caller callee).symm

theorem edgeCount_eq (graph : CallGraph) : graph.edgeCount = graph.edges.length :=
  graph.adjacency.length_pairs.symm

theorem mem_edges_foldl_merge {graphs : List CallGraph}
    (arranged : ∀ graph ∈ graphs, graph.adjacency.Arranged) (edge : String × String) :
    edge ∈ (graphs.foldl merge {}).edges ↔ ∃ graph ∈ graphs, edge ∈ graph.edges := by
  rw [edges, foldl_merge, arranged_empty.mem_pairs_addPairs, List.mem_flatMap]
  constructor
  · rintro (none | ⟨inSome, -⟩)
    · cases none
    · exact inSome
  · rintro ⟨graph, member, inGraph⟩
    exact Or.inr ⟨⟨graph, member, inGraph⟩, (arranged graph member).usable_of_mem_pairs inGraph⟩

end CallGraph

namespace UsedBy

theorem foldl_addGraph (graphs : List CallGraph) (usedBy : UsedBy) :
    (graphs.foldl addGraph usedBy).adjacency =
      usedBy.adjacency.addPairs ((graphs.flatMap CallGraph.edges).map Prod.swap) := by
  induction graphs generalizing usedBy with
  | nil => rfl
  | cons first rest ih =>
      rw [List.foldl_cons, ih, List.flatMap_cons, List.map_append, addPairs_append]
      rfl

theorem ofGraphs_arranged (graphs : List CallGraph) : (ofGraphs graphs).adjacency.Arranged := by
  rw [ofGraphs, foldl_addGraph]
  exact arranged_empty.addPairs _

theorem mem_callersOf_ofGraphs {graphs : List CallGraph}
    (arranged : ∀ graph ∈ graphs, graph.adjacency.Arranged) (caller callee : String) :
    caller ∈ (ofGraphs graphs).callersOf callee ↔ ∃ graph ∈ graphs, (caller, callee) ∈ graph.edges := by
  rw [callersOf, ← (ofGraphs_arranged graphs).mem_pairs_iff, ofGraphs, foldl_addGraph,
    arranged_empty.mem_pairs_addPairs]
  constructor
  · rintro (none | ⟨inSome, -⟩)
    · cases none
    · obtain ⟨edge, inEdges, same⟩ := List.mem_map.mp inSome
      obtain ⟨rfl, rfl⟩ := Prod.mk.inj same
      exact List.mem_flatMap.mp inEdges
  · rintro ⟨graph, member, inGraph⟩
    obtain ⟨filled, also⟩ := (arranged graph member).usable_of_mem_pairs inGraph
    refine Or.inr ⟨?_, also, filled⟩
    exact List.mem_map.mpr ⟨(caller, callee), List.mem_flatMap.mpr ⟨graph, member, inGraph⟩, rfl⟩

/-- Adding a graph whose edges are all there already changes nothing. -/
theorem addGraph_of_subset {usedBy : UsedBy} (arranged : usedBy.adjacency.Arranged) {graph : CallGraph}
    (known : ∀ edge ∈ graph.edges, edge.swap ∈ usedBy.adjacency.pairs) : usedBy.addGraph graph = usedBy := by
  have same : usedBy.adjacency.addPairs (graph.edges.map Prod.swap) = usedBy.adjacency := by
    apply arranged.addPairs_of_subset
    intro pair member
    obtain ⟨edge, inGraph, rfl⟩ := List.mem_map.mp member
    exact known edge inGraph
  exact congrArg UsedBy.mk same

/-- The merged graph and the used-by view of any graphs hold the same edges in opposite directions, as
many in the one as in the other and none twice. A graph that went into them and is put in again changes
neither, down to the order of entries. -/
theorem ofGraphs_inverts_merge (graphs : List CallGraph) (built : ∀ graph ∈ graphs, graph.Built) :
    let merged := graphs.foldl CallGraph.merge {}
    let usedBy := UsedBy.ofGraphs graphs
    (∀ caller callee,
      (merged.containsEdge caller callee = true ↔
        ∃ graph ∈ graphs, graph.containsEdge caller callee = true) ∧
      (merged.containsEdge caller callee = true ↔ caller ∈ usedBy.callersOf callee)) ∧
    (∀ graph ∈ merged :: graphs, ∀ caller callees, (caller, callees) ∈ graph.toList → callees.Nodup) ∧
    (∀ callee callers, (callee, callers) ∈ usedBy.toList → callers.Nodup) ∧
    (usedBy.toList.flatMap Prod.snd).length = merged.edgeCount ∧
    ∀ graph ∈ graphs, usedBy.addGraph graph = usedBy ∧ merged.merge graph = merged := by
  intro merged usedBy
  have arranged : ∀ graph ∈ graphs, graph.adjacency.Arranged := fun graph member =>
    (built graph member).arranged
  have mergedArranged : merged.adjacency.Arranged := CallGraph.foldl_merge graphs {} ▸
    arranged_empty.addPairs _
  have usedByArranged := ofGraphs_arranged graphs
  have inMerged := CallGraph.mem_edges_foldl_merge arranged
  have inUsedBy := mem_callersOf_ofGraphs arranged
  refine ⟨fun caller callee => ⟨?_, ?_⟩, ?_, fun callee callers => usedByArranged.names_nodup, ?_, ?_⟩
  · rw [CallGraph.containsEdge_iff mergedArranged, inMerged]
    constructor
    · rintro ⟨graph, member, inGraph⟩
      exact ⟨graph, member, (CallGraph.containsEdge_iff (arranged graph member) ..).mpr inGraph⟩
    · rintro ⟨graph, member, contains⟩
      exact ⟨graph, member, (CallGraph.containsEdge_iff (arranged graph member) ..).mp contains⟩
  · rw [CallGraph.containsEdge_iff mergedArranged, inMerged, inUsedBy]
  · intro graph member caller callees listed
    rcases List.mem_cons.mp member with rfl | inGraphs
    · exact mergedArranged.names_nodup listed
    · exact (arranged graph inGraphs).names_nodup listed
  · -- both are lists of the same edges without repetition
    have turned : usedBy.adjacency.pairs.Perm (merged.edges.map Prod.swap) := by
      apply (List.perm_ext_iff_of_nodup usedByArranged.pairs_nodup
        (mergedArranged.pairs_nodup.map Prod.swap_injective)).mpr
      rintro ⟨callee, caller⟩
      rw [usedByArranged.mem_pairs_iff]
      exact (inUsedBy caller callee).trans ((inMerged (caller, callee)).symm.trans
        (List.mem_map_swap caller callee merged.edges).symm)
    rw [CallGraph.edgeCount_eq]
    exact (usedBy.adjacency.length_pairs.symm.trans turned.length_eq).trans (List.length_map ..)
  · intro graph member
    constructor
    · apply addGraph_of_subset usedByArranged
      rintro ⟨caller, callee⟩ inGraph
      exact (usedByArranged.mem_pairs_iff callee caller).mpr
        ((inUsedBy caller callee).mpr ⟨graph, member, inGraph⟩)
    · have same : merged.adjacency.addPairs graph.edges = merged.adjacency :=
        mergedArranged.addPairs_of_subset fun edge inGraph => (inMerged edge).mpr ⟨graph, member, inGraph⟩
      rw [← CallGraph.merge_adjacency] at same
      exact congrArg CallGraph.mk same

def sharedCaller : List CallGraph :=
  [.ofList [("main", ["load", "process", "load"]), ("process", ["helper", "main"])],
    ({} : CallGraph).addCalls "main" ["process", "save"]]

theorem ofGraphs_inverts_merge_sharedCaller : (∀ graph ∈ sharedCaller, graph.Built) ∧
    (UsedBy.ofGraphs sharedCaller).callersOf "process" = ["main"] ∧
    ((UsedBy.ofGraphs sharedCaller).toList.flatMap Prod.snd).length = 5 ∧
    ∀ graph ∈ sharedCaller, (UsedBy.ofGraphs sharedCaller).addGraph graph = UsedBy.ofGraphs sharedCaller := by
  have built : ∀ graph ∈ sharedCaller, graph.Built := by
    intro graph member
    rcases List.mem_cons.mp member with rfl | last
    · exact .ofList _
    · rw [List.mem_singleton.mp last]
      exact .addCalls .empty ..
  obtain ⟨-, -, -, total, again⟩ := ofGraphs_inverts_merge sharedCaller built
  exact ⟨built, by decide +kernel, total.trans (by decide +kernel), fun graph member => (again graph member).1⟩

end UsedBy

end SourceAtlas
