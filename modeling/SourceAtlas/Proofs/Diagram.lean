import SourceAtlas.Proofs.Decimal
import SourceAtlas.Proofs.Ranking
import SourceAtlas.Proofs.UsedBy
/-!
The diagram of a call graph is the part of it that its best-connected names induce. One scan counts the
edges at every name, a ranking of these counts chooses the names, and the edges between two chosen names
are drawn, each by the ids of its ends.
-/

namespace SourceAtlas

namespace Diagram

/-- The names of a graph in the order they are first seen: each caller, then its callees. -/
def namesOf (graph : CallGraph) : List String :=
  (graph.toList.flatMap fun (caller, callees) => caller :: callees).eraseDups

/-- The number of edges out of a name and into it; an edge to itself counts twice. -/
def degree (graph : CallGraph) (name : String) : Nat :=
  (graph.edges.filter fun edge => edge.1 == name).length +
    (graph.edges.filter fun edge => edge.2 == name).length

namespace Tally

/-- The slots are those of the names, and every name has a score. -/
structure InOrder (tally : Tally) : Prop where
  slot_iff : ∀ (name : String) (slot : Nat),
    tally.slots[name]? = some slot ↔ tally.names[slot]? = some name
  sized : tally.scores.size = tally.names.size

def score (tally : Tally) (name : String) : Nat :=
  (tally.slots[name]?.bind fun slot => tally.scores[slot]?).getD 0

theorem inOrder_empty : InOrder {} := ⟨by simp, rfl⟩

variable {tally : Tally}

theorem InOrder.add (ordered : tally.InOrder) (name : String) (amount : Nat) :
    (tally.add name amount).InOrder := by
  unfold Tally.add
  cases there : tally.slots[name]? with
  | some slot => exact ⟨ordered.slot_iff, by simp [ordered.sized]⟩
  | none =>
      refine ⟨fun other slot => ?_, by simp [ordered.sized]⟩
      rw [Std.ExtTreeMap.getElem?_insert, Array.getElem?_push]
      simp only [Std.LawfulEqCmp.compare_eq_iff_eq]
      by_cases same : name = other
      · subst same
        have absent : tally.names[slot]? ≠ some name := by
          intro held
          rw [(ordered.slot_iff name slot).mpr held] at there
          cases there
        by_cases last : slot = tally.names.size
        · simp [last]
        · simp [last, absent, Ne.symm last]
      · rw [if_neg same, ordered.slot_iff]
        by_cases last : slot = tally.names.size
        · simp [last, same]
        · simp [last]

theorem InOrder.names_add (ordered : tally.InOrder) (name : String) (amount : Nat) :
    (tally.add name amount).names.toList = Adjacency.addName tally.names.toList name := by
  have known : name ∈ tally.names.toList ↔ ∃ slot, tally.slots[name]? = some slot := by
    rw [Array.mem_toList_iff, Array.mem_iff_getElem?]
    simp only [ordered.slot_iff]
  rw [Adjacency.addName, List.contains_eq_mem]
  unfold Tally.add
  cases there : tally.slots[name]? with
  | some slot => simp [known.mpr ⟨slot, there⟩]
  | none =>
      have fresh : name ∉ tally.names.toList := by
        rw [known, there]
        simp
      simp only [decide_eq_true_eq, if_neg fresh, Array.toList_push]

theorem InOrder.score_add (ordered : tally.InOrder) (name : String) (amount : Nat) (other : String) :
    (tally.add name amount).score other = tally.score other + if name = other then amount else 0 := by
  unfold Tally.add
  cases there : tally.slots[name]? with
  | some slot =>
      have inside : slot < tally.scores.size := by
        rw [ordered.sized]
        exact (Array.getElem?_eq_some_iff.mp ((ordered.slot_iff name slot).mp there)).1
      by_cases same : name = other
      · subst same
        simp [score, there, Array.getElem?_modify, inside]
      · cases found : tally.slots[other]? with
        | none => simp [score, found, same]
        | some at_ =>
            have apart : slot ≠ at_ := by
              rintro rfl
              have here := (ordered.slot_iff name slot).mp there
              rw [(ordered.slot_iff other slot).mp found, Option.some_inj] at here
              exact same here.symm
            simp [score, found, same, apart, Array.getElem?_modify]
  | none =>
      by_cases same : name = other
      · subst same
        simp [score, there, ← ordered.sized]
      · cases found : tally.slots[other]? with
        | none => simp [score, Std.ExtTreeMap.getElem?_insert, same, found]
        | some at_ =>
            have inside := (Array.getElem?_eq_some_iff.mp ((ordered.slot_iff other at_).mp found)).1
            rw [← ordered.sized] at inside
            simp [score, Std.ExtTreeMap.getElem?_insert, same, found, Array.getElem?_push,
              Nat.ne_of_lt inside]

theorem InOrder.scores_eq (ordered : tally.InOrder) :
    tally.scores.toList = tally.names.toList.map tally.score := by
  apply List.ext_getElem?
  intro slot
  rw [List.getElem?_map, Array.getElem?_toList, Array.getElem?_toList]
  cases named : tally.names[slot]? with
  | none =>
      rw [Array.getElem?_eq_none_iff, ← ordered.sized] at named
      simp [named]
  | some name =>
      have inside := (Array.getElem?_eq_some_iff.mp named).1
      rw [← ordered.sized] at inside
      simp [score, (ordered.slot_iff name slot).mpr named, inside]

def addAll (tally : Tally) (parts : List (String × Nat)) : Tally :=
  parts.foldl (fun grown part => grown.add part.1 part.2) tally

theorem InOrder.addAll (ordered : tally.InOrder) (parts : List (String × Nat)) :
    (tally.addAll parts).InOrder := by
  induction parts generalizing tally with
  | nil => exact ordered
  | cons part rest ih => exact ih (ordered.add part.1 part.2)

theorem InOrder.names_addAll (ordered : tally.InOrder) (parts : List (String × Nat)) :
    (tally.addAll parts).names.toList =
      (parts.map Prod.fst).foldl Adjacency.addName tally.names.toList := by
  induction parts generalizing tally with
  | nil => rfl
  | cons part rest ih =>
      rw [List.map_cons, List.foldl_cons, ← ordered.names_add part.1 part.2]
      exact ih (ordered.add part.1 part.2)

def amountFor (name : String) : List (String × Nat) → Nat
  | [] => 0
  | part :: rest => (if part.1 = name then part.2 else 0) + amountFor name rest

theorem InOrder.score_addAll (ordered : tally.InOrder) (parts : List (String × Nat)) (name : String) :
    (tally.addAll parts).score name = tally.score name + amountFor name parts := by
  induction parts generalizing tally with
  | nil => rfl
  | cons part rest ih =>
      have later := ih (ordered.add part.1 part.2)
      rw [ordered.score_add] at later
      by_cases same : part.1 = name
      · rw [if_pos same] at later
        rw [amountFor, if_pos same, ← Nat.add_assoc]
        exact later
      · rw [if_neg same] at later
        rw [amountFor, if_neg same, Nat.zero_add]
        exact later

/-- What an entry of a graph adds: to the caller its number of callees, and to each callee one. -/
def partsOf (entry : String × List String) : List (String × Nat) :=
  (entry.1, entry.2.length) :: entry.2.map fun callee => (callee, 1)

theorem ofGraph_eq (graph : CallGraph) : ofGraph graph = ({} : Tally).addAll (graph.toList.flatMap partsOf) := by
  have scanned : ∀ (entries : List (String × List String)) (tally : Tally),
      entries.foldl (fun tally (caller, callees) =>
        callees.foldl (fun tally callee => tally.add callee 1) (tally.add caller callees.length)) tally =
      tally.addAll (entries.flatMap partsOf) := by
    intro entries
    induction entries with
    | nil => exact fun tally => rfl
    | cons entry rest ih =>
        intro tally
        rw [List.foldl_cons, ih, List.flatMap_cons, addAll, addAll, List.foldl_append]
        simp only [partsOf, List.foldl_cons, List.foldl_map]
  exact scanned graph.toList {}

theorem amountFor_append (name : String) (parts later : List (String × Nat)) :
    amountFor name (parts ++ later) = amountFor name parts + amountFor name later := by
  induction parts with
  | nil => simp [amountFor]
  | cons part rest ih => rw [List.cons_append, amountFor, amountFor, ih, Nat.add_assoc]

theorem amountFor_partsOf (caller : String) (callees : List String) (name : String) :
    amountFor name (partsOf (caller, callees)) =
      ((callees.map fun callee => (caller, callee)).filter fun edge => edge.1 == name).length +
        ((callees.map fun callee => (caller, callee)).filter fun edge => edge.2 == name).length := by
  have into : amountFor name (callees.map fun callee => (callee, 1)) =
      ((callees.map fun callee => (caller, callee)).filter fun edge => edge.2 == name).length := by
    induction callees with
    | nil => rfl
    | cons callee later ih => by_cases same : callee = name <;> simp_all [amountFor, Nat.add_comm]
  have out : (if caller = name then callees.length else 0) =
      ((callees.map fun callee => (caller, callee)).filter fun edge => edge.1 == name).length := by
    by_cases same : caller = name
    · simp [List.filter_map, Function.comp_def, same]
    · have other : (caller == name) = false := beq_false_of_ne same
      simp [List.filter_map, Function.comp_def, same, other]
  rw [partsOf, amountFor, out, into]

/-- The amounts for a name are the edges at it. -/
theorem amountFor_eq_degree (graph : CallGraph) (name : String) :
    amountFor name (graph.toList.flatMap partsOf) = degree graph name := by
  have counted : ∀ entries : List (String × List String), amountFor name (entries.flatMap partsOf) =
      ((entries.flatMap fun (key, names) => names.map fun callee => (key, callee)).filter
        fun edge => edge.1 == name).length +
      ((entries.flatMap fun (key, names) => names.map fun callee => (key, callee)).filter
        fun edge => edge.2 == name).length := by
    intro entries
    induction entries with
    | nil => rfl
    | cons entry rest ih =>
        obtain ⟨caller, callees⟩ := entry
        rw [List.flatMap_cons, amountFor_append, amountFor_partsOf, ih]
        simp only [List.flatMap_cons, List.filter_append, List.length_append]
        omega
  exact counted graph.toList

theorem inOrder_ofGraph (graph : CallGraph) : (ofGraph graph).InOrder :=
  ofGraph_eq graph ▸ inOrder_empty.addAll _

theorem names_ofGraph (graph : CallGraph) : (ofGraph graph).names.toList = namesOf graph := by
  have listed : (graph.toList.flatMap partsOf).map Prod.fst =
      graph.toList.flatMap fun (caller, callees) => caller :: callees := by
    simp [List.map_flatMap, partsOf, Function.comp_def]
  rw [ofGraph_eq, inOrder_empty.names_addAll, listed, namesOf, ← Adjacency.firstSeen_eq]
  rfl

theorem scores_ofGraph (graph : CallGraph) :
    (ofGraph graph).scores.toList = (namesOf graph).map (degree graph) := by
  rw [(inOrder_ofGraph graph).scores_eq, names_ofGraph]
  apply List.map_congr_left
  intro name _
  rw [ofGraph_eq, inOrder_empty.score_addAll, amountFor_eq_degree]
  simp [score]

end Tally

variable (graph : CallGraph) (limit budget : Nat)

theorem namesOf_nodup : (namesOf graph).Nodup := by
  rw [namesOf, ← Adjacency.firstSeen_eq]
  exact Adjacency.nodup_firstSeen _

/-- One name of a graph outranks another: it has more edges, or as many and is seen earlier. -/
def Outranks (name other : String) : Prop :=
  degree graph other < degree graph name ∨
    degree graph name = degree graph other ∧
      (namesOf graph).idxOf name < (namesOf graph).idxOf other

def keptNames : List String := (Tally.ofGraph graph).best limit

theorem keptNames_eq : keptNames graph limit =
    (rank ((namesOf graph).map (degree graph)) limit).filterMap fun slot => (namesOf graph)[slot]? := by
  rw [keptNames, Tally.best, Tally.scores_ofGraph]
  simp only [← Tally.names_ofGraph, Array.getElem?_toList]

theorem filterMap_range {α : Type} (items : List α) :
    (List.range items.length).filterMap (fun slot => items[slot]?) = items := by
  have found : (List.range items.length).map (fun slot => items[slot]?) = items.map some := by
    apply List.ext_getElem?
    intro slot
    by_cases inside : slot < items.length
    · simp [inside]
    · simp [Nat.not_lt.mp inside]
  calc (List.range items.length).filterMap (fun slot => items[slot]?)
      = ((List.range items.length).map fun slot => items[slot]?).filterMap id := by
        rw [List.filterMap_map]
        rfl
    _ = items := by
        rw [found, List.filterMap_map]
        exact List.filterMap_some

theorem keptNames_sublist : (keptNames graph limit).Sublist (namesOf graph) := by
  have kept := (rank_sublist ((namesOf graph).map (degree graph)) limit).filterMap
    fun slot => (namesOf graph)[slot]?
  rw [List.length_map, filterMap_range] at kept
  rw [keptNames_eq]
  exact kept

theorem exists_rank_of_mem {slot : Nat} (kept : slot ∈ rank ((namesOf graph).map (degree graph)) limit) :
    ∃ name, (namesOf graph)[slot]? = some name := by
  have inside := lt_of_mem_rank _ limit kept
  rw [List.length_map] at inside
  exact ⟨_, List.getElem?_eq_getElem inside⟩

theorem length_keptNames : (keptNames graph limit).length = min limit (namesOf graph).length := by
  have whole : (keptNames graph limit).length =
      (rank ((namesOf graph).map (degree graph)) limit).length := by
    rw [keptNames_eq, List.length_filterMap_eq_countP, List.countP_eq_length]
    intro slot kept
    obtain ⟨name, held⟩ := exists_rank_of_mem graph limit kept
    simp [held]
  rw [whole, length_rank, List.length_map]

theorem mem_keptNames_iff {slot : Nat} {name : String} (held : (namesOf graph)[slot]? = some name) :
    name ∈ keptNames graph limit ↔ slot ∈ rank ((namesOf graph).map (degree graph)) limit := by
  rw [keptNames_eq, List.mem_filterMap]
  constructor
  · rintro ⟨other, kept, alsoHeld⟩
    obtain ⟨inside, same⟩ := List.getElem?_eq_some_iff.mp held
    obtain ⟨alsoInside, alsoSame⟩ := List.getElem?_eq_some_iff.mp alsoHeld
    rw [← (namesOf_nodup graph).getElem_inj_iff.mp (alsoSame.trans same.symm)]
    exact kept
  · exact fun kept => ⟨slot, kept, held⟩

/-- Every name that is kept outranks every name that is not. -/
theorem outranks_of_kept {name other : String} (kept : name ∈ keptNames graph limit)
    (seen : other ∈ namesOf graph) (left : other ∉ keptNames graph limit) :
    Outranks graph name other := by
  obtain ⟨slot, inside, rfl⟩ := List.mem_iff_getElem.mp ((keptNames_sublist graph limit).subset kept)
  obtain ⟨later, alsoInside, rfl⟩ := List.mem_iff_getElem.mp seen
  rw [mem_keptNames_iff graph limit (List.getElem?_eq_getElem _)] at kept left
  have here : ((namesOf graph).map (degree graph))[slot]? = some (degree graph (namesOf graph)[slot]) := by
    simp [inside]
  have there : ((namesOf graph).map (degree graph))[later]? =
      some (degree graph (namesOf graph)[later]) := by
    simp [alsoInside]
  have before := before_of_rank _ limit kept here left there
  rw [Outranks, (namesOf_nodup graph).idxOf_getElem, (namesOf_nodup graph).idxOf_getElem]
  exact before

theorem nodeId_inj {position other : Nat} (same : nodeId position = nodeId other) : position = other := by
  have digits : Decimal.digits position = Decimal.digits other := by
    have texts := congrArg String.toList same
    simp only [nodeId, String.toList_append, List.append_cancel_left_eq] at texts
    exact texts
  rw [← Decimal.value_digits position, digits, Decimal.value_digits]

theorem idOf?_eq_some_iff {kept : List String} (distinct : kept.Nodup) (name id : String) :
    idOf? kept name = some id ↔ ∃ position, kept[position]? = some name ∧ nodeId position = id := by
  rw [idOf?, Option.map_eq_some_iff]
  constructor
  · rintro ⟨position, found, rfl⟩
    obtain ⟨inside, same, -⟩ := List.idxOf?_eq_some_iff.mp found
    exact ⟨position, List.getElem?_eq_some_iff.mpr ⟨inside, same⟩, rfl⟩
  · rintro ⟨position, held, rfl⟩
    obtain ⟨inside, same⟩ := List.getElem?_eq_some_iff.mp held
    refine ⟨position, List.idxOf?_eq_some_iff.mpr ⟨inside, same, fun earlier less other => ?_⟩, rfl⟩
    have equal := distinct.getElem_inj_iff.mp (other.trans same.symm)
    omega

theorem idOf?_isSome_iff (kept : List String) (name : String) :
    (idOf? kept name).isSome = true ↔ name ∈ kept := by
  rw [idOf?, Option.isSome_map, List.isSome_idxOf?]

theorem keptNames_nodup : (keptNames graph limit).Nodup :=
  (keptNames_sublist graph limit).nodup (namesOf_nodup graph)

theorem idOf?_inj {kept : List String} (distinct : kept.Nodup) {name other id : String}
    (here : idOf? kept name = some id) (there : idOf? kept other = some id) : name = other := by
  obtain ⟨position, held, rfl⟩ := (idOf?_eq_some_iff distinct name id).mp here
  obtain ⟨slot, alsoHeld, same⟩ := (idOf?_eq_some_iff distinct other _).mp there
  rw [nodeId_inj same, held, Option.some_inj] at alsoHeld
  exact alsoHeld

theorem nodes_names : (ofGraph graph limit budget).nodes.map DiagramNode.name = keptNames graph limit := by
  rw [ofGraph, List.map_map]
  exact List.zipIdx_map_fst 0 (keptNames graph limit)

theorem nodes_ids : (ofGraph graph limit budget).nodes.map DiagramNode.id =
    (List.range (ofGraph graph limit budget).nodes.length).map nodeId := by
  have count : (ofGraph graph limit budget).nodes.length = (keptNames graph limit).length := by
    rw [← nodes_names graph limit budget, List.length_map]
  rw [count, List.range_eq_range', ← List.zipIdx_map_snd 0 (keptNames graph limit), List.map_map]
  rw [ofGraph, List.map_map]
  rfl

theorem exists_node_iff (name id : String) :
    (∃ node ∈ (ofGraph graph limit budget).nodes, node.name = name ∧ node.id = id) ↔
      idOf? (keptNames graph limit) name = some id := by
  rw [idOf?_eq_some_iff (keptNames_nodup graph limit)]
  constructor
  · rintro ⟨node, member, rfl, rfl⟩
    obtain ⟨⟨name, position⟩, listed, rfl⟩ := List.mem_map.mp member
    exact ⟨position, List.mk_mem_zipIdx_iff_getElem?.mp listed, rfl⟩
  · rintro ⟨position, held, rfl⟩
    exact ⟨_, List.mem_map_of_mem (List.mk_mem_zipIdx_iff_getElem?.mpr held), rfl, rfl⟩

/-- The edge that is drawn for one of a graph, when both of its ends are kept. -/
def drawn? (kept : List String) (edge : String × String) : Option DiagramEdge :=
  match idOf? kept edge.1, idOf? kept edge.2 with
  | some source, some target => some ⟨source, target⟩
  | _, _ => none

theorem drawn?_eq_some_iff (kept : List String) (edge : String × String) (drawn : DiagramEdge) :
    drawn? kept edge = some drawn ↔
      idOf? kept edge.1 = some drawn.source ∧ idOf? kept edge.2 = some drawn.target := by
  obtain ⟨source, target⟩ := drawn
  unfold drawn?
  cases idOf? kept edge.1 <;> cases idOf? kept edge.2 <;> simp

theorem drawn?_isSome_iff (kept : List String) (edge : String × String) :
    (drawn? kept edge).isSome = true ↔ edge.1 ∈ kept ∧ edge.2 ∈ kept := by
  rw [← idOf?_isSome_iff, ← idOf?_isSome_iff]
  unfold drawn?
  cases idOf? kept edge.1 <;> cases idOf? kept edge.2 <;> simp

theorem edges_eq : (ofGraph graph limit budget).edges =
    graph.edges.filterMap (drawn? (keptNames graph limit)) := rfl

/-- What is chosen from items stands for the items that are kept, one for one and in order. -/
theorem forall₂_filterMap {α β : Type} {choose : α → Option β} {keep : α → Bool} {rel : α → β → Prop}
    (kept : ∀ item, keep item = (choose item).isSome)
    (related : ∀ item chosen, choose item = some chosen → rel item chosen) (items : List α) :
    List.Forall₂ rel (items.filter keep) (items.filterMap choose) := by
  induction items with
  | nil => exact .nil
  | cons item rest ih =>
      cases found : choose item with
      | none =>
          rw [List.filterMap_cons_none found, List.filter_cons_of_neg (by simp [kept, found])]
          exact ih
      | some chosen =>
          rw [List.filterMap_cons_some found, List.filter_cons_of_pos (by simp [kept, found])]
          exact .cons (related item chosen found) ih

theorem length_truncateLabel_le (name : String) : (truncateLabel name budget).length ≤ budget := by
  unfold truncateLabel
  split
  · assumption
  · split
    · exact Nat.zero_le _
    · next filled =>
        rw [String.length_ofList, List.length_append, List.length_take, List.length_singleton]
        omega

theorem truncateLabel_of_le {name : String} (fits : name.length ≤ budget) :
    truncateLabel name budget = name := if_pos fits

/-- An edge between two names is drawn between the nodes that stand for them. -/
def Draws (diagram : Diagram) (edge : String × String) (drawn : DiagramEdge) : Prop :=
  (∃ node ∈ diagram.nodes, node.name = edge.1 ∧ node.id = drawn.source) ∧
    ∃ node ∈ diagram.nodes, node.name = edge.2 ∧ node.id = drawn.target

/-- A diagram is the part of a graph that its `limit` best-connected names induce: the names that
outrank all others, in the order in which they are first seen and numbered in it, and every edge
between two of them, once. -/
structure Induced (diagram : Diagram) (graph : CallGraph) (limit budget : Nat) : Prop where
  ordered : (diagram.nodes.map DiagramNode.name).Sublist (namesOf graph)
  count : diagram.nodes.length = min limit (namesOf graph).length
  best : ∀ name ∈ diagram.nodes.map DiagramNode.name, ∀ other ∈ namesOf graph,
    other ∉ diagram.nodes.map DiagramNode.name → Outranks graph name other
  ids : diagram.nodes.map DiagramNode.id =
    (List.range diagram.nodes.length).map fun position => "n" ++ toString position
  omitted : diagram.omitted + diagram.nodes.length = (namesOf graph).length
  edges : List.Forall₂ diagram.Draws
    (graph.edges.filter fun edge => edge.1 ∈ diagram.nodes.map DiagramNode.name ∧
      edge.2 ∈ diagram.nodes.map DiagramNode.name) diagram.edges
  distinct : diagram.edges.Nodup
  labels : ∀ node ∈ diagram.nodes, node.label.length ≤ budget ∧
    (node.name.length ≤ budget → node.label = node.name)

theorem induced_ofGraph (arranged : graph.adjacency.Arranged) :
    (ofGraph graph limit budget).Induced graph limit budget where
  ordered := nodes_names graph limit budget ▸ keptNames_sublist graph limit
  count := by
    rw [← length_keptNames, ← nodes_names graph limit budget, List.length_map]
  best := by
    rw [nodes_names]
    exact fun name kept other seen left => outranks_of_kept graph limit kept seen left
  ids := nodes_ids graph limit budget
  omitted := by
    have names : (Tally.ofGraph graph).names.size = (namesOf graph).length := by
      rw [← Tally.names_ofGraph, Array.length_toList]
    have count : (ofGraph graph limit budget).nodes.length = (keptNames graph limit).length := by
      rw [← nodes_names graph limit budget, List.length_map]
    have within := (keptNames_sublist graph limit).length_le
    rw [count]
    show (Tally.ofGraph graph).names.size - (keptNames graph limit).length + _ = _
    omega
  edges := by
    rw [nodes_names, edges_eq]
    apply forall₂_filterMap
    · intro edge
      rw [Bool.eq_iff_iff, drawn?_isSome_iff, decide_eq_true_eq]
    · intro edge drawn found
      obtain ⟨source, target⟩ := (drawn?_eq_some_iff ..).mp found
      exact ⟨(exists_node_iff graph limit budget ..).mpr source,
        (exists_node_iff graph limit budget ..).mpr target⟩
  distinct := by
    rw [edges_eq]
    apply List.Nodup.filterMap _ arranged.pairs_nodup
    intro edge other drawn found alsoFound
    obtain ⟨source, target⟩ := (drawn?_eq_some_iff ..).mp found
    obtain ⟨alsoSource, alsoTarget⟩ := (drawn?_eq_some_iff ..).mp alsoFound
    have distinct := keptNames_nodup graph limit
    exact Prod.ext (idOf?_inj distinct source alsoSource) (idOf?_inj distinct target alsoTarget)
  labels := by
    intro node member
    obtain ⟨⟨name, position⟩, -, rfl⟩ := List.mem_map.mp member
    exact ⟨length_truncateLabel_le budget name, truncateLabel_of_le budget⟩

end Diagram

namespace CallGraph

theorem isEmpty_iff {graph : CallGraph} (arranged : graph.adjacency.Arranged) :
    graph.isEmpty = true ↔ graph.edges = [] := by
  have bare : graph.isEmpty = true ↔ graph.toList = [] := by
    rw [isEmpty, Adjacency.isEmpty, Array.isEmpty_iff, ← Array.toList_eq_nil_iff]
    rfl
  rw [bare]
  constructor
  · intro none
    exact congrArg (List.flatMap fun (key, names) => names.map fun name => (key, name)) none
  · intro none
    rw [List.eq_nil_iff_forall_not_mem]
    rintro ⟨caller, callees⟩ listed
    -- an entry has a name, and so the graph an edge
    obtain ⟨-, filled, -⟩ := arranged.filled_of_get? ((arranged.mem_toList_iff caller callees).mp listed)
    obtain ⟨callee, member⟩ := List.exists_mem_of_ne_nil callees filled
    have edge : (caller, callee) ∈ graph.edges := Adjacency.mem_pairs.mpr ⟨callees, listed, member⟩
    rw [none] at edge
    cases edge

/-- A graph without edges has no diagram. Any other has the one that its best-connected names induce. -/
theorem project_induces (graph : CallGraph) (built : graph.Built) (limit budget : Nat) :
    (graph.project limit budget = .noGraph ↔ graph.edges = []) ∧
    (graph.edges ≠ [] → ∃ diagram, graph.project limit budget = .graph diagram ∧
      diagram.Induced graph limit budget) := by
  have empty := isEmpty_iff built.arranged
  unfold project
  constructor
  · rw [← empty]
    cases graph.isEmpty <;> simp
  · intro filled
    rw [if_neg (mt empty.mp filled)]
    exact ⟨_, rfl, Diagram.induced_ofGraph graph limit budget built.arranged⟩

/-- Four names: two with five edges each, one with three, one with a single edge. -/
def crossing : CallGraph := .ofList [("A", ["B", "C", "D"]), ("B", ["A", "B", "C"]), ("C", ["A"])]

theorem project_induces_crossing : crossing.Built ∧ crossing.edges ≠ [] ∧
    ∃ diagram, crossing.project 2 30 = .graph diagram ∧ diagram.Induced crossing 2 30 ∧
      diagram.nodes.map DiagramNode.name = ["A", "B"] ∧ diagram.omitted = 2 ∧
      diagram.edges = [⟨"n0", "n1"⟩, ⟨"n1", "n0"⟩, ⟨"n1", "n1"⟩] := by
  have built : crossing.Built := .ofList _
  have filled : crossing.edges ≠ [] := by decide +kernel
  have kept : Diagram.keptNames crossing 2 = ["A", "B"] := by
    have scores : (Diagram.namesOf crossing).map (Diagram.degree crossing) = [5, 5, 3, 1] := by
      decide +kernel
    have ranked : Diagram.rank [5, 5, 3, 1] 2 = [0, 1] := by simp [Diagram.rank, List.mergeSort]
    rw [Diagram.keptNames_eq, scores, ranked]
    decide +kernel
  obtain ⟨diagram, drawn, induced⟩ := (project_induces crossing built 2 30).2 filled
  have same : diagram = Diagram.ofGraph crossing 2 30 := (Projection.graph.inj drawn).symm
  have names : diagram.nodes.map DiagramNode.name = ["A", "B"] := by
    rw [same, Diagram.nodes_names, kept]
  refine ⟨built, filled, diagram, drawn, induced, names, ?_, ?_⟩
  · have total := induced.omitted
    have count := congrArg List.length names
    have seen : (Diagram.namesOf crossing).length = 4 := by decide +kernel
    rw [List.length_map] at count
    rw [count, seen] at total
    exact Nat.add_right_cancel total
  · rw [same, Diagram.edges_eq, kept]
    decide +kernel

end CallGraph

end SourceAtlas
