import SourceAtlas.Proofs.Diagram
/-!
The flowchart of a diagram can be read back. Ids are a letter and digits, and an escaped label has no
double quote, so a reader that lets a label end at the first one finds every line where it was written.
What looks like a line of a flowchart inside of a label stays a part of the label.
-/

namespace SourceAtlas

namespace Flowchart

/-- A node as a flowchart shows it: the label is the escaped one, and the name is not there. -/
structure Node where
  id : String
  kind : NodeKind
  label : String
  deriving Repr, DecidableEq

def inId (c : Char) : Bool := c != '[' && c != ' ' && c != '\n'

def inLabel (c : Char) : Bool := c != '"'

def readId? (text : List Char) : Option (String × List Char) := do
  let text ← text.dropPrefix? "    ".toList
  return (String.ofList (text.takeWhile inId), text.dropWhile inId)

def lineEnd : NodeKind → String
  | .qualified => ":::qualified\n"
  | .function => "\n"

def readKind? (text : List Char) : Option (NodeKind × List Char) :=
  match text.dropPrefix? (lineEnd .qualified).toList with
  | some rest => some (.qualified, rest)
  | none => (text.dropPrefix? (lineEnd .function).toList).map fun rest => (.function, rest)

/-- Reads the line of a node. The label ends at the first double quote. -/
def readNode? (text : List Char) : Option (Node × List Char) := do
  let (id, text) ← readId? text
  let text ← text.dropPrefix? "[\"".toList
  let (kind, rest) ← readKind? (← (text.dropWhile inLabel).dropPrefix? "\"]".toList)
  return ({ id, kind, label := String.ofList (text.takeWhile inLabel) }, rest)

def readEdge? (text : List Char) : Option (DiagramEdge × List Char) := do
  let (source, text) ← readId? text
  let text ← text.dropPrefix? " --> ".toList
  let rest ← (text.dropWhile inId).dropPrefix? "\n".toList
  return ({ source, target := String.ofList (text.takeWhile inId) }, rest)

/-- Reads items as long as there is one, and gives back what stands behind them. -/
def readAll {α : Type} (read : List Char → Option (α × List Char)) (text : List Char) :
    List α × List Char :=
  match read text with
  | none => ([], text)
  | some (item, rest) =>
      if rest.length < text.length then
        let (items, last) := readAll read rest
        (item :: items, last)
      else ([], text)
termination_by text.length

def closing : String := "    classDef qualified fill:#eef3ff,stroke:#5b6fa8"

/-- Reads a flowchart: the nodes, then the edges, then the last line and nothing else. -/
def read? (text : String) : Option (List Node × List DiagramEdge) := do
  let text ← text.toList.dropPrefix? "flowchart LR\n".toList
  let (nodes, text) := readAll readNode? text
  let (edges, text) := readAll readEdge? text
  if text = closing.toList then some (nodes, edges) else none

theorem dropPrefix?_append (mark rest : List Char) : (mark ++ rest).dropPrefix? mark = some rest :=
  List.dropPrefix?_eq_some_iff.mpr ⟨mark, rfl, beq_self_eq_true mark⟩

/-- Items that can be read from their texts, whatever stands behind, are read one after the other. -/
theorem readAll_append {α β : Type} {read : List Char → Option (β × List Char)} {write : α → List Char}
    {view : α → β} {items : List α} {tail : List Char} (ended : read tail = none)
    (reads : ∀ item ∈ items, ∀ rest, read (write item ++ rest) = some (view item, rest))
    (filled : ∀ item ∈ items, write item ≠ []) :
    readAll read (items.flatMap write ++ tail) = (items.map view, tail) := by
  induction items with
  | nil => rw [List.flatMap_nil, List.nil_append, readAll, ended, List.map_nil]
  | cons item later ih =>
      obtain ⟨first, others⟩ := List.forall_mem_cons.mp reads
      obtain ⟨here, there⟩ := List.forall_mem_cons.mp filled
      have shorter : (later.flatMap write ++ tail).length <
          (write item ++ (later.flatMap write ++ tail)).length := by
        have positive := List.length_pos_iff.mpr here
        simp only [List.length_append]
        omega
      rw [List.flatMap_cons, List.append_assoc, readAll, first]
      simp only [if_pos shorter, ih others there, List.map_cons]

/-- What stands before the first character that is not `part` of it, and the rest. -/
theorem cut_append {part : Char → Bool} {front : List Char} {c : Char}
    (inside : ∀ d ∈ front, part d = true) (outside : part c = false) (rest : List Char) :
    (front ++ c :: rest).takeWhile part = front ∧ (front ++ c :: rest).dropWhile part = c :: rest := by
  rw [List.takeWhile_append_of_pos inside, List.dropWhile_append_of_pos inside]
  simp [outside]

theorem readId?_append {id : String} {c : Char} (plain : ∀ d ∈ id.toList, inId d = true)
    (outside : inId c = false) (rest : List Char) :
    readId? ("    ".toList ++ (id.toList ++ c :: rest)) = some (id, c :: rest) := by
  obtain ⟨front, behind⟩ := cut_append plain outside rest
  rw [readId?, dropPrefix?_append]
  simp [front, behind]

theorem inLabel_of_mem_escapeLabel {label : List Char} {c : Char}
    (member : c ∈ Diagram.escapeLabel label) : inLabel c = true := by
  obtain ⟨d, -, written⟩ := List.mem_flatMap.mp member
  split at written
  · exact List.all_eq_true.mp (by decide : "#quot;".toList.all inLabel = true) c written
  · next other =>
      rw [List.mem_singleton.mp written]
      simpa [inLabel] using other

def shown (node : DiagramNode) : Node :=
  { id := node.id, kind := node.kind, label := String.ofList (Diagram.escapeLabel node.label.toList) }

theorem readKind?_append (kind : NodeKind) (rest : List Char) :
    readKind? ((lineEnd kind).toList ++ rest) = some (kind, rest) := by
  cases kind with
  | qualified => simp [readKind?, lineEnd, List.dropPrefix?]
  | function => simp [readKind?, lineEnd, List.dropPrefix?]

theorem nodeLine_eq (node : DiagramNode) : Diagram.nodeLine node =
    "    " ++ node.id ++ "[\"" ++ (shown node).label ++ "\"]" ++ lineEnd node.kind := by
  unfold Diagram.nodeLine
  cases node.kind with
  | qualified => rfl
  | function => rfl

theorem toList_edgeLine_append (edge : DiagramEdge) (rest : List Char) :
    (Diagram.edgeLine edge).toList ++ rest = "    ".toList ++ (edge.source.toList ++
      ' ' :: ("--> ".toList ++ (edge.target.toList ++ '\n' :: rest))) := by
  simp [Diagram.edgeLine]

theorem readNode?_append {node : DiagramNode} (plain : ∀ c ∈ node.id.toList, inId c = true)
    (rest : List Char) :
    readNode? ((Diagram.nodeLine node).toList ++ rest) = some (shown node, rest) := by
  have inside : ∀ c ∈ Diagram.escapeLabel node.label.toList, inLabel c = true :=
    fun c => inLabel_of_mem_escapeLabel
  have label := cut_append (c := '"') inside (by decide) (']' :: ((lineEnd node.kind).toList ++ rest))
  have id := readId?_append (c := '[') plain (by decide) ('"' ::
    (Diagram.escapeLabel node.label.toList ++ '"' :: ']' :: ((lineEnd node.kind).toList ++ rest)))
  have written : (Diagram.nodeLine node).toList ++ rest =
      "    ".toList ++ (node.id.toList ++ '[' :: '"' :: (Diagram.escapeLabel node.label.toList ++
        '"' :: ']' :: ((lineEnd node.kind).toList ++ rest))) := by
    simp [nodeLine_eq, shown]
  rw [written, readNode?, id]
  simp [List.dropPrefix?, label, readKind?_append, shown]

theorem readEdge?_append {edge : DiagramEdge} (source : ∀ c ∈ edge.source.toList, inId c = true)
    (target : ∀ c ∈ edge.target.toList, inId c = true) (rest : List Char) :
    readEdge? ((Diagram.edgeLine edge).toList ++ rest) = some (edge, rest) := by
  have id := readId?_append (c := ' ') source (by decide)
    ("--> ".toList ++ (edge.target.toList ++ '\n' :: rest))
  have last := cut_append (c := '\n') target (by decide) rest
  rw [toList_edgeLine_append, readEdge?, id]
  simp [List.dropPrefix?, last]

/-- The line of an edge does not look like that of a node. -/
theorem readNode?_edgeLine {edge : DiagramEdge} (source : ∀ c ∈ edge.source.toList, inId c = true)
    (rest : List Char) : readNode? ((Diagram.edgeLine edge).toList ++ rest) = none := by
  have id := readId?_append (c := ' ') source (by decide)
    ("--> ".toList ++ (edge.target.toList ++ '\n' :: rest))
  rw [toList_edgeLine_append, readNode?, id]
  simp [List.dropPrefix?]

theorem mermaid_eq (diagram : Diagram) : diagram.mermaid =
    "flowchart LR\n" ++ String.join (diagram.nodes.map Diagram.nodeLine) ++
      String.join (diagram.edges.map Diagram.edgeLine) ++ closing := rfl

/-- Nothing in the ids of a diagram ends an id. -/
structure Plain (diagram : Diagram) : Prop where
  nodes : ∀ node ∈ diagram.nodes, ∀ c ∈ node.id.toList, inId c = true
  sources : ∀ edge ∈ diagram.edges, ∀ c ∈ edge.source.toList, inId c = true
  targets : ∀ edge ∈ diagram.edges, ∀ c ∈ edge.target.toList, inId c = true

/-- A reader finds in a flowchart all that it shows of its diagram. -/
theorem Plain.read?_mermaid {diagram : Diagram} (plain : Plain diagram) :
    read? diagram.mermaid = some (diagram.nodes.map shown, diagram.edges) := by
  have last : readNode? closing.toList = none ∧ readEdge? closing.toList = none := by decide +kernel
  have edges : readAll readEdge? (diagram.edges.flatMap (fun edge => (Diagram.edgeLine edge).toList) ++
      closing.toList) = (diagram.edges.map id, closing.toList) := by
    apply readAll_append last.2
    · exact fun edge member => readEdge?_append (plain.sources edge member) (plain.targets edge member)
    · intro edge _
      simp [Diagram.edgeLine]
  have ended : readNode? (diagram.edges.flatMap (fun edge => (Diagram.edgeLine edge).toList) ++
      closing.toList) = none := by
    cases edges : diagram.edges with
    | nil => exact last.1
    | cons edge rest =>
        have member : edge ∈ diagram.edges := edges ▸ List.mem_cons_self
        rw [List.flatMap_cons, List.append_assoc]
        exact readNode?_edgeLine (plain.sources edge member) _
  have nodes := readAll_append ended (fun node member => readNode?_append (plain.nodes node member))
    (fun node _ => by simp [nodeLine_eq])
  have written : diagram.mermaid.toList = "flowchart LR\n".toList ++
      (diagram.nodes.flatMap (fun node => (Diagram.nodeLine node).toList) ++
        (diagram.edges.flatMap (fun edge => (Diagram.edgeLine edge).toList) ++ closing.toList)) := by
    simp only [mermaid_eq, String.toList_append, String.toList_join, List.flatMap_map,
      List.append_assoc]
  rw [read?, written, dropPrefix?_append]
  simp [nodes, edges]

theorem inId_of_mem_nodeId {position : Nat} {c : Char} (member : c ∈ (Diagram.nodeId position).toList) :
    inId c = true := by
  rw [Diagram.nodeId, String.toList_append] at member
  rcases List.mem_append.mp member with letter | digit
  · exact List.all_eq_true.mp (by decide : "n".toList.all inId = true) c letter
  · have numeral := Decimal.isDigit_of_mem_digits digit
    have others : c ≠ '[' ∧ c ≠ ' ' ∧ c ≠ '\n' := by
      refine ⟨?_, ?_, ?_⟩ <;> rintro rfl <;> cases numeral
    simpa [inId, and_assoc] using others

theorem inId_of_idOf? {kept : List String} {name id : String}
    (found : Diagram.idOf? kept name = some id) : ∀ c ∈ id.toList, inId c = true := by
  obtain ⟨position, -, rfl⟩ := Option.map_eq_some_iff.mp found
  exact fun c => inId_of_mem_nodeId

theorem plain_ofGraph (graph : CallGraph) (limit budget : Nat) :
    Plain (Diagram.ofGraph graph limit budget) where
  nodes := by
    intro node member
    have id := List.mem_map_of_mem (f := DiagramNode.id) member
    rw [Diagram.nodes_ids, List.mem_map] at id
    obtain ⟨position, -, same⟩ := id
    rw [← same]
    exact fun c => inId_of_mem_nodeId
  sources := by
    intro edge member
    rw [Diagram.edges_eq] at member
    obtain ⟨called, -, drawn⟩ := List.mem_filterMap.mp member
    exact inId_of_idOf? ((Diagram.drawn?_eq_some_iff ..).mp drawn).1
  targets := by
    intro edge member
    rw [Diagram.edges_eq] at member
    obtain ⟨called, -, drawn⟩ := List.mem_filterMap.mp member
    exact inId_of_idOf? ((Diagram.drawn?_eq_some_iff ..).mp drawn).2

/-- A flowchart is made from no more than what it shows. -/
theorem mermaid_congr {left right : Diagram} (nodes : left.nodes.map shown = right.nodes.map shown)
    (edges : left.edges = right.edges) : left.mermaid = right.mermaid := by
  have lines : ∀ diagram : Diagram, diagram.nodes.map Diagram.nodeLine =
      (diagram.nodes.map shown).map fun node =>
        "    " ++ node.id ++ "[\"" ++ node.label ++ "\"]" ++ lineEnd node.kind := by
    intro diagram
    rw [List.map_map]
    exact List.map_congr_left fun node _ => nodeLine_eq node
  rw [mermaid_eq, mermaid_eq, lines, lines, nodes, edges]

end Flowchart

namespace CallGraph

open Flowchart

/-- Whatever the names of a graph are, a reader that takes a label to end at the first double quote finds
the nodes and the edges of its diagram in the flowchart. So two flowcharts are equal exactly when they
show the same nodes and the same edges. -/
theorem project_readable {graph other : CallGraph} {limit budget otherLimit otherBudget : Nat}
    {left right : Diagram} (drawn : graph.project limit budget = .graph left)
    (also : other.project otherLimit otherBudget = .graph right) :
    read? left.mermaid = some (left.nodes.map shown, left.edges) ∧
    (left.mermaid = right.mermaid ↔
      left.nodes.map shown = right.nodes.map shown ∧ left.edges = right.edges) := by
  have plain : ∀ {graph : CallGraph} {limit budget : Nat} {diagram : Diagram},
      graph.project limit budget = .graph diagram → Plain diagram := by
    intro graph limit budget diagram found
    unfold project at found
    split at found
    · cases found
    · cases found
      exact plain_ofGraph graph limit budget
  have first := (plain drawn).read?_mermaid
  have second := (plain also).read?_mermaid
  refine ⟨first, fun same => ?_, fun same => mermaid_congr same.1 same.2⟩
  rw [same, second, Option.some_inj, Prod.mk.injEq] at first
  exact ⟨first.1.symm, first.2.symm⟩

/-- A caller whose name goes on like a flowchart behind a quote, and two callees. -/
def disguised : CallGraph :=
  .ofList [("a\"]\n    n1[\"b", ["n0 --> n1", "C::c"])]

/-- The same graph with the replacements of quotes for the quotes. -/
def spelledOut : CallGraph :=
  .ofList [("a#quot;]\n    n1[#quot;b", ["n0 --> n1", "C::c"])]

theorem project_readable_disguised : ∃ left right : Diagram, disguised.project 30 40 = .graph left ∧
    spelledOut.project 30 40 = .graph right ∧
    read? left.mermaid = some
      ([⟨"n0", .function, "a#quot;]\n    n1[#quot;b"⟩, ⟨"n1", .function, "n0 --> n1"⟩,
        ⟨"n2", .qualified, "C::c"⟩], [⟨"n0", "n1"⟩, ⟨"n0", "n2"⟩]) ∧
    left.mermaid = right.mermaid := by
  have drawn : disguised.project 30 40 = .graph (.ofGraph disguised 30 40) := if_neg (by decide +kernel)
  have also : spelledOut.project 30 40 = .graph (.ofGraph spelledOut 30 40) := if_neg (by decide +kernel)
  obtain ⟨found, same⟩ := project_readable drawn also
  exact ⟨_, _, drawn, also, found.trans (by decide +kernel), same.mpr (by decide +kernel)⟩

end CallGraph

end SourceAtlas
