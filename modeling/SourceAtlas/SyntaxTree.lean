/-!
Syntax trees as rows in document order. A row names the row it hangs below, so a subtree is a run of
consecutive rows, and the explicit-stack walk `walk` meets them in row order.
-/

namespace SourceAtlas

/-- One node: the row it hangs below, its kind, the field it fills there, and its bytes `[start, stop)`. -/
structure SyntaxRow where
  parent : Option Nat
  kind : String
  field : Option String
  start : Nat
  stop : Nat
  deriving Repr, DecidableEq

namespace SyntaxRow

def parentAt (rows : Array SyntaxRow) (i : Nat) : Option Nat :=
  rows[i]?.bind SyntaxRow.parent

/-- Row `i` may stand where it does: it hangs below an earlier row `p`, and no row between `p` and `i`
hangs above `p`. -/
def inPlace (rows : Array SyntaxRow) (i : Nat) : Bool :=
  match parentAt rows i with
  | none => false
  | some p => p < i && (List.range' (p + 1) (i - p - 1)).all fun j =>
      match parentAt rows j with
      | none => false
      | some q => p ≤ q

/-- Rows in pre-order: the first is the root, every other one is in place. -/
def isPreorder (rows : Array SyntaxRow) : Bool :=
  parentAt rows 0 == none && (List.range' 1 (rows.size - 1)).all (inPlace rows)

end SyntaxRow

/-- A syntax tree: at least one row, all of them in pre-order. -/
structure SyntaxTree where
  rows : Array SyntaxRow
  nonempty : 0 < rows.size
  preorder : SyntaxRow.isPreorder rows = true

namespace SyntaxTree

def ofRows? (rows : Array SyntaxRow) : Option SyntaxTree :=
  if nonempty : 0 < rows.size then
    if preorder : SyntaxRow.isPreorder rows = true then some { rows, nonempty, preorder } else none
  else none

/-- The tree that is one node without children. -/
def leaf (kind : String) (stop : Nat) : SyntaxTree where
  rows := #[{ parent := none, kind, field := none, start := 0, stop }]
  nonempty := by simp
  preorder := by simp [SyntaxRow.isPreorder, SyntaxRow.parentAt]

/-- Nodes are row numbers; their order is the document order. -/
abbrev Node (tree : SyntaxTree) := Fin tree.rows.size

variable (tree : SyntaxTree)

def root : tree.Node := ⟨0, tree.nonempty⟩

def row (node : tree.Node) : SyntaxRow := tree.rows[node]

def kind (node : tree.Node) : String := (tree.row node).kind

def parent? (node : tree.Node) : Option tree.Node :=
  match (tree.row node).parent with
  | none => none
  | some p => if h : p < node.val then some ⟨p, Nat.lt_trans h node.isLt⟩ else none

theorem parent?_lt {tree : SyntaxTree} {node above : tree.Node}
    (found : tree.parent? node = some above) : above < node := by
  unfold parent? at found
  split at found
  · simp at found
  · split at found
    · next h => cases found; exact h
    · simp at found

/-- The rows after `node`, up to the end of its subtree. -/
def descendants (node : tree.Node) : List tree.Node :=
  ((List.finRange tree.rows.size).drop (node.val + 1)).takeWhile fun below =>
    match tree.parent? below with
    | none => false
    | some above => node ≤ above

def children (node : tree.Node) : List tree.Node :=
  (tree.descendants node).filter fun below => tree.parent? below == some node

theorem lt_of_mem_children {tree : SyntaxTree} {node child : tree.Node}
    (member : child ∈ tree.children node) : node < child := by
  have hit := (List.mem_filter.mp member).2
  exact parent?_lt (beq_iff_eq.mp hit)

def childByField? (node : tree.Node) (field : String) : Option tree.Node :=
  (tree.children node).find? fun child => (tree.row child).field == some field

theorem lt_of_childByField? {tree : SyntaxTree} {node child : tree.Node} {field : String}
    (found : tree.childByField? node field = some child) : node < child :=
  lt_of_mem_children (List.mem_of_find?_eq_some found)

def ancestors (node : tree.Node) : List tree.Node :=
  match _found : tree.parent? node with
  | none => []
  | some above => above :: ancestors above
termination_by node.val
decreasing_by exact parent?_lt _found

def nearestAncestor? (node : tree.Node) (test : tree.Node → Bool) : Option tree.Node :=
  (tree.ancestors node).find? test

def hasAncestorOfKind (node : tree.Node) (kinds : List String) : Bool :=
  (tree.nearestAncestor? node fun above => kinds.contains (tree.kind above)).isSome

/-- Visits the stacked nodes from the top; the children of a visited node replace it on the stack,
first child on top, when `descend` allows it. -/
def walkStack (descend : tree.Node → Bool) : Nat → List tree.Node → List tree.Node
  | 0, _ => []
  | _ + 1, [] => []
  | fuel + 1, node :: rest =>
      node :: walkStack descend fuel (if descend node then tree.children node ++ rest else rest)

/-- The nodes visited from `start`. A node is stacked only below the one node it hangs from, so no
walk takes more steps than there are rows. -/
def walk (start : tree.Node) (descend : tree.Node → Bool) : List tree.Node :=
  tree.walkStack descend tree.rows.size [start]

/-- All nodes of the subtree of `start` whose kind is listed, in document order. -/
def findOfKind (start : tree.Node) (kinds : List String) : List tree.Node :=
  (tree.walk start fun _ => true).filter fun node => kinds.contains (tree.kind node)

end SyntaxTree

end SourceAtlas
