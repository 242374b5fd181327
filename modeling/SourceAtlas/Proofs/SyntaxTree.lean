import Mathlib.Data.List.Nodup
import SourceAtlas.Proofs.Table
import SourceAtlas.SyntaxTree
/-!
Walks over a syntax tree. The stack of a walk holds nodes in document order, none of them above
another, so what is visited comes in document order: a walk from a node comes to the nodes of its
subtree that no node on the way keeps it from, each once.
-/

namespace SourceAtlas.SyntaxTree

variable {tree : SyntaxTree}

/-- Every row but the first hangs below an earlier one, and so do the rows between the two. -/
theorem exists_parent {node : tree.Node} (inner : node.val ≠ 0) :
    ∃ above, tree.parent? node = some above ∧
      ∀ middle : tree.Node, above < middle → middle < node →
        ∃ other, (tree.row middle).parent = some other ∧ above.val ≤ other := by
  have placed : ∀ other : tree.Node,
      SyntaxRow.parentAt tree.rows other.val = (tree.row other).parent := by
    intro other
    simp [SyntaxRow.parentAt, row]
  have inPlace : SyntaxRow.inPlace tree.rows node.val = true := by
    have all := (Bool.and_eq_true_iff.mp tree.preorder).2
    refine List.all_eq_true.mp all node.val ?_
    have inside := node.isLt
    rw [List.mem_range'_1]
    omega
  rw [SyntaxRow.inPlace, placed] at inPlace
  cases named : (tree.row node).parent with
  | none =>
      rw [named] at inPlace
      cases inPlace
  | some p =>
      rw [named] at inPlace
      simp only [Bool.and_eq_true, decide_eq_true_eq, List.all_eq_true, List.mem_range'_1] at inPlace
      obtain ⟨less, between⟩ := inPlace
      refine ⟨⟨p, Nat.lt_trans less node.isLt⟩, by simp [parent?, named, less], ?_⟩
      intro middle after before
      rw [Fin.lt_def] at after before
      have held := between middle.val (by simp only at after; omega)
      -- a row in between hangs below an earlier one too, but not from above `p`
      rw [placed] at held
      cases above : (tree.row middle).parent with
      | none =>
          rw [above] at held
          cases held
      | some other =>
          rw [above] at held
          exact ⟨other, rfl, by simpa using held⟩

/-- The rows between a node and a child of it hang below the node. -/
theorem parent?_between {node child middle : tree.Node} (below : tree.parent? child = some node)
    (after : node < middle) (before : middle < child) :
    ∃ above, tree.parent? middle = some above ∧ node ≤ above := by
  have later := parent?_lt below
  rw [Fin.lt_def] at after before later
  have inner : child.val ≠ 0 := by omega
  have alsoInner : middle.val ≠ 0 := by omega
  obtain ⟨found, same, between⟩ := exists_parent inner
  rw [below, Option.some_inj] at same
  subst same
  obtain ⟨above, itself, -⟩ := exists_parent alsoInner
  obtain ⟨other, named, least⟩ := between middle after before
  have equal : other = above.val := by
    simp only [parent?, named] at itself
    split at itself
    · cases itself
      rfl
    · cases itself
  rw [equal] at least
  exact ⟨above, itself, least⟩

/-- In an ordered list the items up to one that are all taken lead to it. -/
theorem mem_takeWhile_of_ordered {n : Nat} {items : List (Fin n)} {test : Fin n → Bool}
    (ordered : items.Pairwise (· < ·)) {item : Fin n} (member : item ∈ items)
    (taken : ∀ other ∈ items, other ≤ item → test other = true) : item ∈ items.takeWhile test := by
  induction items with
  | nil => cases member
  | cons first rest ih =>
      obtain ⟨least, later⟩ := List.pairwise_cons.mp ordered
      have upTo : first ≤ item := by
        rcases List.mem_cons.mp member with rfl | inRest
        · exact Nat.le_refl _
        · exact Nat.le_of_lt (least item inRest)
      rw [List.takeWhile_cons_of_pos (taken first (List.mem_cons_self ..) upTo)]
      rcases List.mem_cons.mp member with rfl | inRest
      · exact List.mem_cons_self ..
      · exact List.mem_cons_of_mem _ (ih later inRest fun other inOther =>
          taken other (List.mem_cons_of_mem _ inOther))

theorem mem_children_iff {node child : tree.Node} :
    child ∈ tree.children node ↔ tree.parent? child = some node := by
  refine ⟨fun member => beq_iff_eq.mp (List.mem_filter.mp member).2, fun below => ?_⟩
  have later := parent?_lt below
  have dropped : ∀ other : tree.Node,
      other ∈ (List.finRange tree.rows.size).drop (node.val + 1) ↔ node < other := by
    intro other
    rw [List.mem_drop_iff_getElem]
    constructor
    · rintro ⟨i, inside, rfl⟩
      rw [Fin.lt_def, List.getElem_finRange]
      simp only [Fin.val_cast]
      omega
    · intro after
      rw [Fin.lt_def] at after
      refine ⟨other.val - (node.val + 1), ?_, ?_⟩
      · rw [List.length_finRange]
        omega
      · ext
        rw [List.getElem_finRange]
        simp only [Fin.val_cast]
        omega
  refine List.mem_filter.mpr ⟨?_, beq_iff_eq.mpr below⟩
  refine mem_takeWhile_of_ordered ((List.pairwise_lt_finRange _).drop) ((dropped child).mpr later) ?_
  intro other inRows upTo
  have after := (dropped other).mp inRows
  rcases Nat.lt_or_eq_of_le upTo with before | same
  · obtain ⟨above, found, least⟩ := parent?_between below after before
    simpa [found] using least
  · rw [Fin.ext same, below]
    simp

theorem children_pairwise (tree : SyntaxTree) (node : tree.Node) :
    (tree.children node).Pairwise (· < ·) :=
  (((List.pairwise_lt_finRange _).drop).sublist (List.takeWhile_sublist _)).sublist
    List.filter_sublist

theorem ancestors_of_none {node : tree.Node} (top : tree.parent? node = none) :
    tree.ancestors node = [] := by
  rw [ancestors]
  split
  · rfl
  · next above found =>
      rw [top] at found
      cases found

theorem ancestors_of_parent {node above : tree.Node} (found : tree.parent? node = some above) :
    tree.ancestors node = above :: tree.ancestors above := by
  rw [ancestors]
  split
  · next none =>
      rw [found] at none
      cases none
  · next other same =>
      rw [found, Option.some_inj] at same
      rw [same]

theorem mem_ancestors_iff {node above : tree.Node} :
    above ∈ tree.ancestors node ↔ ∃ parent, tree.parent? node = some parent ∧
      (above = parent ∨ above ∈ tree.ancestors parent) := by
  cases found : tree.parent? node with
  | none => simp [ancestors_of_none found]
  | some parent => simp [ancestors_of_parent found]

theorem lt_of_mem_ancestors {node above : tree.Node} (member : above ∈ tree.ancestors node) :
    above < node := by
  fun_induction tree.ancestors node with
  | case1 node top => cases member
  | case2 node parent found ih =>
      have less := parent?_lt found
      rcases List.mem_cons.mp member with rfl | higher
      · exact less
      · exact Nat.lt_trans (ih higher) less

theorem mem_ancestors_trans {low middle high : tree.Node} (upper : high ∈ tree.ancestors middle)
    (lower : middle ∈ tree.ancestors low) : high ∈ tree.ancestors low := by
  fun_induction tree.ancestors low with
  | case1 low top => cases lower
  | case2 low parent found ih =>
      rcases List.mem_cons.mp lower with rfl | higher
      · exact List.mem_cons_of_mem _ upper
      · exact List.mem_cons_of_mem _ (ih higher)

/-- A subtree is a run of rows: what stands between a node and one below it is below it too. -/
theorem mem_ancestors_between {above node middle : tree.Node} (member : above ∈ tree.ancestors node)
    (after : above < middle) (before : middle < node) : above ∈ tree.ancestors middle := by
  -- first for a child, upwards from the row in between
  have child : ∀ (parent child middle : tree.Node), tree.parent? child = some parent →
      parent < middle → middle < child → parent ∈ tree.ancestors middle := by
    intro parent child middle below after before
    fun_induction tree.ancestors middle with
    | case1 middle top =>
        obtain ⟨other, found, -⟩ := parent?_between below after before
        rw [top] at found
        cases found
    | case2 middle other found ih =>
        obtain ⟨same, named, least⟩ := parent?_between below after before
        rw [found, Option.some_inj] at named
        subst named
        rcases Nat.lt_or_eq_of_le least with less | equal
        · exact List.mem_cons_of_mem _ (ih less (Nat.lt_trans (parent?_lt found) before))
        · rw [Fin.ext equal]
          exact List.mem_cons_self ..
  fun_induction tree.ancestors node with
  | case1 node top => cases member
  | case2 node parent found ih =>
      rcases List.mem_cons.mp member with rfl | higher
      · exact child above node middle found after before
      · rcases Nat.lt_trichotomy middle.val parent.val with less | same | greater
        · exact ih higher less
        · rw [Fin.ext same]
          exact higher
        · exact mem_ancestors_trans higher (child parent node middle found greater before)

/-- What a walk from a node comes to: the node itself, and what it comes to from the children when it
may descend. -/
inductive Reaches (tree : SyntaxTree) (descend : tree.Node → Bool) : tree.Node → tree.Node → Prop
  | here (node : tree.Node) : Reaches tree descend node node
  | down {node child target : tree.Node} (allowed : descend node = true)
      (below : tree.parent? child = some node) (further : Reaches tree descend child target) :
      Reaches tree descend node target

theorem Reaches.eq_or_mem {descend : tree.Node → Bool} {start node : tree.Node}
    (reaches : tree.Reaches descend start node) : node = start ∨ start ∈ tree.ancestors node := by
  induction reaches with
  | here node => exact Or.inl rfl
  | down allowed below further ih =>
      right
      rcases ih with rfl | above
      · exact mem_ancestors_iff.mpr ⟨_, below, Or.inl rfl⟩
      · exact mem_ancestors_trans (mem_ancestors_iff.mpr ⟨_, below, Or.inl rfl⟩) above

theorem Reaches.extend {descend : tree.Node → Bool} {start parent node : tree.Node}
    (reaches : tree.Reaches descend start parent) (allowed : descend parent = true)
    (below : tree.parent? node = some parent) : tree.Reaches descend start node := by
  induction reaches with
  | here parent => exact .down allowed below (.here _)
  | down first inner further ih => exact .down first inner (ih allowed below)

theorem reaches_of_mem {start node : tree.Node} (above : start ∈ tree.ancestors node) :
    tree.Reaches (fun _ => true) start node := by
  fun_induction tree.ancestors node with
  | case1 node top => cases above
  | case2 node parent found ih =>
      rcases List.mem_cons.mp above with rfl | higher
      · exact .down rfl found (.here _)
      · exact (ih higher).extend rfl found

theorem le_of_reaches {descend : tree.Node → Bool} {start node : tree.Node}
    (reaches : tree.Reaches descend start node) : start ≤ node := by
  rcases reaches.eq_or_mem with rfl | above
  · exact Nat.le_refl _
  · exact Nat.le_of_lt (lt_of_mem_ancestors above)

/-- A stack of a walk: nodes in document order, none above another. -/
def Stacked (tree : SyntaxTree) (stack : List tree.Node) : Prop :=
  stack.Pairwise fun upper lower => upper < lower ∧ upper ∉ tree.ancestors lower

theorem Stacked.children {node : tree.Node} {rest : List tree.Node}
    (stacked : tree.Stacked (node :: rest)) : tree.Stacked (tree.children node ++ rest) := by
  obtain ⟨first, later⟩ := List.pairwise_cons.mp stacked
  refine List.pairwise_append.mpr ⟨?_, later, ?_⟩
  · refine (tree.children_pairwise node).imp_of_mem ?_
    intro left right inLeft inRight less
    refine ⟨less, fun above => ?_⟩
    rw [ancestors_of_parent (mem_children_iff.mp inRight)] at above
    -- a node above a sibling would be above their parent as well
    have upTo : left ≤ node := by
      rcases List.mem_cons.mp above with rfl | higher
      · exact Nat.le_refl _
      · exact Nat.le_of_lt (lt_of_mem_ancestors higher)
    exact absurd (parent?_lt (mem_children_iff.mp inLeft)) (Nat.not_lt.mpr upTo)
  · intro child inChildren other inRest
    obtain ⟨less, apart⟩ := first other inRest
    have below : node ∈ tree.ancestors child :=
      mem_ancestors_iff.mpr ⟨node, mem_children_iff.mp inChildren, Or.inl rfl⟩
    constructor
    · rcases Nat.lt_trichotomy child.val other.val with before | same | after
      · exact before
      · exact absurd (Fin.ext same ▸ below) apart
      · exact absurd (mem_ancestors_between below less after) apart
    · exact fun above => apart (mem_ancestors_trans below above)

/-- What is stacked after a node was visited is a stack again, of nodes behind it. -/
theorem Stacked.next {node : tree.Node} {rest : List tree.Node}
    (stacked : tree.Stacked (node :: rest)) (descend : Bool) :
    tree.Stacked (if descend then tree.children node ++ rest else rest) ∧
      ∀ other ∈ (if descend then tree.children node ++ rest else rest), node < other := by
  obtain ⟨first, later⟩ := List.pairwise_cons.mp stacked
  cases descend with
  | false => exact ⟨later, fun other member => (first other member).1⟩
  | true =>
      refine ⟨stacked.children, fun other member => ?_⟩
      rcases List.mem_append.mp member with inChildren | inRest
      · exact parent?_lt (mem_children_iff.mp inChildren)
      · exact (first other inRest).1

/-- What a walk visits: in document order, the nodes that its stack leads to. Every step of it moves
the top of the stack further down the rows, so it ends before its fuel does. -/
theorem walkStack_spec (descend : tree.Node → Bool) (fuel : Nat) (stack : List tree.Node)
    (stacked : tree.Stacked stack) (enough : ∀ node ∈ stack, tree.rows.size ≤ fuel + node.val) :
    (tree.walkStack descend fuel stack).Pairwise (· < ·) ∧
      ∀ node, node ∈ tree.walkStack descend fuel stack ↔
        ∃ start ∈ stack, tree.Reaches descend start node := by
  -- every turn moves the top of the stack down the rows, so the fuel is the rows that are left
  induction fuel generalizing stack with
  | zero =>
      cases stack with
      | nil => simp [walkStack]
      | cons node rest =>
          have outside := enough node (List.mem_cons_self ..)
          have inside := node.isLt
          omega
  | succ fuel ih =>
      cases stack with
      | nil => simp [walkStack]
      | cons top rest =>
          obtain ⟨next, after⟩ := stacked.next (descend top)
          obtain ⟨ordered, visited⟩ := ih _ next (by
            intro node member
            have less := after node member
            have upper := enough top (List.mem_cons_self ..)
            rw [Fin.lt_def] at less
            omega)
          rw [walkStack]
          constructor
          · refine List.pairwise_cons.mpr ⟨fun node member => ?_, ordered⟩
            obtain ⟨start, inNext, reaches⟩ := (visited node).mp member
            exact Nat.lt_of_lt_of_le (after start inNext) (le_of_reaches reaches)
          · intro node
            rw [List.mem_cons, visited]
            constructor
            · rintro (rfl | ⟨start, inNext, reaches⟩)
              · exact ⟨node, List.mem_cons_self .., .here node⟩
              · split at inNext
                · next allowed =>
                    rcases List.mem_append.mp inNext with inChildren | inRest
                    · exact ⟨top, List.mem_cons_self ..,
                        .down allowed (mem_children_iff.mp inChildren) reaches⟩
                    · exact ⟨start, List.mem_cons_of_mem top inRest, reaches⟩
                · exact ⟨start, List.mem_cons_of_mem top inNext, reaches⟩
            · rintro ⟨start, member, reaches⟩
              rcases List.mem_cons.mp member with rfl | inRest
              · cases reaches with
                | here => exact Or.inl rfl
                | down allowed below further =>
                    right
                    rw [if_pos allowed]
                    exact ⟨_, List.mem_append_left rest (mem_children_iff.mpr below), further⟩
              · right
                refine ⟨start, ?_, reaches⟩
                split
                · exact List.mem_append_right _ inRest
                · exact inRest

theorem walk_spec (start : tree.Node) (descend : tree.Node → Bool) :
    (tree.walk start descend).Pairwise (· < ·) ∧
      ∀ node, node ∈ tree.walk start descend ↔ tree.Reaches descend start node := by
  obtain ⟨ordered, visited⟩ := walkStack_spec descend tree.rows.size [start]
    (List.pairwise_singleton _ _) fun node _ => Nat.le_add_right _ _
  exact ⟨ordered, fun node => (visited node).trans (by simp)⟩

/-- Whether a node belongs to a subtree, its top included. -/
def inSubtree (tree : SyntaxTree) (top node : tree.Node) : Bool :=
  node == top || (tree.ancestors node).contains top

theorem inSubtree_iff {top node : tree.Node} :
    tree.inSubtree top node = true ↔ node = top ∨ top ∈ tree.ancestors node := by
  rw [inSubtree, Bool.or_eq_true, beq_iff_eq, List.contains_iff_mem]

theorem findOfKind_eq (start : tree.Node) (kinds : List String) :
    tree.findOfKind start kinds = (List.finRange tree.rows.size).filter fun node =>
      tree.inSubtree start node && kinds.contains (tree.kind node) := by
  obtain ⟨ordered, visited⟩ := tree.walk_spec start fun _ => true
  have walked : tree.walk start (fun _ => true) =
      (List.finRange tree.rows.size).filter (tree.inSubtree start) := by
    refine Table.eq_of_same_members ?_ ordered ((List.pairwise_lt_finRange _).filter _) fun node => ?_
    · exact fun first second less => Nat.not_lt.mpr (Nat.le_of_lt less)
    · rw [visited, List.mem_filter, inSubtree_iff]
      constructor
      · exact fun reaches => ⟨List.mem_finRange node, reaches.eq_or_mem⟩
      · rintro ⟨-, rfl | above⟩
        · exact .here node
        · exact reaches_of_mem above
  rw [findOfKind, walked, List.filter_filter]
  simp only [Bool.and_comm]

theorem inSubtree_root (node : tree.Node) : tree.inSubtree tree.root node = true := by
  rw [inSubtree_iff]
  fun_induction tree.ancestors node with
  | case1 node top =>
      left
      apply Classical.byContradiction
      intro other
      have inner : node.val ≠ 0 := fun zero => other (Fin.ext zero)
      obtain ⟨above, found, -⟩ := exists_parent inner
      rw [top] at found
      cases found
  | case2 node parent found ih =>
      right
      rcases ih with same | above
      · rw [same]
        exact List.mem_cons_self ..
      · exact List.mem_cons_of_mem _ above

end SourceAtlas.SyntaxTree
