import Mathlib.Data.List.Perm.Subperm
import SourceAtlas.Proofs.SyntaxTree
/-!
Walks with any visitor. At every turn of the loop the visitor says whether to descend. Whatever it says, the
loop ends, and it has then visited the nodes of the subtree with no skipped node above them, each once and in
document order.
-/

namespace SourceAtlas.SyntaxTree

variable {tree : SyntaxTree}

/-- Turns of the loop of a walk: what was stacked before them, the visited nodes with what the visitor said
about descending there, and what is left on the stack. -/
inductive Walks (tree : SyntaxTree) : List tree.Node → List (tree.Node × Bool) → List tree.Node → Prop
  | refl (stack : List tree.Node) : Walks tree stack [] stack
  | visit (node : tree.Node) (descend : Bool) {rest left : List tree.Node}
      {visits : List (tree.Node × Bool)}
      (further : Walks tree (if descend then tree.children node ++ rest else rest) visits left) :
      Walks tree (node :: rest) ((node, descend) :: visits) left

theorem le_of_inSubtree {top node : tree.Node} (below : tree.inSubtree top node = true) : top ≤ node := by
  rcases inSubtree_iff.mp below with rfl | above
  · exact Nat.le_refl _
  · exact Nat.le_of_lt (lt_of_mem_ancestors above)

theorem inSubtree_of_child {node child target : tree.Node} (hangs : tree.parent? child = some node)
    (below : tree.inSubtree child target = true) : tree.inSubtree node target = true := by
  have above : node ∈ tree.ancestors child := mem_ancestors_iff.mpr ⟨node, hangs, Or.inl rfl⟩
  rcases inSubtree_iff.mp below with rfl | higher
  · exact inSubtree_iff.mpr (Or.inr above)
  · exact inSubtree_iff.mpr (Or.inr (mem_ancestors_trans above higher))

/-- What stands strictly between a node and one in the subtree of a child is in the child's subtree. -/
theorem inSubtree_child_of_above {node child target above : tree.Node}
    (hangs : tree.parent? child = some node) (below : tree.inSubtree child target = true)
    (higher : above ∈ tree.ancestors target) (inside : node < above) :
    tree.inSubtree child above = true := by
  rcases Nat.lt_trichotomy above.val child.val with before | same | after
  · -- nothing is between a node and its child
    have between : above ∈ tree.ancestors child := by
      rcases inSubtree_iff.mp below with rfl | upper
      · exact higher
      · exact mem_ancestors_between higher before (lt_of_mem_ancestors upper)
    rw [ancestors_of_parent hangs] at between
    rcases List.mem_cons.mp between with rfl | upper
    · exact absurd inside (Nat.lt_irrefl _)
    · exact absurd inside (Nat.lt_asymm (lt_of_mem_ancestors upper))
  · exact inSubtree_iff.mpr (Or.inl (Fin.ext same))
  · rcases inSubtree_iff.mp below with rfl | upper
    · exact absurd after (Nat.lt_asymm (lt_of_mem_ancestors higher))
    · exact inSubtree_iff.mpr (Or.inr (mem_ancestors_between upper after (lt_of_mem_ancestors higher)))

/-- A walk comes to the nodes of a subtree with leave to descend at all nodes of it above them. -/
theorem reaches_iff {descend : tree.Node → Bool} {start node : tree.Node} :
    tree.Reaches descend start node ↔ tree.inSubtree start node = true ∧
      ∀ above ∈ tree.ancestors node, tree.inSubtree start above = true → descend above = true := by
  constructor
  · intro reaches
    induction reaches with
    | here node =>
        refine ⟨inSubtree_iff.mpr (Or.inl rfl), fun above higher below => ?_⟩
        exact absurd (le_of_inSubtree below) (Nat.not_le.mpr (lt_of_mem_ancestors higher))
    | @down node child target allowed hangs further ih =>
        obtain ⟨below, permitted⟩ := ih
        refine ⟨inSubtree_of_child hangs below, fun above higher inside => ?_⟩
        rcases inSubtree_iff.mp inside with rfl | upper
        · exact allowed
        · exact permitted above higher
            (inSubtree_child_of_above hangs below higher (lt_of_mem_ancestors upper))
  · rintro ⟨below, permitted⟩
    fun_induction tree.ancestors node with
    | case1 node top =>
        rcases inSubtree_iff.mp below with rfl | higher
        · exact .here _
        · rw [ancestors_of_none top] at higher
          cases higher
    | case2 node parent hangs ih =>
        rcases inSubtree_iff.mp below with rfl | higher
        · exact .here _
        · rw [ancestors_of_parent hangs, List.mem_cons] at higher
          have inside : tree.inSubtree start parent = true :=
            inSubtree_iff.mpr (higher.imp_left Eq.symm)
          refine (ih inside fun above upper => permitted above (List.mem_cons_of_mem _ upper)).extend ?_ hangs
          exact permitted parent (List.mem_cons_self ..) inside

/-- What is visited on the way stands in document order, below what was stacked. -/
theorem Walks.ordered {stack left : List tree.Node} {visits : List (tree.Node × Bool)}
    (walks : tree.Walks stack visits left) (stacked : tree.Stacked stack) :
    (visits.map Prod.fst).Pairwise (· < ·) ∧
      ∀ node ∈ visits.map Prod.fst, ∃ top ∈ stack, tree.inSubtree top node = true := by
  induction walks with
  | refl stack => simp
  | @visit top descend rest left visits further ih =>
      obtain ⟨next, after⟩ := stacked.next descend
      obtain ⟨ordered, below⟩ := ih next
      rw [List.map_cons]
      refine ⟨List.pairwise_cons.mpr ⟨fun node member => ?_, ordered⟩, fun node member => ?_⟩
      · obtain ⟨other, inNext, inside⟩ := below node member
        exact Nat.lt_of_lt_of_le (after other inNext) (le_of_inSubtree inside)
      · rcases List.mem_cons.mp member with rfl | later
        · exact ⟨_, List.mem_cons_self .., inSubtree_iff.mpr (Or.inl rfl)⟩
        · obtain ⟨other, inNext, inside⟩ := below node later
          split at inNext
          · rcases List.mem_append.mp inNext with inChildren | inRest
            · exact ⟨top, List.mem_cons_self ..,
                inSubtree_of_child (mem_children_iff.mp inChildren) inside⟩
            · exact ⟨other, List.mem_cons_of_mem _ inRest, inside⟩
          · exact ⟨other, List.mem_cons_of_mem _ inNext, inside⟩

/-- Turns that leave nothing are those of the walk with a visitor that answers as they tell. -/
theorem Walks.eq_walkStack {stack left : List tree.Node} {visits : List (tree.Node × Bool)}
    (walks : tree.Walks stack visits left) (ended : left = []) {descend : tree.Node → Bool}
    (told : ∀ visit ∈ visits, descend visit.1 = visit.2) {fuel : Nat} (enough : visits.length ≤ fuel) :
    visits.map Prod.fst = tree.walkStack descend fuel stack := by
  induction walks generalizing fuel with
  | refl stack =>
      subst ended
      cases fuel <;> rfl
  | @visit node answer rest left visits further ih =>
      obtain ⟨here, later⟩ := List.forall_mem_cons.mp told
      cases fuel with
      | zero => cases enough
      | succ fuel =>
          rw [walkStack, here, List.map_cons, ih ended later (Nat.le_of_succ_le_succ enough)]

/-- The loop ends with an empty stack before the fuel does. -/
theorem walks_walkStack (descend : tree.Node → Bool) (fuel : Nat) (stack : List tree.Node)
    (stacked : tree.Stacked stack) (enough : ∀ node ∈ stack, tree.rows.size ≤ fuel + node.val) :
    tree.Walks stack ((tree.walkStack descend fuel stack).map fun node => (node, descend node)) [] := by
  induction fuel generalizing stack with
  | zero =>
      cases stack with
      | nil => exact .refl []
      | cons node rest =>
          have outside := enough node (List.mem_cons_self ..)
          have inside := node.isLt
          omega
  | succ fuel ih =>
      cases stack with
      | nil => exact .refl []
      | cons top rest =>
          obtain ⟨next, after⟩ := stacked.next (descend top)
          rw [walkStack, List.map_cons]
          refine .visit top (descend top) (ih _ next fun node member => ?_)
          have less := after node member
          have upper := enough top (List.mem_cons_self ..)
          rw [Fin.lt_def] at less
          omega

def subtree (tree : SyntaxTree) (top : tree.Node) : List tree.Node :=
  (List.finRange tree.rows.size).filter (tree.inSubtree top)

theorem mem_subtree_iff {top node : tree.Node} :
    node ∈ tree.subtree top ↔ tree.inSubtree top node = true := by
  simp [subtree]

theorem Walks.length_le {start : tree.Node} {left : List tree.Node} {visits : List (tree.Node × Bool)}
    (walks : tree.Walks [start] visits left) : visits.length ≤ (tree.subtree start).length := by
  obtain ⟨ordered, below⟩ := walks.ordered (List.pairwise_singleton _ _)
  have distinct : (visits.map Prod.fst).Nodup := ordered.imp fun less => Fin.ne_of_lt less
  have inside : visits.map Prod.fst ⊆ tree.subtree start := by
    intro node member
    obtain ⟨top, single, inSubtree⟩ := below node member
    exact mem_subtree_iff.mpr (List.mem_singleton.mp single ▸ inSubtree)
  simpa using (List.Nodup.subperm distinct inside).length_le

/-- A walk that has ended came to the nodes with no skipped node above them. -/
theorem Walks.mem_iff {start : tree.Node} {visits : List (tree.Node × Bool)}
    (walks : tree.Walks [start] visits []) (node : tree.Node) :
    node ∈ visits.map Prod.fst ↔ tree.inSubtree start node = true ∧
      ∀ above ∈ tree.ancestors node, tree.inSubtree start above = true → (above, false) ∉ visits := by
  have stacked : tree.Stacked [start] := List.pairwise_singleton _ _
  obtain ⟨ordered, -⟩ := walks.ordered stacked
  -- no node is visited twice, so the visitor's words make up one answer for each node
  have told : ∀ visit ∈ visits, (!decide ((visit.1, false) ∈ visits)) = visit.2 := by
    rintro ⟨each, descend⟩ member
    cases descend with
    | false => simpa using member
    | true =>
        have single : (each, false) ∉ visits := by
          intro also
          cases Table.eq_of_key_eq (ordered.imp fun less => Fin.ne_of_lt less) member also rfl
        simpa using single
  have enough : visits.length ≤ tree.rows.size := by
    have rows := List.length_filter_le (tree.inSubtree start) (List.finRange tree.rows.size)
    rw [List.length_finRange] at rows
    exact Nat.le_trans walks.length_le rows
  have same : visits.map Prod.fst =
      tree.walkStack (fun each => !decide ((each, false) ∈ visits)) tree.rows.size [start] :=
    walks.eq_walkStack rfl told enough
  rw [same, (walkStack_spec _ _ [start] stacked fun _ _ => Nat.le_add_right _ _).2]
  simp [reaches_iff]

/-- The loop of a walk takes no more turns than the subtree has rows, whatever the visitor says. When nothing
is left on the stack it has visited exactly the nodes of the subtree that have no skipped node of it above
them, each once, in document order; and it comes to that with any visitor. So looking for nodes of some kinds
answers the rows of the subtree that have one, in their order. -/
theorem walk_visits (tree : SyntaxTree) (start : tree.Node) :
    (∀ visits left, tree.Walks [start] visits left → visits.length ≤ (tree.subtree start).length) ∧
    (∀ visits, tree.Walks [start] visits [] →
      (visits.map Prod.fst).Pairwise (· < ·) ∧
      ∀ node, node ∈ visits.map Prod.fst ↔ tree.inSubtree start node = true ∧
        ∀ above ∈ tree.ancestors node, tree.inSubtree start above = true → (above, false) ∉ visits) ∧
    (∀ descend, tree.Walks [start] ((tree.walk start descend).map fun node => (node, descend node)) []) ∧
    ∀ kinds, tree.findOfKind start kinds =
      (tree.subtree start).filter fun node => kinds.contains (tree.kind node) := by
  have stacked : tree.Stacked [start] := List.pairwise_singleton _ _
  refine ⟨fun visits left walks => walks.length_le,
    fun visits walks => ⟨(walks.ordered stacked).1, walks.mem_iff⟩, fun descend => ?_, fun kinds => ?_⟩
  · exact walks_walkStack descend _ [start] stacked fun _ _ => Nat.le_add_right _ _
  · rw [findOfKind_eq, subtree, List.filter_filter]
    simp only [Bool.and_comm]

end SourceAtlas.SyntaxTree
