import SourceAtlas.Proofs.DeclaredCalls
/-!
What a file documents. The functions outside every class are looked up apart from the classes and their
methods, and the subtree of a class is searched again for every class around it; still every definition is
met exactly once.
-/

namespace SourceAtlas

/-- What is made of items, each of them told by its item, comes from some of them in their order. -/
theorem filterMap_map_sublist {α β : Type} (make : α → Option β) (key : β → α)
    (told : ∀ item made, make item = some made → key made = item) (items : List α) :
    ((items.filterMap make).map key).Sublist items := by
  induction items with
  | nil => exact .slnil
  | cons item rest ih =>
      cases made : make item with
      | none =>
          rw [List.filterMap_cons_none made]
          exact ih.cons item
      | some found =>
          rw [List.filterMap_cons_some made, List.map_cons, told item found made]
          exact ih.cons_cons item

/-- The closest ancestor of a sort is below every other one of it. -/
theorem SyntaxTree.eq_or_mem_of_nearest {tree : SyntaxTree} {node owner other : tree.Node}
    {test : tree.Node → Bool} (nearest : (tree.ancestors node).find? test = some owner)
    (member : other ∈ tree.ancestors node) (alike : test other = true) :
    other = owner ∨ other ∈ tree.ancestors owner := by
  fun_induction tree.ancestors node with
  | case1 node top => cases member
  | case2 node parent found ih =>
      by_cases first : test parent = true
      · rw [List.find?_cons_of_pos first, Option.some_inj] at nearest
        subst nearest
        exact List.mem_cons.mp member
      · rw [List.find?_cons_of_neg first] at nearest
        rcases List.mem_cons.mp member with rfl | higher
        · exact absurd alike first
        · exact ih nearest higher

namespace Source

variable (source : Source) (language : Language)

/-- What a node documents, on the lines that it covers: a class under its name, a function outside every
class under its own name, or a function that belongs to a class under both names. -/
inductive Documents (node : source.tree.Node) : Entity → Prop
  | type {name : String} (isClass : source.IsClass language node)
      (named : source.definedName? language node = some name) :
      Documents node (source.entityOf name .type node)
  | function {name : String} (free : source.IsFree language name node) :
      Documents node (source.entityOf name .function node)
  | method {owner : source.tree.Node} {name : String}
      (belongs : source.IsMethod language owner name node) :
      Documents node (source.entityOf name .method node)

theorem not_isClass_of_isFunction {node : source.tree.Node}
    (isFunction : source.IsFunction language node) : ¬ source.IsClass language node := by
  have apart : ∀ kind ∈ language.functionKinds, kind ∉ language.classKinds := by
    cases language <;> decide
  exact apart _ isFunction

theorem mem_freeFunctions_iff (definition : Definition source) :
    definition ∈ source.freeFunctions language ↔
      definition.kind = .function ∧ source.IsFree language definition.name definition.node := by
  obtain ⟨name, kind, node⟩ := definition
  have found : node ∈ source.tree.findOfKind source.tree.root language.functionKinds ↔
      source.IsFunction language node := by
    rw [SyntaxTree.findOfKind_eq, List.mem_filter, SyntaxTree.inSubtree_root, Bool.true_and,
      contains_functionKinds, decide_eq_true_eq]
    exact and_iff_right (source.mem_nodes node)
  have outside := source.hasAncestorOfKind_iff language node
  simp only [freeFunctions, List.mem_filterMap, IsFree]
  constructor
  · rintro ⟨other, member, made⟩
    split at made
    · cases made
    · next free =>
        obtain ⟨_, named, same⟩ := Option.map_eq_some_iff.mp made
        cases same
        exact ⟨rfl, found.mp member,
          fun above higher isClass => free (outside.mpr ⟨above, higher, isClass⟩), named⟩
  · rintro ⟨rfl, isFunction, free, named⟩
    refine ⟨node, found.mpr isFunction, ?_⟩
    rw [if_neg, named, Option.map_some]
    intro inClass
    obtain ⟨above, higher, isClass⟩ := outside.mp inClass
    exact free above higher isClass

def definitionsAt (owner : source.tree.Node) : List (Definition source) :=
  match source.definedName? language owner with
  | none => []
  | some className => ⟨className, .type, owner⟩ ::
      (source.methodsOf language owner).filterMap fun method =>
        (source.definedName? language method).map fun name =>
          ⟨className ++ "." ++ name, .method, method⟩

theorem classDefinitions_eq : source.classDefinitions language =
    (source.nodes.filter fun owner => source.IsClass language owner).flatMap
      (source.definitionsAt language) := by
  rw [classDefinitions, SyntaxTree.findOfKind_eq]
  simp only [SyntaxTree.inSubtree_root, Bool.true_and, contains_classKinds]
  rfl

theorem mem_definitionsAt_iff (owner : source.tree.Node) (definition : Definition source) :
    definition ∈ source.definitionsAt language owner ↔
      definition.kind = .type ∧ definition.node = owner ∧
          source.definedName? language owner = some definition.name ∨
        definition.kind = .method ∧ source.IsFunction language definition.node ∧
          source.enclosing? language definition.node = some owner ∧
            source.qualifiedName? language owner definition.node = some definition.name := by
  obtain ⟨name, kind, node⟩ := definition
  unfold definitionsAt qualifiedName?
  split
  · next unnamed => simp [unnamed]
  · next className named =>
      simp only [named, List.mem_cons, Definition.mk.injEq, List.mem_filterMap, methodsOf_eq,
        List.mem_filter, mem_nodes, true_and, decide_eq_true_eq, Option.map_eq_some_iff,
        Option.some_inj]
      constructor
      · rintro (⟨rfl, rfl, rfl⟩ | ⟨method, ⟨isFunction, owned⟩, methodName, called, rfl, rfl, rfl⟩)
        · exact Or.inl ⟨rfl, rfl, rfl⟩
        · exact Or.inr ⟨rfl, isFunction, owned, by rw [called]; rfl⟩
      · rintro (⟨rfl, rfl, rfl⟩ | ⟨rfl, isFunction, owned, qualified⟩)
        · exact Or.inl ⟨rfl, rfl, rfl⟩
        · obtain ⟨outer, same, qualified⟩ := Option.bind_eq_some_iff.mp qualified
          obtain ⟨methodName, called, made⟩ := Option.bind_eq_some_iff.mp qualified
          cases same
          cases made
          exact Or.inr ⟨node, ⟨isFunction, owned⟩, methodName, called, rfl, rfl, rfl⟩

/-- The definitions of classes are the named classes and their methods. -/
theorem mem_classDefinitions_iff (definition : Definition source) :
    definition ∈ source.classDefinitions language ↔
      definition.kind = .type ∧ source.IsClass language definition.node ∧
          source.definedName? language definition.node = some definition.name ∨
        definition.kind = .method ∧
          ∃ owner, source.IsMethod language owner definition.name definition.node := by
  rw [classDefinitions_eq, List.mem_flatMap]
  simp only [List.mem_filter, mem_nodes, true_and, decide_eq_true_eq, mem_definitionsAt_iff, IsMethod]
  constructor
  · rintro ⟨owner, isClass, ⟨kind, rfl, named⟩ | ⟨kind, isFunction, owned, named⟩⟩
    · exact Or.inl ⟨kind, isClass, named⟩
    · exact Or.inr ⟨kind, owner, isFunction, isClass, owned, named⟩
  · rintro (⟨kind, isClass, named⟩ | ⟨kind, owner, isFunction, isClass, owned, named⟩)
    · exact ⟨definition.node, isClass, Or.inl ⟨kind, rfl, named⟩⟩
    · exact ⟨owner, isClass, Or.inr ⟨kind, isFunction, owned, named⟩⟩

theorem documents_iff (node : source.tree.Node) (entity : Entity) :
    source.Documents language node entity ↔ ∃ definition ∈ source.definitions language,
      definition.node = node ∧
        source.entityOf definition.name definition.kind definition.node = entity := by
  simp only [definitions, List.mem_append, mem_freeFunctions_iff, mem_classDefinitions_iff]
  constructor
  · intro documents
    cases documents with
    | @type name isClass named =>
        exact ⟨⟨name, .type, node⟩, Or.inr (Or.inl ⟨rfl, isClass, named⟩), rfl, rfl⟩
    | @function name free => exact ⟨⟨name, .function, node⟩, Or.inl ⟨rfl, free⟩, rfl, rfl⟩
    | @method owner name belongs =>
        exact ⟨⟨name, .method, node⟩, Or.inr (Or.inr ⟨rfl, owner, belongs⟩), rfl, rfl⟩
  · rintro ⟨⟨name, kind, node⟩, found, rfl, rfl⟩
    rcases found with ⟨same, free⟩ | ⟨same, isClass, named⟩ | ⟨same, owner, belongs⟩
    · cases same
      exact .function free
    · cases same
      exact .type isClass named
    · cases same
      exact .method belongs

/-- The class at which a definition is looked up: a class at itself, a method at the class that it belongs
to. A free function has none. -/
def home? (node : source.tree.Node) : Option source.tree.Node :=
  if source.IsClass language node then some node
  else (source.enclosing? language node).filter fun owner => source.IsClass language owner

/-- A definition is looked up before another: at an earlier home, where no home comes first, or before it at
the same one. -/
def LookedUpBefore (first second : source.tree.Node) : Prop :=
  source.home? language first < source.home? language second ∨
    source.home? language first = source.home? language second ∧ first < second

theorem home?_of_isFree {node : source.tree.Node} {name : String}
    (free : source.IsFree language name node) : source.home? language node = none := by
  obtain ⟨isFunction, outside, -⟩ := free
  rw [home?, if_neg (source.not_isClass_of_isFunction language isFunction), Option.filter_eq_none_iff]
  intro owner found
  simpa using outside owner (List.mem_of_find?_eq_some found)

theorem home?_of_isMethod {node owner : source.tree.Node} {name : String}
    (belongs : source.IsMethod language owner name node) : source.home? language node = some owner := by
  obtain ⟨isFunction, isClass, owned, -⟩ := belongs
  rw [home?, if_neg (source.not_isClass_of_isFunction language isFunction), owned]
  simp [isClass]

theorem home?_of_mem_definitionsAt {owner : source.tree.Node} (isClass : source.IsClass language owner)
    {definition : Definition source} (found : definition ∈ source.definitionsAt language owner) :
    source.home? language definition.node = some owner := by
  rcases (source.mem_definitionsAt_iff language owner definition).mp found with
    ⟨-, here, -⟩ | ⟨-, isFunction, owned, named⟩
  · rw [here, home?, if_pos isClass]
  · exact source.home?_of_isMethod language ⟨isFunction, isClass, owned, named⟩

theorem freeFunctions_ordered : ((source.freeFunctions language).map Definition.node).Pairwise (· < ·) := by
  rw [freeFunctions, SyntaxTree.findOfKind_eq]
  refine ((List.pairwise_lt_finRange _).filter _).sublist (filterMap_map_sublist _ _ ?_ _)
  intro node definition made
  split at made
  · cases made
  · obtain ⟨name, -, rfl⟩ := Option.map_eq_some_iff.mp made
    rfl

/-- What is found at a class stands in document order: the class, and then its methods below it. -/
theorem definitionsAt_ordered (owner : source.tree.Node) :
    ((source.definitionsAt language owner).map Definition.node).Pairwise (· < ·) := by
  unfold definitionsAt
  split
  · exact List.Pairwise.nil
  · next className named =>
      have methods := filterMap_map_sublist
        (fun method => (source.definedName? language method).map fun name =>
          (⟨className ++ "." ++ name, .method, method⟩ : Definition source))
        Definition.node
        (by
          intro method definition made
          obtain ⟨name, -, rfl⟩ := Option.map_eq_some_iff.mp made
          rfl)
        (source.methodsOf language owner)
      rw [methodsOf_eq] at methods ⊢
      refine List.pairwise_cons.mpr ⟨fun method member => ?_, ?_⟩
      · have found := methods.subset member
        rw [List.mem_filter, decide_eq_true_eq] at found
        exact SyntaxTree.lt_of_mem_ancestors (List.mem_of_find?_eq_some found.2.2)
      · exact ((List.pairwise_lt_finRange _).filter _).sublist methods

/-- Definitions are looked up in the order of their homes, and at one home in document order. -/
theorem definitions_ordered :
    ((source.definitions language).map Definition.node).Pairwise (source.LookedUpBefore language) := by
  have homeless : ∀ free ∈ source.freeFunctions language, source.home? language free.node = none :=
    fun free member =>
      source.home?_of_isFree language ((source.mem_freeFunctions_iff language free).mp member).2
  have inClasses : ∀ owner, owner ∈ (source.nodes.filter fun owner => source.IsClass language owner) →
      source.IsClass language owner :=
    fun owner member => of_decide_eq_true (List.mem_filter.mp member).2
  rw [definitions, classDefinitions_eq, List.pairwise_map, List.pairwise_append, List.pairwise_flatMap]
  refine ⟨?_, ⟨?_, ?_⟩, ?_⟩
  · refine (List.pairwise_map.mp (source.freeFunctions_ordered language)).imp_of_mem ?_
    intro first second inFirst inSecond before
    exact Or.inr ⟨(homeless first inFirst).trans (homeless second inSecond).symm, before⟩
  · intro owner member
    refine (List.pairwise_map.mp (source.definitionsAt_ordered language owner)).imp_of_mem ?_
    intro first second atFirst atSecond before
    exact Or.inr ⟨(source.home?_of_mem_definitionsAt language (inClasses owner member) atFirst).trans
      (source.home?_of_mem_definitionsAt language (inClasses owner member) atSecond).symm, before⟩
  · refine ((List.pairwise_lt_finRange _).filter _).imp_of_mem ?_
    intro owner other member alsoMember before first atFirst second atSecond
    left
    rw [source.home?_of_mem_definitionsAt language (inClasses owner member) atFirst,
      source.home?_of_mem_definitionsAt language (inClasses other alsoMember) atSecond]
    exact before
  · intro free member definition found
    obtain ⟨owner, alsoMember, atOwner⟩ := List.mem_flatMap.mp found
    left
    rw [homeless free member,
      source.home?_of_mem_definitionsAt language (inClasses owner alsoMember) atOwner]
    trivial

end Source

end SourceAtlas
