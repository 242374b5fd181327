import SourceAtlas.Extraction
import SourceAtlas.Proofs.CallGraph
import SourceAtlas.Proofs.SyntaxTree
/-!
The call graph of a file is the relation that its syntax tree declares: a function outside every class
calls under its own name, a function that belongs to a class under both names, and what it calls are
the calls in its body that are no noise.
-/

namespace SourceAtlas

namespace Source

variable (source : Source) (language : Language)

def IsFunction (node : source.tree.Node) : Prop :=
  source.tree.kind node ∈ language.functionKinds

def IsClass (node : source.tree.Node) : Prop :=
  source.tree.kind node ∈ language.classKinds

instance (node : source.tree.Node) : Decidable (source.IsFunction language node) :=
  inferInstanceAs (Decidable (_ ∈ _))

instance (node : source.tree.Node) : Decidable (source.IsClass language node) :=
  inferInstanceAs (Decidable (_ ∈ _))

def IsFree (key : String) (node : source.tree.Node) : Prop :=
  source.IsFunction language node ∧
    (∀ above ∈ source.tree.ancestors node, ¬ source.IsClass language above) ∧
      source.definedName? language node = some key

/-- The closest function or class that a node stands in. -/
def enclosing? (node : source.tree.Node) : Option source.tree.Node :=
  (source.tree.ancestors node).find? fun above =>
    source.IsFunction language above ∨ source.IsClass language above

/-- The name of a class and the name of a function in it, with a dot between them. -/
def qualifiedName? (owner node : source.tree.Node) : Option String := do
  let className ← source.definedName? language owner
  let name ← source.definedName? language node
  return className ++ "." ++ name

/-- A function whose closest function or class is the class `owner`, with this name. -/
def IsMethod (owner : source.tree.Node) (key : String) (node : source.tree.Node) : Prop :=
  source.IsFunction language node ∧ source.IsClass language owner ∧
    source.enclosing? language node = some owner ∧
      source.qualifiedName? language owner node = some key

instance (key : String) (node : source.tree.Node) : Decidable (source.IsFree language key node) :=
  inferInstanceAs (Decidable (_ ∧ _ ∧ _))

instance (owner : source.tree.Node) (key : String) (node : source.tree.Node) :
    Decidable (source.IsMethod language owner key node) :=
  inferInstanceAs (Decidable (_ ∧ _ ∧ _ ∧ _))

/-- The function `node` is one that calls under `key`. -/
def Declares (key : String) (node : source.tree.Node) : Prop :=
  source.IsFree language key node ∨ ∃ owner, source.IsMethod language owner key node

/-- A node stands in the body of a function: in the subtree of its child of that name, or of the function
itself if there is none. -/
def InBody (node inner : source.tree.Node) : Prop :=
  source.tree.inSubtree ((source.tree.childByField? node "body").getD node) inner = true

instance (node inner : source.tree.Node) : Decidable (source.InBody node inner) :=
  inferInstanceAs (Decidable (_ = true))

/-- A call in the body of a function resolves to a name that is no noise. -/
def Calls (noise : NoiseWords) (node : source.tree.Node) (callee : String) : Prop :=
  ∃ call, source.InBody node call ∧ source.tree.kind call ∈ language.callKinds ∧
    source.callName? language call = some callee ∧ noise.isNoise callee language.tag = false

def nodes : List source.tree.Node := List.finRange source.tree.rows.size

/-- The functions that call under a name: the free ones in document order, then class by class in
document order the methods of each, again in document order. -/
def declarers (key : String) : List source.tree.Node :=
  source.nodes.filter (fun node => source.IsFree language key node) ++
    source.nodes.flatMap fun owner => source.nodes.filter fun node =>
      source.IsMethod language owner key node

/-- The names called in the body of a function, call by call in document order. -/
def namesCalled (noise : NoiseWords) (node : source.tree.Node) : List String :=
  ((source.nodes.filter fun call =>
    source.InBody node call ∧ source.tree.kind call ∈ language.callKinds).filterMap
      (source.callName? language)).filter fun name => !noise.isNoise name language.tag

theorem mem_nodes (node : source.tree.Node) : node ∈ source.nodes := List.mem_finRange node

theorem mem_declarers_iff (key : String) (node : source.tree.Node) :
    node ∈ source.declarers language key ↔ source.Declares language key node := by
  simp [declarers, Declares, mem_nodes]

theorem mem_namesCalled_iff (noise : NoiseWords) (node : source.tree.Node) (callee : String) :
    callee ∈ source.namesCalled language noise node ↔ source.Calls language noise node callee := by
  simp only [namesCalled, Calls, List.mem_filter, List.mem_filterMap, mem_nodes, true_and,
    decide_eq_true_eq, Bool.not_eq_true']
  constructor
  · rintro ⟨⟨call, ⟨inside, kind⟩, resolved⟩, heard⟩
    exact ⟨call, inside, kind, resolved, heard⟩
  · rintro ⟨call, inside, kind, resolved, heard⟩
    exact ⟨⟨call, ⟨inside, kind⟩, resolved⟩, heard⟩

theorem nodeText?_ne_empty {node : source.tree.Node} {text : String}
    (found : source.nodeText? node = some text) : text ≠ "" := by
  obtain ⟨bytes, -, trimmed⟩ := Option.bind_eq_some_iff.mp found
  simp only at trimmed
  split at trimmed
  · cases trimmed
  · next filled =>
      cases trimmed
      exact fun empty => filled (String.isEmpty_iff.mpr empty)

theorem fieldText?_ne_empty {node : source.tree.Node} {field text : String}
    (found : source.fieldText? node field = some text) : text ≠ "" := by
  obtain ⟨child, -, named⟩ := Option.bind_eq_some_iff.mp found
  exact source.nodeText?_ne_empty named

theorem rustCallee?_ne_empty {node : source.tree.Node} {name : String}
    (found : source.rustCallee? node = some name) : name ≠ "" := by
  fun_induction source.rustCallee? node with
  | case1 node kind => exact source.nodeText?_ne_empty found
  | case2 node _ kind => exact source.fieldText?_ne_empty found
  | case3 node _ _ kind => exact source.fieldText?_ne_empty found
  | case4 node _ _ _ kind none => cases found
  | case5 node _ _ _ kind inner below ih => exact ih found
  | case6 node _ _ _ _ => cases found

theorem memberCallee?_ne_empty {access field : String} {node : source.tree.Node} {name : String}
    (found : source.memberCallee? access field node = some name) : name ≠ "" := by
  unfold memberCallee? at found
  split at found
  · exact source.nodeText?_ne_empty found
  · split at found
    · exact source.fieldText?_ne_empty found
    · cases found

theorem csharpName?_ne_empty {node : source.tree.Node} {name : String}
    (found : source.csharpName? node = some name) : name ≠ "" := by
  unfold csharpName? at found
  split at found
  · exact source.nodeText?_ne_empty found
  · split at found
    · split at found
      · exact source.nodeText?_ne_empty found
      · obtain ⟨child, -, named⟩ := Option.bind_eq_some_iff.mp found
        exact source.nodeText?_ne_empty named
    · cases found

theorem callName?_ne_empty {call : source.tree.Node} {name : String}
    (found : source.callName? language call = some name) : name ≠ "" := by
  cases language with
  | java => exact source.fieldText?_ne_empty found
  | rust =>
      obtain ⟨callee, -, named⟩ := Option.bind_eq_some_iff.mp found
      exact source.rustCallee?_ne_empty named
  | python =>
      obtain ⟨callee, -, named⟩ := Option.bind_eq_some_iff.mp found
      exact source.memberCallee?_ne_empty named
  | javascript =>
      obtain ⟨callee, -, named⟩ := Option.bind_eq_some_iff.mp found
      exact source.memberCallee?_ne_empty named
  | csharp =>
      obtain ⟨callee, -, named⟩ := Option.bind_eq_some_iff.mp found
      unfold csharpCallee? at named
      split at named
      · obtain ⟨child, -, named⟩ := Option.bind_eq_some_iff.mp named
        exact source.csharpName?_ne_empty named
      · exact source.csharpName?_ne_empty named

theorem implementedType?_ne_empty {node : source.tree.Node} {name : String}
    (found : source.implementedType? node = some name) : name ≠ "" := by
  have named : ∀ plain, (if source.tree.kind plain = "scoped_type_identifier" then
      source.fieldText? plain "name" else source.nodeText? plain) = some name → name ≠ "" := by
    intro plain found
    split at found
    · exact source.fieldText?_ne_empty found
    · exact source.nodeText?_ne_empty found
  obtain ⟨written, -, found⟩ := Option.bind_eq_some_iff.mp found
  simp only at found
  split at found
  · obtain ⟨plain, -, found⟩ := Option.bind_eq_some_iff.mp found
    exact named plain found
  · exact named written found

theorem definedName?_ne_empty {node : source.tree.Node} {name : String}
    (found : source.definedName? language node = some name) : name ≠ "" := by
  unfold definedName? at found
  split at found
  · exact source.implementedType?_ne_empty found
  · exact source.fieldText?_ne_empty found

def callPairs (noise : NoiseWords) (definition : Definition source) : List (String × String) :=
  match definition.kind with
  | .type => []
  | _ => (source.callsIn language noise definition.node).map fun callee => (definition.name, callee)

theorem analyze_graph (noise : NoiseWords) :
    (source.analyze language noise).graph.adjacency =
      ({} : Adjacency).addPairs
        ((source.definitions language).flatMap (source.callPairs language noise)) := by
  have grown : ∀ (definitions : List (Definition source)) (graph : CallGraph),
      (definitions.foldl (source.addDefinition language noise) graph).adjacency =
        graph.adjacency.addPairs (definitions.flatMap (source.callPairs language noise)) := by
    intro definitions
    induction definitions with
    | nil => exact fun graph => rfl
    | cons first rest ih =>
        intro graph
        rw [List.foldl_cons, ih, List.flatMap_cons, Adjacency.addPairs, Adjacency.addPairs,
          List.foldl_append]
        congr 1
        unfold addDefinition callPairs
        cases first.kind <;> rfl
  exact grown _ {}

/-- What counts as the body of a definition is what stands in the body of a function. -/
theorem inSubtree_bodyOf (node inner : source.tree.Node) :
    source.tree.inSubtree (source.bodyOf node) inner = decide (source.InBody node inner) :=
  Bool.decide_eq_true.symm

theorem callsIn_eq (noise : NoiseWords) (node : source.tree.Node) :
    source.callsIn language noise node = (source.namesCalled language noise node).eraseDups := by
  have calls : source.tree.findOfKind (source.bodyOf node) language.callKinds =
      source.nodes.filter fun call =>
        source.InBody node call ∧ source.tree.kind call ∈ language.callKinds := by
    rw [SyntaxTree.findOfKind_eq, nodes]
    apply List.filter_congr
    intro call member
    rw [inSubtree_bodyOf, List.contains_eq_mem, Bool.decide_and]
  rw [callsIn, calls, namesCalled]

theorem contains_functionKinds (node : source.tree.Node) :
    language.functionKinds.contains (source.tree.kind node) = decide (source.IsFunction language node) :=
  List.contains_eq_mem ..

theorem contains_classKinds (node : source.tree.Node) :
    language.classKinds.contains (source.tree.kind node) = decide (source.IsClass language node) :=
  List.contains_eq_mem ..

theorem hasAncestorOfKind_iff (node : source.tree.Node) :
    source.tree.hasAncestorOfKind node language.classKinds = true ↔
      ∃ above ∈ source.tree.ancestors node, source.IsClass language above := by
  simp only [SyntaxTree.hasAncestorOfKind, SyntaxTree.nearestAncestor?, List.find?_isSome,
    contains_classKinds, decide_eq_true_eq]

theorem freeFunctions_named (key : String) :
    ((source.freeFunctions language).filter fun definition =>
      definition.kind ≠ .type ∧ definition.name = key).map Definition.node =
        source.nodes.filter fun node => source.IsFree language key node := by
  rw [freeFunctions, SyntaxTree.findOfKind_eq, List.filter_filterMap, List.map_filterMap,
    List.filterMap_filter, ← List.filterMap_eq_filter]
  apply List.filterMap_congr
  intro node member
  have outside := source.hasAncestorOfKind_iff language node
  rw [SyntaxTree.inSubtree_root, Bool.true_and, contains_functionKinds]
  by_cases function : source.IsFunction language node
  · by_cases inClass : source.tree.hasAncestorOfKind node language.classKinds = true
    · obtain ⟨above, higher, isClass⟩ := outside.mp inClass
      have nested : ¬ source.IsFree language key node := fun free => free.2.1 above higher isClass
      simp [function, inClass, nested, Option.guard]
    · have free : ∀ above ∈ source.tree.ancestors node, ¬ source.IsClass language above :=
        fun above higher isClass => inClass (outside.mpr ⟨above, higher, isClass⟩)
      have named : source.IsFree language key node ↔ source.definedName? language node = some key :=
        ⟨fun free => free.2.2, fun named => ⟨function, free, named⟩⟩
      simp only [function, inClass, named, Option.guard]
      cases source.definedName? language node with
      | none => simp
      | some name => by_cases same : name = key <;> simp [Option.filter, same]
  · have bound : ¬ source.IsFree language key node := fun free => function free.1
    simp [function, bound, Option.guard]

theorem methodsOf_eq (owner : source.tree.Node) :
    source.methodsOf language owner = source.nodes.filter fun node =>
      source.IsFunction language node ∧ source.enclosing? language node = some owner := by
  have closest : ∀ node, source.tree.nearestAncestor? node (fun above =>
      language.functionKinds.contains (source.tree.kind above) ||
        language.classKinds.contains (source.tree.kind above)) = source.enclosing? language node := by
    intro node
    simp only [SyntaxTree.nearestAncestor?, contains_functionKinds, contains_classKinds,
      ← Bool.decide_or, enclosing?]
  rw [methodsOf, SyntaxTree.findOfKind_eq, List.filter_filter]
  apply List.filter_congr
  intro node member
  rw [closest, contains_functionKinds]
  by_cases owned : source.enclosing? language node = some owner
  · -- the closest one of its kind is above the node, so the node is in its subtree
    have below : source.tree.inSubtree owner node = true := by
      rw [SyntaxTree.inSubtree, Bool.or_eq_true, List.contains_iff_mem]
      exact Or.inr (List.mem_of_find?_eq_some owned)
    simp [owned, below]
  · simp [owned]

theorem classDefinitions_named (key : String) :
    ((source.classDefinitions language).filter fun definition =>
      definition.kind ≠ .type ∧ definition.name = key).map Definition.node =
        source.nodes.flatMap fun owner => source.nodes.filter fun node =>
          source.IsMethod language owner key node := by
  rw [classDefinitions, SyntaxTree.findOfKind_eq, List.filter_flatMap, List.map_flatMap,
    Table.flatMap_filter]
  apply List.flatMap_congr
  intro owner member
  rw [SyntaxTree.inSubtree_root, Bool.true_and, contains_classKinds]
  by_cases isClass : source.IsClass language owner
  · rw [if_pos (by simpa using isClass)]
    split
    · next unnamed =>
        have none : ∀ node, ¬ source.IsMethod language owner key node := by
          intro node method
          have named := method.2.2.2
          rw [qualifiedName?, unnamed] at named
          cases named
        simp [none]
    · next className named =>
        rw [List.filter_cons_of_neg (by simp), methodsOf_eq, List.filter_filterMap, List.map_filterMap,
          List.filterMap_filter, ← List.filterMap_eq_filter]
        apply List.filterMap_congr
        -- a function of the class declares the key when the two names make it up
        intro node inNodes
        by_cases belongs : source.IsFunction language node ∧
            source.enclosing? language node = some owner
        · have method : source.IsMethod language owner key node ↔
              source.qualifiedName? language owner node = some key :=
            ⟨fun method => method.2.2.2, fun name => ⟨belongs.1, isClass, belongs.2, name⟩⟩
          rw [if_pos (by simpa using belongs)]
          simp only [method, Option.guard, qualifiedName?, named]
          cases source.definedName? language node with
          | none => simp
          | some name => by_cases same : className ++ "." ++ name = key <;> simp [Option.filter, same]
        · have other : ¬ source.IsMethod language owner key node :=
            fun method => belongs ⟨method.1, method.2.2.1⟩
          rw [if_neg (by simpa using belongs)]
          simp [other, Option.guard]
  · have none : ∀ node, ¬ source.IsMethod language owner key node :=
      fun node method => isClass method.2.1
    rw [if_neg (by simpa using isClass)]
    simp [none]

/-- The definitions that call under a name are those that declare it, in order. -/
theorem definitions_named (key : String) :
    ((source.definitions language).filter fun definition =>
      definition.kind ≠ .type ∧ definition.name = key).map Definition.node =
        source.declarers language key := by
  rw [definitions, List.filter_append, List.map_append, freeFunctions_named, classDefinitions_named]
  rfl

theorem name_ne_empty {definition : Definition source}
    (member : definition ∈ source.definitions language) : definition.name ≠ "" := by
  rcases List.mem_append.mp member with free | inClasses
  · obtain ⟨node, -, made⟩ := List.mem_filterMap.mp free
    split at made
    · cases made
    · obtain ⟨name, named, rfl⟩ := Option.map_eq_some_iff.mp made
      exact source.definedName?_ne_empty language named
  · obtain ⟨owner, -, made⟩ := List.mem_flatMap.mp inClasses
    split at made
    · cases made
    · next className named =>
        rcases List.mem_cons.mp made with rfl | method
        · exact source.definedName?_ne_empty language named
        · obtain ⟨node, -, found⟩ := List.mem_filterMap.mp method
          obtain ⟨name, -, rfl⟩ := Option.map_eq_some_iff.mp found
          simp

theorem callsIn_ne_empty {noise : NoiseWords} {node : source.tree.Node} {callee : String}
    (member : callee ∈ source.callsIn language noise node) : callee ≠ "" := by
  rw [callsIn_eq, List.mem_eraseDups, mem_namesCalled_iff] at member
  obtain ⟨call, -, -, resolved, -⟩ := member
  exact source.callName?_ne_empty language resolved

/-- Under a name stand the calls of the functions that declare it. -/
theorem namesUnder_callPairs (noise : NoiseWords) (key : String) :
    Adjacency.namesUnder ((source.definitions language).flatMap (source.callPairs language noise)) key =
      (source.declarers language key).flatMap (source.callsIn language noise) := by
  have each : ∀ definition ∈ source.definitions language,
      Adjacency.namesUnder (source.callPairs language noise definition) key =
        if definition.kind ≠ .type ∧ definition.name = key then
          source.callsIn language noise definition.node else [] := by
    intro definition member
    have whole : ∀ callee ∈ source.callsIn language noise definition.node,
        Adjacency.Usable (definition.name, callee) := fun callee called =>
      ⟨source.name_ne_empty language member, source.callsIn_ne_empty language called⟩
    have pairs : Adjacency.namesUnder ((source.callsIn language noise definition.node).map
        fun callee => (definition.name, callee)) key =
          if definition.name = key then source.callsIn language noise definition.node else [] := by
      rw [Adjacency.namesUnder, List.filter_map, List.map_map]
      by_cases same : definition.name = key
      · rw [if_pos same, List.filter_eq_self.mpr]
        · simp [Function.comp_def]
        · intro callee called
          simpa [same] using same ▸ whole callee called
      · rw [if_neg same, List.filter_eq_nil_iff.mpr]
        · rfl
        · intro callee called
          simp [same]
    unfold callPairs
    split
    · next isType => simp [isType, Adjacency.namesUnder]
    · next other =>
        rw [pairs]
        have calls : definition.kind ≠ .type := fun isType => other isType
        simp [calls]
  -- the pairs are taken definition by definition, and those of other names fall away
  calc Adjacency.namesUnder
        ((source.definitions language).flatMap (source.callPairs language noise)) key
      = (source.definitions language).flatMap fun definition =>
          Adjacency.namesUnder (source.callPairs language noise definition) key := by
        simp only [Adjacency.namesUnder, List.filter_flatMap, List.map_flatMap]
    _ = (source.definitions language).flatMap fun definition =>
          if decide (definition.kind ≠ .type ∧ definition.name = key) = true then
            source.callsIn language noise definition.node else [] := by
        apply List.flatMap_congr
        intro definition member
        rw [each definition member]
        simp only [decide_eq_true_eq]
    _ = (source.declarers language key).flatMap (source.callsIn language noise) := by
        rw [← Table.flatMap_filter, ← definitions_named, List.flatMap_map]

/-- What is found under a name: what the functions that declare it call, each name where it is first
called. -/
theorem callees?_analyze (noise : NoiseWords) (key : String) :
    (((source.analyze language noise).graph.callees? key).getD []) =
      ((source.declarers language key).flatMap (source.namesCalled language noise)).eraseDups := by
  have portions : ∀ (nodes : List source.tree.Node) (known : List String),
      (nodes.flatMap (source.callsIn language noise)).foldl Adjacency.addName known =
        (nodes.flatMap (source.namesCalled language noise)).foldl Adjacency.addName known := by
    intro nodes
    induction nodes with
    | nil => exact fun known => rfl
    | cons node rest ih =>
        intro known
        rw [List.flatMap_cons, List.flatMap_cons, List.foldl_append, List.foldl_append, callsIn_eq,
          Adjacency.foldl_addName_eraseDups, ih]
  rw [CallGraph.callees?, analyze_graph, Adjacency.arranged_empty.get?_addPairs, namesUnder_callPairs,
    ← Adjacency.firstSeen_eq, Adjacency.firstSeen]
  exact portions _ []

theorem arranged_analyze (noise : NoiseWords) :
    (source.analyze language noise).graph.adjacency.Arranged := by
  rw [analyze_graph]
  exact Adjacency.arranged_empty.addPairs _

theorem containsEdge_analyze_iff (noise : NoiseWords) (key callee : String) :
    (source.analyze language noise).graph.containsEdge key callee = true ↔
      ∃ node, source.Declares language key node ∧ source.Calls language noise node callee := by
  rw [CallGraph.containsEdge, List.contains_iff_mem, callees?_analyze, List.mem_eraseDups,
    List.mem_flatMap]
  simp only [mem_declarers_iff, mem_namesCalled_iff]

/-- The call graph of a file is exactly the relation that its tree declares. An edge stands for a call
in the body of a function that declares the caller; no entry is empty or lists a name twice, and its
names come in the order in which they are first called, function by function. -/
theorem analyze_declared (source : Source) (language : Language) (noise : NoiseWords) :
    let graph := (source.analyze language noise).graph
    (∀ key callee, graph.containsEdge key callee = true ↔
      ∃ node, source.Declares language key node ∧ source.Calls language noise node callee) ∧
    (∀ key callee, (key, callee) ∈ graph.edges ↔ graph.containsEdge key callee = true) ∧
    ∀ key callees, (key, callees) ∈ graph.toList → callees ≠ [] ∧ callees.Nodup ∧
      callees = ((source.declarers language key).flatMap
        (source.namesCalled language noise)).eraseDups := by
  intro graph
  have arranged : graph.adjacency.Arranged := source.arranged_analyze language noise
  refine ⟨source.containsEdge_analyze_iff language noise, fun key callee => ?_,
    fun key callees listed => ?_⟩
  · rw [CallGraph.containsEdge, List.contains_iff_mem]
    exact arranged.mem_pairs_iff key callee
  · have found : graph.adjacency.get? key = some callees := (arranged.mem_toList_iff key callees).mp listed
    obtain ⟨-, filled, distinct, -⟩ := arranged.filled_of_get? found
    refine ⟨filled, distinct, ?_⟩
    have under := source.callees?_analyze language noise key
    rw [CallGraph.callees?, found] at under
    exact under

end Source

end SourceAtlas
