import SourceAtlas.Proofs.Definitions
import SourceAtlas.Proofs.Extraction
/-!
The order in which the definitions of a file are listed. They are looked up class by class and then sorted by
their lines. So definitions that start on different lines are listed in document order, and of those that start
on one line, some are swapped.
-/

namespace SourceAtlas

namespace SyntaxTree

/-- The bytes of the nodes nest: what hangs below a node lies in it, and what hangs there further down lies
behind what hangs there further up. -/
structure Nests (tree : SyntaxTree) : Prop where
  ordered (node : tree.Node) : (tree.row node).start ≤ (tree.row node).stop
  inside (child above : tree.Node) (hangs : tree.parent? child = some above) :
    (tree.row above).start ≤ (tree.row child).start ∧ (tree.row child).stop ≤ (tree.row above).stop
  apart (left right above : tree.Node) (hangs : tree.parent? left = some above)
    (alsoHangs : tree.parent? right = some above) (before : left < right) :
    (tree.row left).stop ≤ (tree.row right).start

variable {tree : SyntaxTree}

theorem Nests.within (nests : tree.Nests) {node above : tree.Node} (higher : above ∈ tree.ancestors node) :
    (tree.row above).start ≤ (tree.row node).start ∧ (tree.row node).stop ≤ (tree.row above).stop := by
  fun_induction tree.ancestors node with
  | case1 node top => cases higher
  | case2 node parent hangs ih =>
      obtain ⟨start, stop⟩ := nests.inside node parent hangs
      rcases List.mem_cons.mp higher with rfl | upper
      · exact ⟨start, stop⟩
      · exact ⟨Nat.le_trans (ih upper).1 start, Nat.le_trans stop (ih upper).2⟩

theorem exists_child_of_above {node above : tree.Node} (higher : above ∈ tree.ancestors node) :
    ∃ child, tree.parent? child = some above ∧ (node = child ∨ child ∈ tree.ancestors node) := by
  cases reaches_of_mem higher with
  | here => exact absurd (lt_of_mem_ancestors higher) (Nat.lt_irrefl _)
  | down allowed hangs further => exact ⟨_, hangs, further.eq_or_mem⟩

/-- A node lies behind what stands before it and not above it. -/
theorem Nests.behind (nests : tree.Nests) {first second : tree.Node} (before : first < second)
    (beside : first ∉ tree.ancestors second) : (tree.row first).stop ≤ (tree.row second).start := by
  fun_induction tree.ancestors second with
  | case1 second top =>
      have inner : second.val ≠ 0 := by
        rw [Fin.lt_def] at before
        omega
      obtain ⟨above, hangs, -⟩ := exists_parent inner
      rw [top] at hangs
      cases hangs
  | case2 second parent hangs ih =>
      obtain ⟨other, outside⟩ := not_or.mp (fun above => beside (List.mem_cons.mpr above))
      have start := (nests.inside second parent hangs).1
      rcases Nat.lt_trichotomy first.val parent.val with less | same | greater
      · exact Nat.le_trans (ih less outside) start
      · exact absurd (Fin.ext same) other
      · -- both hang below the parent, the first maybe deeper
        have below : parent ∈ tree.ancestors first :=
          mem_ancestors_between (mem_ancestors_iff.mpr ⟨parent, hangs, Or.inl rfl⟩) greater before
        obtain ⟨child, alsoHangs, leads⟩ := exists_child_of_above below
        rcases leads with rfl | upper
        · exact nests.apart first second parent alsoHangs hangs before
        · exact Nat.le_trans (nests.within upper).2 (nests.apart child second parent alsoHangs hangs
            (Nat.lt_trans (lt_of_mem_ancestors upper) before))

theorem Nests.start_le (nests : tree.Nests) {first second : tree.Node} (before : first < second) :
    (tree.row first).start ≤ (tree.row second).start := by
  by_cases higher : first ∈ tree.ancestors second
  · exact (nests.within higher).1
  · exact Nat.le_trans (nests.ordered first) (nests.behind before higher)

end SyntaxTree

namespace Source

variable (source : Source) (language : Language)

def firstLine (node : source.tree.Node) : Nat := source.lineAt (source.tree.row node).start

def lastLine (node : source.tree.Node) : Nat := source.lineAt (source.tree.row node).stop

/-- Why `second`, which comes after `first` in the file, is listed before it. It is inside `first`, starts on
the same line and ends on an earlier one; or both stand on one line and `second` is looked up earlier, because
it is a function outside every class, or a method of a class around the one that `first` is found at. -/
inductive Swapped (first second : source.tree.Node) : Prop
  | inside (above : first ∈ source.tree.ancestors second)
      (together : source.firstLine first = source.firstLine second)
      (earlier : source.lastLine second < source.lastLine first) : Swapped first second
  | function {owner : source.tree.Node} (oneLine : source.firstLine first = source.lastLine second)
      (atClass : source.home? language first = some owner) (free : source.home? language second = none) :
      Swapped first second
  | method {inner outer : source.tree.Node} (oneLine : source.firstLine first = source.lastLine second)
      (atInner : source.home? language first = some inner)
      (atOuter : source.home? language second = some outer)
      (around : outer ∈ source.tree.ancestors inner) : Swapped first second

/-- By first line, then by last line, then as they are looked up. -/
def ListedBefore (first second : source.tree.Node) : Prop :=
  source.firstLine first < source.firstLine second ∨
    source.firstLine first = source.firstLine second ∧
      (source.lastLine first < source.lastLine second ∨
        source.lastLine first = source.lastLine second ∧ source.LookedUpBefore language first second)

theorem not_lookedUpBefore_of_before {first second : source.tree.Node}
    (before : source.LookedUpBefore language first second) : ¬ source.LookedUpBefore language second first := by
  intro after
  unfold LookedUpBefore at before after
  cases home : source.home? language first with
  | none =>
      cases other : source.home? language second with
      | none =>
          simp only [home, other, Option.not_lt_none, true_and, false_or] at before after
          exact Nat.lt_asymm before after
      | some owner => simp [home, other] at after
  | some owner =>
      cases other : source.home? language second with
      | none => simp [home, other] at before
      | some outer =>
          simp only [home, other, Option.some_lt_some, Option.some_inj] at before after
          rcases before with less | ⟨same, less⟩
          · rcases after with more | ⟨same, -⟩
            · exact Nat.lt_asymm less more
            · exact absurd (same ▸ less) (Nat.lt_irrefl _)
          · rcases after with more | ⟨-, more⟩
            · exact absurd (same ▸ more) (Nat.lt_irrefl _)
            · exact Nat.lt_asymm less more

theorem not_listedBefore_of_before {first second : source.tree.Node}
    (before : source.ListedBefore language first second) : ¬ source.ListedBefore language second first := by
  rintro (more | ⟨again, more | ⟨alike, alsoFound⟩⟩)
  · rcases before with less | ⟨same, -⟩ <;> omega
  · rcases before with less | ⟨-, less | ⟨same, -⟩⟩ <;> omega
  · rcases before with less | ⟨-, less | ⟨-, found⟩⟩
    · omega
    · omega
    · exact source.not_lookedUpBefore_of_before language found alsoFound

def linesBefore (first second : Definition source) : Bool :=
  startsBefore (source.entityOf first.name first.kind first.node)
    (source.entityOf second.name second.kind second.node)

theorem linesBefore_iff (first second : Definition source) : source.linesBefore first second = true ↔
    source.firstLine first.node < source.firstLine second.node ∨
      source.firstLine first.node = source.firstLine second.node ∧
        source.lastLine first.node ≤ source.lastLine second.node := by
  rw [linesBefore, startsBefore, Bool.or_eq_true, Bool.and_eq_true, decide_eq_true_eq, decide_eq_true_eq,
    beq_iff_eq]
  rfl

/-- Definitions are listed by their lines, and those that cover the same lines as they are looked up. -/
def listing : List (Definition source) := (source.definitions language).mergeSort source.linesBefore

theorem entities_eq (noise : NoiseWords) : (source.analyze language noise).entities =
    (source.listing language).map fun definition =>
      source.entityOf definition.name definition.kind definition.node :=
  (List.map_mergeSort (r := source.linesBefore) (s := startsBefore) fun _ _ _ _ => rfl).symm

theorem listing_ordered :
    ((source.listing language).map Definition.node).Pairwise (source.ListedBefore language) := by
  have transitive : ∀ first second third, source.linesBefore first second = true →
      source.linesBefore second third = true → source.linesBefore first third = true := by
    intro first second third
    simp only [linesBefore_iff]
    omega
  have total : ∀ first second, (source.linesBefore first second || source.linesBefore second first) = true := by
    intro first second
    simp only [Bool.or_eq_true, linesBefore_iff]
    omega
  have sorted := Table.mergeSort_stable transitive total
    (List.pairwise_map.mp (source.definitions_ordered language))
  refine List.pairwise_map.mpr (sorted.imp ?_)
  rintro first second ⟨before, tied⟩
  rw [linesBefore_iff] at before tied
  rcases before with less | ⟨same, upTo⟩
  · exact Or.inl less
  · refine Or.inr ⟨same, (Nat.lt_or_eq_of_le upTo).imp_right fun alike => ⟨alike, ?_⟩⟩
    exact tied (Or.inr ⟨same.symm, Nat.le_of_eq alike.symm⟩)

theorem mem_listing (definition : Definition source) :
    definition ∈ source.listing language ↔ definition ∈ source.definitions language :=
  List.mem_mergeSort

section Order

variable {source} {language} (nests : source.tree.Nests) {first second : source.tree.Node}
  (before : first < second)

include nests in
theorem firstLine_le_lastLine (node : source.tree.Node) : source.firstLine node ≤ source.lastLine node :=
  source.lineAt_mono (nests.ordered node)

include nests before in
theorem firstLine_le : source.firstLine first ≤ source.firstLine second :=
  source.lineAt_mono (nests.start_le before)

include nests before in
theorem listedBefore_of_swapped (swapped : source.Swapped language first second) :
    source.ListedBefore language second first := by
  have starts := firstLine_le nests before
  have ends := firstLine_le_lastLine nests first
  have alsoEnds := firstLine_le_lastLine nests second
  have oneLine : source.firstLine first = source.lastLine second →
      source.LookedUpBefore language second first → source.ListedBefore language second first := by
    intro same found
    rcases Nat.lt_or_eq_of_le ends with less | alike
    · exact Or.inr ⟨by omega, Or.inl (by omega)⟩
    · exact Or.inr ⟨by omega, Or.inr ⟨by omega, found⟩⟩
  cases swapped with
  | inside above together earlier => exact Or.inr ⟨together.symm, Or.inl earlier⟩
  | function same atClass free =>
      apply oneLine same
      left
      rw [atClass, free]
      trivial
  | method same atInner atOuter around =>
      apply oneLine same
      left
      rw [atInner, atOuter]
      exact SyntaxTree.lt_of_mem_ancestors around

/-- A home is a class: the node itself, or the closest function or class around it. -/
theorem of_home? {node owner : source.tree.Node} (home : source.home? language node = some owner) :
    source.IsClass language owner ∧ (owner = node ∨ source.enclosing? language node = some owner) := by
  unfold home? at home
  split at home
  · next isClass =>
      cases home
      exact ⟨isClass, Or.inl rfl⟩
  · obtain ⟨owned, isClass⟩ := Option.filter_eq_some_iff.mp home
    exact ⟨of_decide_eq_true isClass, Or.inr owned⟩

theorem eq_or_mem_of_home? {node owner : source.tree.Node} (home : source.home? language node = some owner) :
    owner = node ∨ owner ∈ source.tree.ancestors node :=
  (of_home? home).2.imp_right List.mem_of_find?_eq_some

theorem not_isClass_of_home? {node above : source.tree.Node} {entity : Entity}
    (documents : source.Documents language node entity) (homeless : source.home? language node = none)
    (higher : above ∈ source.tree.ancestors node) : ¬ source.IsClass language above := by
  cases documents with
  | type isClass named => simp [home?, isClass] at homeless
  | function free => exact free.2.1 above higher
  | method belongs =>
      rw [source.home?_of_isMethod language belongs] at homeless
      cases homeless

include before in
/-- What stands behind a definition is looked up behind it, unless it is a function outside every class, or a
method of a class around the home of the definition. What stands below the definition is neither. -/
theorem lookedUpBefore_of {entity : Entity} (documents : source.Documents language second entity)
    (outside : ∀ owner, source.home? language first = some owner → source.home? language second = none →
      first ∈ source.tree.ancestors second)
    (deeper : ∀ inner outer, source.home? language first = some inner →
      source.home? language second = some outer → outer ∈ source.tree.ancestors inner →
      first ∈ source.tree.ancestors second) :
    source.LookedUpBefore language first second := by
  cases atFirst : source.home? language first with
  | none =>
      cases atSecond : source.home? language second with
      | none => exact Or.inr ⟨atFirst.trans atSecond.symm, before⟩
      | some outer =>
          left
          rw [atFirst, atSecond]
          trivial
  | some inner =>
      have above : first ∈ source.tree.ancestors second → inner ∈ source.tree.ancestors second := by
        intro higher
        rcases eq_or_mem_of_home? atFirst with rfl | upper
        · exact higher
        · exact SyntaxTree.mem_ancestors_trans upper higher
      have upTo : inner ≤ first := by
        rcases eq_or_mem_of_home? atFirst with rfl | upper
        · exact Nat.le_refl _
        · exact Nat.le_of_lt (SyntaxTree.lt_of_mem_ancestors upper)
      cases atSecond : source.home? language second with
      | none =>
          exact absurd (of_home? atFirst).1
            (not_isClass_of_home? documents atSecond (above (outside inner atFirst atSecond)))
      | some outer =>
          rcases Nat.lt_trichotomy inner.val outer.val with less | same | greater
          · left
            rw [atFirst, atSecond]
            exact less
          · exact Or.inr ⟨by rw [atFirst, atSecond, Fin.ext same], before⟩
          · -- the home of the second is around that of the first, and not the closest class around the second
            have behind : inner < second := Nat.lt_of_le_of_lt upTo before
            obtain ⟨isClass, rfl | owned⟩ := of_home? atSecond
            · exact absurd greater (Nat.lt_asymm behind)
            · have around : outer ∈ source.tree.ancestors inner :=
                SyntaxTree.mem_ancestors_between (List.mem_of_find?_eq_some owned) greater behind
              have higher := above (deeper inner outer atFirst atSecond around)
              rcases SyntaxTree.eq_or_mem_of_nearest owned higher (by simp [(of_home? atFirst).1]) with
                rfl | upper
              · exact absurd greater (Nat.lt_irrefl _)
              · exact absurd greater (Nat.lt_asymm (SyntaxTree.lt_of_mem_ancestors upper))

include nests before in
/-- What is not swapped is listed as it stands. -/
theorem listedBefore_of_not_swapped {entity : Entity} (documents : source.Documents language second entity)
    (kept : ¬ source.Swapped language first second) : source.ListedBefore language first second := by
  have ends := firstLine_le_lastLine nests first
  rcases Nat.lt_or_eq_of_le (firstLine_le nests before) with less | together
  · exact Or.inl less
  refine Or.inr ⟨together, ?_⟩
  by_cases higher : first ∈ source.tree.ancestors second
  · have upTo : source.lastLine second ≤ source.lastLine first := source.lineAt_mono (nests.within higher).2
    rcases Nat.lt_or_eq_of_le upTo with earlier | alike
    · exact absurd (.inside higher together earlier) kept
    · exact Or.inr ⟨alike.symm, lookedUpBefore_of before documents (fun _ _ _ => higher)
        fun _ _ _ _ _ => higher⟩
  · have behind : source.lastLine first ≤ source.firstLine second :=
      source.lineAt_mono (nests.behind before higher)
    have alsoEnds := firstLine_le_lastLine nests second
    by_cases oneLine : source.firstLine first = source.lastLine second
    · refine Or.inr ⟨by omega, lookedUpBefore_of before documents ?_ ?_⟩
      · exact fun owner atClass free => absurd (.function oneLine atClass free) kept
      · exact fun inner outer atInner atOuter around => absurd (.method oneLine atInner atOuter around) kept
    · exact Or.inl (by omega)

include nests before in
/-- Definitions that start on different lines are never swapped. -/
theorem Swapped.together (swapped : source.Swapped language first second) :
    source.firstLine first = source.firstLine second := by
  have starts := firstLine_le nests before
  have ends := firstLine_le_lastLine nests second
  cases swapped with
  | inside above together earlier => exact together
  | function oneLine atClass free => omega
  | method oneLine atInner atOuter around => omega

end Order

theorem mem_map_listing_iff (node : source.tree.Node) :
    node ∈ (source.listing language).map Definition.node ↔ ∃ entity, source.Documents language node entity := by
  simp [documents_iff, mem_listing]

/-- Of two listed definitions the one that stands before the other is listed before it, unless they are
swapped. -/
theorem listing_spec (nests : source.tree.Nests) :
    ((source.listing language).map Definition.node).Pairwise fun first second =>
      first < second ∧ ¬ source.Swapped language first second ∨
        second < first ∧ source.Swapped language second first := by
  rw [List.pairwise_map]
  refine (List.pairwise_map.mp (source.listing_ordered language)).imp_of_mem ?_
  intro first second inFirst inSecond listed
  have once := source.not_listedBefore_of_before language listed
  rcases Nat.lt_trichotomy first.node.val second.node.val with before | same | after
  · exact Or.inl ⟨before, fun swapped => once (listedBefore_of_swapped nests before swapped)⟩
  · rw [Fin.ext same] at listed once
    exact absurd listed once
  · right
    refine ⟨after, Classical.byContradiction fun kept => once ?_⟩
    obtain ⟨entity, documents⟩ := (source.mem_map_listing_iff language _).mp (List.mem_map_of_mem inFirst)
    exact listedBefore_of_not_swapped nests after documents kept

/-- The entities of a file are what its nodes document, each once. In the list, a definition stands before
another one that comes later in the file, unless the two are swapped; so the list follows the nodes in document
order just when no two definitions of the file are swapped. -/
theorem analyze_orders (source : Source) (language : Language) (noise : NoiseWords)
    (nests : source.tree.Nests) :
    ∃ listed : List (source.tree.Node × Entity),
      (source.analyze language noise).entities = listed.map Prod.snd ∧
      (∀ node entity, (node, entity) ∈ listed ↔ source.Documents language node entity) ∧
      (listed.map Prod.fst).Pairwise (fun first second =>
        first < second ∧ ¬ source.Swapped language first second ∨
          second < first ∧ source.Swapped language second first) ∧
      ((listed.map Prod.fst).Pairwise (· < ·) ↔
        ∀ first second entity other, source.Documents language first entity →
          source.Documents language second other → first < second →
            ¬ source.Swapped language first second) := by
  have spec := source.listing_spec language nests
  refine ⟨(source.listing language).map fun definition =>
    (definition.node, source.entityOf definition.name definition.kind definition.node), ?_, ?_, ?_, ?_⟩
  · rw [entities_eq, List.map_map]
    rfl
  · intro node entity
    simp [documents_iff, mem_listing]
  · rw [List.map_map]
    exact spec
  · rw [List.map_map]
    refine (Table.pairwise_lt_iff spec).trans ?_
    constructor
    · intro apart first second entity other documents alsoDocuments
      exact apart first ((source.mem_map_listing_iff language first).mpr ⟨entity, documents⟩)
        second ((source.mem_map_listing_iff language second).mpr ⟨other, alsoDocuments⟩)
    · intro apart first inFirst second inSecond
      obtain ⟨entity, documents⟩ := (source.mem_map_listing_iff language first).mp inFirst
      obtain ⟨other, alsoDocuments⟩ := (source.mem_map_listing_iff language second).mp inSecond
      exact apart first second entity other documents alsoDocuments

def classBeforeFunction : SyntaxTree where
  rows := #[⟨none, "program", none, 0, 34⟩, ⟨some 0, "class_declaration", none, 0, 18⟩,
    ⟨some 1, "class", none, 0, 5⟩, ⟨some 1, "identifier", some "name", 6, 7⟩,
    ⟨some 1, "class_body", some "body", 8, 18⟩, ⟨some 4, "\x7b", none, 8, 9⟩,
    ⟨some 4, "method_definition", none, 10, 16⟩, ⟨some 6, "property_identifier", some "name", 10, 11⟩,
    ⟨some 6, "formal_parameters", none, 11, 13⟩, ⟨some 8, "(", none, 11, 12⟩, ⟨some 8, ")", none, 12, 13⟩,
    ⟨some 6, "statement_block", some "body", 14, 16⟩, ⟨some 11, "\x7b", none, 14, 15⟩,
    ⟨some 11, "\x7d", none, 15, 16⟩, ⟨some 4, "\x7d", none, 17, 18⟩,
    ⟨some 0, "function_declaration", none, 19, 34⟩, ⟨some 15, "function", none, 19, 27⟩,
    ⟨some 15, "identifier", some "name", 28, 29⟩, ⟨some 15, "formal_parameters", none, 29, 31⟩,
    ⟨some 18, "(", none, 29, 30⟩, ⟨some 18, ")", none, 30, 31⟩,
    ⟨some 15, "statement_block", some "body", 32, 34⟩, ⟨some 21, "\x7b", none, 32, 33⟩,
    ⟨some 21, "\x7d", none, 33, 34⟩]
  nonempty := by decide
  preorder := by decide +kernel

theorem nests_classBeforeFunction : classBeforeFunction.Nests where
  ordered := by decide +kernel
  inside := by decide +kernel
  apart := by
    have beside : ∀ left right : classBeforeFunction.Node, left < right →
        classBeforeFunction.parent? left = classBeforeFunction.parent? right →
        (classBeforeFunction.row left).stop ≤ (classBeforeFunction.row right).start := by decide +kernel
    exact fun left right above hangs alsoHangs before => beside left right before (hangs.trans alsoHangs.symm)

def spread : Source := ⟨"class A \x7b\nm() \x7b\x7d \x7d\nfunction g() \x7b\x7d".toUTF8, classBeforeFunction⟩

def crowded : Source := ⟨"class A \x7b m() \x7b\x7d \x7d function g() \x7b\x7d".toUTF8, classBeforeFunction⟩

theorem analyze_orders_spread : ∃ listed : List (spread.tree.Node × Entity),
    (spread.analyze .javascript {}).entities = listed.map Prod.snd ∧
    (∀ node entity, (node, entity) ∈ listed ↔ spread.Documents .javascript node entity) ∧
    (listed.map Prod.fst).Pairwise (· < ·) := by
  obtain ⟨listed, same, documented, -, ordered⟩ :=
    analyze_orders spread .javascript {} nests_classBeforeFunction
  refine ⟨listed, same, documented, ordered.mpr ?_⟩
  intro first second entity other documents alsoDocuments before swapped
  have apart : ∀ left ∈ (spread.definitions .javascript).map Definition.node,
      ∀ right ∈ (spread.definitions .javascript).map Definition.node, left < right →
        spread.firstLine left ≠ spread.firstLine right := by decide +kernel
  obtain ⟨definition, member, here, -⟩ := (documents_iff ..).mp documents
  obtain ⟨another, alsoMember, there, -⟩ := (documents_iff ..).mp alsoDocuments
  exact apart first (List.mem_map.mpr ⟨definition, member, here⟩)
    second (List.mem_map.mpr ⟨another, alsoMember, there⟩) before
    (swapped.together nests_classBeforeFunction before)

/-- On one line, a function outside every class is listed before the class that it follows. -/
theorem crowded_out_of_order : crowded.tree.Nests ∧
    ¬ ∃ listed : List (crowded.tree.Node × Entity),
      (crowded.analyze .javascript {}).entities = listed.map Prod.snd ∧
      (∀ node entity, (node, entity) ∈ listed ↔ crowded.Documents .javascript node entity) ∧
      (listed.map Prod.fst).Pairwise (· < ·) := by
  refine ⟨nests_classBeforeFunction, ?_⟩
  rintro ⟨listed, same, documented, ordered⟩
  have found : (crowded.definitions .javascript).map (fun definition =>
      crowded.entityOf definition.name definition.kind definition.node) =
        [⟨"g", .function, 1, 1⟩, ⟨"A", .type, 1, 1⟩, ⟨"A.m", .method, 1, 1⟩] := by decide +kernel
  have entities : listed.map Prod.snd =
      [⟨"g", .function, 1, 1⟩, ⟨"A", .type, 1, 1⟩, ⟨"A.m", .method, 1, 1⟩] := by
    rw [← same, analyze, found]
    exact List.mergeSort_of_pairwise (by decide)
  have places : ∀ definition ∈ crowded.definitions .javascript,
      (crowded.entityOf definition.name definition.kind definition.node = ⟨"g", .function, 1, 1⟩ →
        definition.node.val = 15) ∧
      (crowded.entityOf definition.name definition.kind definition.node = ⟨"A", .type, 1, 1⟩ →
        definition.node.val = 1) := by decide +kernel
  obtain ⟨⟨function, _⟩, classes, rfl, rfl, behind⟩ := List.map_eq_cons_iff.mp entities
  obtain ⟨⟨type, _⟩, methods, rfl, rfl, -⟩ := List.map_eq_cons_iff.mp behind
  have atFunction := (documented function _).mp (List.mem_cons_self ..)
  have atType := (documented type _).mp (List.mem_cons_of_mem _ (List.mem_cons_self ..))
  obtain ⟨definition, member, rfl, entity⟩ := (documents_iff ..).mp atFunction
  obtain ⟨other, alsoMember, rfl, alsoEntity⟩ := (documents_iff ..).mp atType
  have before := (List.pairwise_cons.mp ordered).1 other.node (List.mem_cons_self ..)
  rw [Fin.lt_def, (places definition member).1 entity, (places other alsoMember).2 alsoEntity] at before
  exact absurd before (by decide)

end Source

end SourceAtlas
