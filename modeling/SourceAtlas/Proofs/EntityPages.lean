import SourceAtlas.Proofs.CrossReferences
import SourceAtlas.Proofs.Manifest
import SourceAtlas.Proofs.Overview
import SourceAtlas.Proofs.OwnFiles
/-!
The pages of an entity. Every task registers its page before anything else, so the cross-references that
a run writes tell which planned pages list an entity, whether they were kept, made or failed.
-/

namespace SourceAtlas

namespace CrossReferences

variable {references : CrossReferences}

theorem mem_insertPage {page each : String} {pages : List String} :
    each ∈ insertPage page pages ↔ each = page ∨ each ∈ pages := by
  induction pages with
  | nil => simp [insertPage]
  | cons first rest ih =>
      rw [insertPage]
      split
      · exact List.mem_cons
      · split
        · next same => simp [same]
        · simp only [List.mem_cons, ih, or_left_comm]

theorem insertPage_pairwise {pages : List String} (ordered : pages.Pairwise (· < ·)) (page : String) :
    (insertPage page pages).Pairwise (· < ·) := by
  induction pages with
  | nil => exact List.pairwise_singleton _ _
  | cons first rest ih =>
      obtain ⟨least, later⟩ := List.pairwise_cons.mp ordered
      rw [insertPage]
      split
      · next before =>
          refine List.pairwise_cons.mpr ⟨fun other member => ?_, ordered⟩
          rcases List.mem_cons.mp member with rfl | inRest
          · exact before
          · exact String.lt_trans before (least other inRest)
      · next notBefore =>
          split
          · exact ordered
          · next apart =>
              refine List.pairwise_cons.mpr ⟨fun other member => ?_, ih later⟩
              rcases mem_insertPage.mp member with rfl | inRest
              · exact Std.lt_of_le_of_ne (String.not_lt.mp notBefore) (Ne.symm apart)
              · exact least other inRest

theorem getElem?_addPage (references : CrossReferences) (entity page name : String) :
    (addPage references (entity, page))[name]? =
      if entity = name then some (insertPage page (references.pagesFor name))
      else references[name]? := by
  rw [addPage, Std.ExtTreeMap.getElem?_insert]
  by_cases same : entity = name
  · simp [same, pagesFor]
  · simp [same]

theorem mem_pagesFor_addPage (references : CrossReferences) (entry : String × String)
    (entity page : String) : page ∈ (addPage references entry).pagesFor entity ↔
      entry = (entity, page) ∨ page ∈ references.pagesFor entity := by
  obtain ⟨name, added⟩ := entry
  rw [pagesFor, Std.ExtTreeMap.getD_eq_getD_getElem?, getElem?_addPage]
  by_cases same : name = entity
  · subst same
    simp [mem_insertPage, eq_comm]
  · simp [same, pagesFor, Std.ExtTreeMap.getD_eq_getD_getElem?]

/-- Every entity that is there has pages, in order and each once. -/
def Ordered (references : CrossReferences) : Prop :=
  ∀ (entity : String) (pages : List String), references[entity]? = some pages →
    pages ≠ [] ∧ pages.Pairwise (· < ·)

theorem Ordered.addPage (ordered : references.Ordered) (entry : String × String) :
    Ordered (addPage references entry) := by
  obtain ⟨name, added⟩ := entry
  intro entity pages found
  rw [getElem?_addPage] at found
  split at found
  · cases found
    refine ⟨List.ne_nil_of_mem (mem_insertPage.mpr (Or.inl rfl)), insertPage_pairwise ?_ added⟩
    rw [pagesFor, Std.ExtTreeMap.getD_eq_getD_getElem?]
    cases known : references[entity]? with
    | none => exact .nil
    | some pages => exact (ordered entity pages known).2
  · exact ordered entity pages found

theorem Ordered.addPages (ordered : references.Ordered) (entries : List (String × String)) :
    Ordered (entries.foldl CrossReferences.addPage references) := by
  induction entries generalizing references with
  | nil => exact ordered
  | cons entry rest ih => exact ih (ordered.addPage entry)

theorem mem_pagesFor_addPages (references : CrossReferences) (entries : List (String × String))
    (entity page : String) : page ∈ (entries.foldl addPage references).pagesFor entity ↔
      (entity, page) ∈ entries ∨ page ∈ references.pagesFor entity := by
  induction entries generalizing references with
  | nil => simp
  | cons entry rest ih =>
      rw [List.foldl_cons, ih, mem_pagesFor_addPage, List.mem_cons, or_left_comm, or_assoc,
        eq_comm (a := entry)]

/-- What is left when pages have been registered with their entities, call by call. -/
def registered (calls : List (String × List String)) : CrossReferences :=
  calls.foldl (fun references call => references.register call.1 call.2) ∅

/-- The pages that calls registered for an entity: in order, each once, and at least one. -/
structure Lists (calls : List (String × List String)) (entity : String) (pages : List String) :
    Prop where
  filled : pages ≠ []
  ordered : pages.Pairwise (· < ·)
  exact : ∀ page, page ∈ pages ↔ ∃ call ∈ calls, call.1 = page ∧ entity ∈ call.2

theorem registered_eq_foldl (calls : List (String × List String)) :
    registered calls =
      (calls.flatMap fun call => call.2.map fun entity => (entity, call.1)).foldl addPage ∅ := by
  simp only [registered, register_eq_foldl, List.foldl_flatMap]

theorem mem_pagesFor_registered (calls : List (String × List String)) (entity page : String) :
    page ∈ (registered calls).pagesFor entity ↔ ∃ call ∈ calls, call.1 = page ∧ entity ∈ call.2 := by
  have none : page ∉ pagesFor ∅ entity := by simp [pagesFor]
  rw [registered_eq_foldl, mem_pagesFor_addPages, or_iff_left none]
  simp only [List.mem_flatMap, List.mem_map, Prod.mk.injEq]
  constructor
  · rintro ⟨call, member, name, listed, rfl, rfl⟩
    exact ⟨call, member, rfl, listed⟩
  · rintro ⟨call, member, rfl, listed⟩
    exact ⟨call, member, entity, listed, rfl, rfl⟩

theorem mem_registered_iff (calls : List (String × List String)) (entity : String)
    (pages : List String) :
    (entity, pages) ∈ (registered calls).toList ↔ Lists calls entity pages := by
  have ordered : (registered calls).Ordered := by
    rw [registered_eq_foldl]
    exact Ordered.addPages (fun entity pages found => by simp at found) _
  have known : ∀ page, page ∈ ((registered calls)[entity]?).getD [] ↔
      ∃ call ∈ calls, call.1 = page ∧ entity ∈ call.2 := by
    intro page
    rw [← Std.ExtTreeMap.getD_eq_getD_getElem?]
    exact mem_pagesFor_registered calls entity page
  rw [Std.ExtTreeMap.mem_toList_iff_getElem?_eq_some]
  constructor
  · intro found
    obtain ⟨filled, sorted⟩ := ordered entity pages found
    rw [found] at known
    exact ⟨filled, sorted, known⟩
  · intro lists
    obtain ⟨page, member⟩ := List.exists_mem_of_ne_nil _ lists.filled
    cases found : (registered calls)[entity]? with
    | none =>
        rw [found] at known
        exact absurd ((known page).mpr ((lists.exact page).mp member)) (by simp)
    | some others =>
        rw [found] at known
        rw [Option.some_inj]
        refine Table.eq_of_same_members ?_ (ordered entity others found).2 lists.ordered fun other => ?_
        · exact fun first second less => String.lt_asymm less
        · exact (known other).trans (lists.exact other).symm

def ofText? (text : String) : Option CrossReferences := do
  let json ← Json.parse? text
  let pages ← json.field? "cross_references"
  pages.map? Json.texts?

end CrossReferences

theorem CallGraph.isData_toJson (graph : CallGraph) : Json.IsData graph.toJson := by
  refine .obj fun field member => ?_
  obtain ⟨entry, -, rfl⟩ := List.mem_map.mp member
  exact Json.isData_texts entry.2

theorem Projection.isData_toJson (projection : Projection) : Json.IsData projection.toJson := by
  cases projection with
  | noGraph =>
      refine .obj fun field member => ?_
      rw [List.mem_singleton.mp member]
      exact .str _
  | graph diagram =>
      refine .obj fun field member => ?_
      simp only [List.mem_cons, List.not_mem_nil, or_false] at member
      rcases member with rfl | rfl | rfl | rfl
      · exact .str _
      · refine .arr fun item member => ?_
        obtain ⟨node, -, rfl⟩ := List.mem_map.mp member
        refine .obj fun field member => ?_
        simp only [List.mem_cons, List.not_mem_nil, or_false] at member
        rcases member with rfl | rfl | rfl | rfl <;> exact .str _
      · refine .arr fun item member => ?_
        obtain ⟨edge, -, rfl⟩ := List.mem_map.mp member
        refine .obj fun field member => ?_
        simp only [List.mem_cons, List.not_mem_nil, or_false] at member
        rcases member with rfl | rfl <;> exact .str _
      · exact .natural _

namespace Project

variable {project : Project}

/-- The cross-references of a call graph document are read back as they were written. -/
theorem ofText?_graphText (analysis : Analysis) (references : CrossReferences) :
    CrossReferences.ofText? (graphText analysis references) = some references := by
  have data : Json.IsData (.obj [("graph", analysis.graph.toJson),
      ("projection", analysis.projection.toJson), ("cross_references", references.toJson)]) := by
    refine .obj fun field member => ?_
    simp only [List.mem_cons, List.not_mem_nil, or_false] at member
    rcases member with rfl | rfl | rfl
    · exact analysis.graph.isData_toJson
    · exact analysis.projection.isData_toJson
    · exact Json.isData_ofMap references fun _ pages _ => Json.isData_texts pages
  have pages : (Json.ofMap Json.texts references).map? Json.texts? = some references :=
    Json.map?_ofMap _ fun _ pages _ => Json.texts?_texts pages
  unfold CrossReferences.ofText? graphText
  rw [Json.parse?_toPretty data]
  exact pages

def listings (analysis : Analysis) : List (String × List String) :=
  analysis.pages.map fun request => (request.path, request.entities)

/-- A pass registers all planned pages, whatever it goes by. -/
theorem passed_references (previous : Option Manifest) (schedule : Schedule) (tree : FileTree)
    (analysis : Analysis) : (project.passed previous false schedule tree analysis).2.references =
      CrossReferences.registered (listings analysis) := by
  have ran := (project.pass schedule).runTasks_references (tasks previous analysis) (start tree analysis)
  have state : (project.passed previous false schedule tree analysis).2 =
      ((project.pass schedule).runTasks (tasks previous analysis) (start tree analysis)).2 := rfl
  rw [state, ran, tasks, Pass.registerAll_taskFor, CrossReferences.registered, listings, List.foldl_map]
  rfl

theorem graph_after {previous : Option Manifest} {schedule : Schedule} {tree after : FileTree}
    {report : RunReport} (ran : (project.run previous false schedule).run.run tree = (.ok report, after)) :
    ∃ analysis, project.analyze tree = .ok analysis ∧ after.readText project.graphPath =
      .ok (graphText analysis (CrossReferences.registered (listings analysis))) := by
  obtain ⟨completed⟩ := project.completed_of_run ran
  have references : (project.passed previous false schedule tree completed.analysis).2.references =
      CrossReferences.registered (listings completed.analysis) := passed_references ..
  rw [passed, project.run_pass completed.ran] at references
  obtain ⟨-, reached, -, held⟩ := Disk.changes_of_writeAtomic completed.graphSaved
  rw [references] at held
  exact ⟨completed.analysis, completed.analyzed, (FileTree.readText_eq_ok_iff ..).mpr ⟨reached, held⟩⟩

/-- Cross-references are complete whatever a run kept. After every run that ends well the call graph
document holds, under each entity that a planned page lists and under no other name, the planned pages
that list it, in order and each once; a run that goes by no manifest hands over the same and writes the
same. And whichever pages are registered with which entities, in whatever order and however often, the
pages of an entity are those registered with it, asked for one by one or all at once. -/
theorem run_references :
    (∀ (project : Project) (previous : Option Manifest) (schedule : Schedule) (tree after : FileTree)
      (report : RunReport), (project.run previous false schedule).run.run tree = (.ok report, after) →
      ∃ analysis references text, project.analyze tree = .ok analysis ∧
        after.readText project.graphPath = .ok text ∧
        CrossReferences.ofText? text = some references ∧
        (∀ entity pages, (entity, pages) ∈ references.toList ↔
          CrossReferences.Lists (listings analysis) entity pages) ∧
        (∀ later, (project.passed none false later tree analysis).2.references = references) ∧
        ∀ later forced done, (project.run none false later).run.run tree = (.ok forced, done) →
          done.readText project.graphPath = .ok text) ∧
    ∀ calls entity,
      (∀ page, page ∈ (CrossReferences.registered calls).pagesFor entity ↔
        ∃ call ∈ calls, call.1 = page ∧ entity ∈ call.2) ∧
      ∀ pages, (entity, pages) ∈ (CrossReferences.registered calls).toList ↔
        CrossReferences.Lists calls entity pages := by
  refine ⟨fun project previous schedule tree after report ran => ?_, fun calls entity =>
    ⟨CrossReferences.mem_pagesFor_registered calls entity,
      CrossReferences.mem_registered_iff calls entity⟩⟩
  obtain ⟨analysis, analyzed, written⟩ := graph_after ran
  refine ⟨analysis, _, _, analyzed, written, ofText?_graphText _ _,
    CrossReferences.mem_registered_iff _, fun later => passed_references none later tree analysis,
    fun later forced done again => ?_⟩
  obtain ⟨same, reanalyzed, rewritten⟩ := graph_after again
  rw [analyzed] at reanalyzed
  cases reanalyzed
  exact rewritten

theorem run_references_singleTree : ∃ report after references text,
    (single.run none false newYear).run.run singleTree = (.ok report, after) ∧
      after.readText single.graphPath = .ok text ∧
      CrossReferences.ofText? text = some references ∧
      ("f", ["files/src/a.py.md"]) ∈ references.toList := by
  have listed : listings (analysisOf single singleTree [ownSource]) =
      [("files/src/a.py.md", ["f"]), ("index.md", [])] := by decide +kernel
  obtain ⟨report, after, ended, -⟩ := forced_single
  have ran := run_of_generate ended
  obtain ⟨analysis, references, text, analyzed, written, read, pages, -⟩ :=
    run_references.1 single none newYear singleTree after report ran
  rw [analyze_singleTree] at analyzed
  cases analyzed
  refine ⟨report, after, references, text, ran, written, read, (pages _ _).mpr ?_⟩
  rw [listed]
  exact ⟨by simp, List.pairwise_singleton _ _, fun page => by simp [eq_comm]⟩

end Project

end SourceAtlas
