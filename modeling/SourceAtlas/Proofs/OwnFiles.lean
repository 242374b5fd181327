import SourceAtlas.Proofs.LivePages
/-!
What a run may touch. Page paths come from the manifest and from the sources; each is followed from the
docs directory by names alone or refused, so whatever they say, a run that ends in any way has changed
its own files at most.
-/

namespace SourceAtlas

open FileTree

namespace Docs

variable (docs : Docs)

/-- A place strictly below the docs directory. -/
def Holds (place : Place) : Prop := ∃ names, names ≠ [] ∧ place = docs.root.place ++ names

theorem holds_of_locate {page : String} {path : Path} (located : docs.locate page = .ok path) :
    docs.Holds path.place := by
  refine ⟨_, fun empty => ?_, docs.place_of_locate located⟩
  obtain ⟨filled, -, -⟩ := (docs.locate_eq_ok_iff page path).mp located
  have parts := docs.parts_of_locate located
  rw [empty] at parts
  exact Path.parts_ne_nil filled parts

end Docs

/-- A step touches the place of its page at most, and none if the path is refused. -/
theorem TaskStage.changes_of_locate (pass : Pass) (task : PageTask) (stage : TaskStage)
    (state : PassState) :
    Changes (fun place => ∃ path, pass.docs.locate task.request.path = .ok path ∧ place = path.place)
      state.tree (stage.advance pass task state).2.tree := by
  cases located : pass.docs.locate task.request.path with
  | ok path =>
      apply (stage.advance_changes pass task state).mono
      rintro place rfl
      exact ⟨path, rfl, (pass.docs.place_of_locate located).symm⟩
  | error fault =>
      -- under a refused path nothing can be stored, and removing leaves everything alone
      cases stage with
      | load prior =>
          simp only [advance]
          split <;> exact .refl _ _
      | generate =>
          simp only [advance]
          split <;> exact .refl _ _
      | store body =>
          cases stored : (pass.docs.store task.request.path body).run.run state.tree with
          | mk result tree =>
              have changes : Changes (fun _ => False) state.tree tree := by
                rcases pass.docs.store_cases stored with ⟨_, -, changes⟩ | ⟨-, -, loaded⟩
                · exact changes
                · obtain ⟨path, taken, -⟩ := (pass.docs.load_eq_ok_iff ..).mp loaded
                  rw [located] at taken
                  cases taken
              cases result <;> simp only [advance, PassState.work, stored] <;> exact changes.of_none
      | remove other =>
          simp only [advance, PassState.work, Docs.run_remove, located]
          exact .refl _ _
      | _ => exact .refl _ _

namespace Pass

variable (pass : Pass)

theorem runTasks_changes_of_locate (tasks : List PageTask) (state : PassState) :
    Changes (fun place => ∃ task ∈ tasks, ∃ path, pass.docs.locate task.request.path = .ok path ∧
      place = path.place) state.tree (pass.runTasks tasks state).2.tree := by
  refine pass.interleave_state (fun later => Changes _ state.tree later.tree) _ ?_ (.refl _ _)
  intro task member now stage middle changes
  rw [start_tasks] at member
  refine changes.trans ((stage.changes_of_locate (pass.dated now) task middle).mono ?_)
  exact fun place located => ⟨task, member, located⟩

/-- A pass touches the places of requested pages, also when it is called off: then it touches none. -/
theorem run_changes (requests : List PageRequest) (previous : Option Manifest) (cancelled : Bool)
    (state : PassState) :
    Changes (fun place => ∃ request ∈ requests, ∃ path, pass.docs.locate request.path = .ok path ∧
      place = path.place) state.tree (pass.run requests previous cancelled state).2.tree := by
  unfold Pass.run
  split
  · exact .refl _ _
  · apply (pass.runTasks_changes_of_locate _ state).mono
    rintro place ⟨task, member, there⟩
    obtain ⟨request, requested, rfl⟩ := List.mem_map.mp member
    exact ⟨request, requested, there⟩

end Pass

namespace Work

variable {α β : Type} {touched others : Place → Prop}

/-- However an operation ends, it has touched none but the given places. -/
def Within (touched : Place → Prop) (operation : Work α) : Prop :=
  ∀ tree, Changes touched tree (operation.run.run tree).2

theorem Within.mono {operation : Work α} (within : Within touched operation)
    (wider : ∀ place, touched place → others place) : Within others operation :=
  fun tree => (within tree).mono wider

theorem within_pure (touched : Place → Prop) (answer : α) : Within touched (pure answer) :=
  fun tree => .refl _ tree

theorem Within.bind {first : Work α} {next : α → Work β} (within : Within touched first)
    (later : ∀ answer, Within touched (next answer)) : Within touched (first >>= next) := by
  intro tree
  rw [run_bind]
  have changes := within tree
  cases ran : first.run.run tree with
  | mk result middle =>
      rw [ran] at changes
      cases result with
      | error fault => exact changes
      | ok answer => exact changes.trans (later answer middle)

/-- A file that is written touches its place at most, also when that fails. -/
theorem within_writeAtomic (name : IoFault → Fault) (path : Path) (content : ByteArray) :
    Within (· = path.place) ((Disk.writeAtomic path content).adapt name) := by
  intro tree
  rw [run_adapt]
  rcases Disk.writeAtomic_cases (Prod.eta ((Disk.writeAtomic path content).run.run tree)) with
    ⟨fault, -, changes⟩ | ⟨-, changes, -⟩
  · exact changes.of_none
  · exact changes

end Work

namespace Project

variable (project : Project)

def passed (previous : Option Manifest) (cancelled : Bool) (schedule : Schedule) (tree : FileTree)
    (analysis : Analysis) : RunReport × PassState :=
  (project.pass schedule).run analysis.pages previous cancelled (start tree analysis)

def conclude (previous : Option Manifest) (analysis : Analysis) (report : RunReport) (made : PassState) :
    Work RunReport := do
  (carrySkipped previous report.skipped made.recorder).manifest.save project.manifestPath
  (Disk.writeAtomic project.graphPath (graphText analysis made.references).toUTF8).adapt Fault.io
  return report

variable {project} {previous : Option Manifest} {cancelled : Bool} {schedule : Schedule} {tree : FileTree}

theorem run_of_error {fault : Fault} (failed : project.analyze tree = .error fault) :
    (project.run previous cancelled schedule).run.run tree = (.error fault, tree) := by
  have lifted : (liftM (project.analyze tree) : Work Analysis).run.run tree = (.error fault, tree) := by
    rw [failed]
    rfl
  unfold run
  rw [run_bind, run_get]
  simp only
  rw [run_bind, lifted]

theorem run_of_analyzed {analysis : Analysis} (analyzed : project.analyze tree = .ok analysis) :
    (project.run previous cancelled schedule).run.run tree =
      (project.conclude previous analysis (project.passed previous cancelled schedule tree analysis).1
        (project.passed previous cancelled schedule tree analysis).2).run.run
          (project.swept previous analysis (project.passed previous cancelled schedule tree analysis).2) := by
  have lifted : (liftM (project.analyze tree) : Work Analysis).run.run tree = (.ok analysis, tree) := by
    rw [analyzed]
    rfl
  unfold run
  rw [run_bind, run_get]
  simp only
  rw [run_bind, lifted]
  simp only [passed, pass, start]
  rw [run_bind, run_set]
  rfl

theorem within_conclude (analysis : Analysis) (report : RunReport) (made : PassState) :
    Work.Within (fun place => place = project.graphPath.place ∨ place = project.manifestPath.place)
      (project.conclude previous analysis report made) := by
  unfold conclude
  apply Work.Within.bind
  · exact Work.Within.mono (Work.within_writeAtomic _ _ _) fun place same => Or.inr same
  intro _
  apply Work.Within.bind
  · exact Work.Within.mono (Work.within_writeAtomic _ _ _) fun place same => Or.inl same
  intro _
  exact Work.within_pure _ report

/-- The files of a run: planned pages, pages of the manifest before, pages below the directory of file
pages, the call graph, and the manifest; each where its path leads. -/
inductive OwnPlace (project : Project) (previous : Option Manifest) (tree : FileTree) : Place → Prop
  | planned {analysis : Analysis} (analyzed : project.analyze tree = .ok analysis)
      {request : PageRequest} (member : request ∈ analysis.pages) {path : Path}
      (located : project.docs.locate request.path = .ok path) : OwnPlace project previous tree path.place
  | recorded {manifest : Manifest} (found : previous = some manifest) {page : String}
      (member : page ∈ manifest) {path : Path} (located : project.docs.locate page = .ok path) :
      OwnPlace project previous tree path.place
  | listed {names : List String} (filled : names ≠ [])
      (suffixed : placeSuffix? (project.docs.placeOf Page.filesDir ++ names) = some "md") :
      OwnPlace project previous tree (project.docs.placeOf Page.filesDir ++ names)
  | graph : OwnPlace project previous tree project.graphPath.place
  | manifest : OwnPlace project previous tree project.manifestPath.place

/-- The files of a run are below the docs directory, but for the manifest. -/
theorem OwnPlace.holds {place : Place} (own : project.OwnPlace previous tree place)
    (other : place ≠ project.manifestPath.place) : project.docs.Holds place := by
  cases own with
  | planned analyzed member located => exact project.docs.holds_of_locate located
  | recorded found member located => exact project.docs.holds_of_locate located
  | @listed names filled suffixed =>
      exact ⟨Path.names ⟨Page.filesDir⟩ ++ names, by simp [filled],
        by rw [Docs.placeOf, List.append_assoc]⟩
  | graph => exact project.docs.holds_of_locate (project.docs.locate_of_plain graph_isPlain)
  | manifest => exact absurd rfl other

/-- An orphan is a page of the manifest before, or stands below the directory of file pages. -/
theorem OwnPlace.of_orphan {swept : FileTree} (sound : swept.Sound) {planned : List String}
    {page : String} (orphan : page ∈ project.orphans swept previous planned) {path : Path}
    (located : project.docs.locate page = .ok path) : project.OwnPlace previous tree path.place := by
  obtain ⟨-, ⟨manifest, found, member⟩ | below⟩ := (project.mem_orphans_iff ..).mp orphan
  · exact .recorded found member located
  · obtain ⟨-, names, content, filled, rfl, held, suffixed⟩ :=
      (project.docs.mem_pagesBelow_iff Page.filesDir_isPlain page).mp below
    obtain ⟨plain, placed⟩ := project.docs.below_of_held sound filled held
    rw [project.docs.place_of_locate located, placed]
    apply OwnPlace.listed filled
    rw [← placed, project.docs.placeSuffix?_placeOf plain, suffixed]

theorem swept_changes (analysis : Analysis) {made : PassState} (sound : made.tree.Sound) :
    Changes (project.OwnPlace previous tree) made.tree (project.swept previous analysis made) := by
  have swept : Changes _ made.tree (project.swept previous analysis made) :=
    removeAll_changes_of_locate made.tree _
  apply swept.mono
  intro place there
  obtain ⟨page, orphan, ⟨path, located⟩, same⟩ := there
  rw [same, ← project.docs.place_of_locate located]
  exact .of_orphan sound orphan located

/-- Every stage of a run keeps to the files of the run, so the run does, however it ends. -/
theorem run_changes (sound : tree.Sound) :
    Changes (project.OwnPlace previous tree) tree
      ((project.run previous cancelled schedule).run.run tree).2 := by
  cases analyzed : project.analyze tree with
  | error fault =>
      rw [run_of_error analyzed]
      exact .refl _ tree
  | ok analysis =>
      rw [run_of_analyzed analyzed]
      have made : Changes (project.OwnPlace previous tree) tree
          (project.passed previous cancelled schedule tree analysis).2.tree := by
        apply ((project.pass schedule).run_changes analysis.pages previous cancelled
          (start tree analysis)).mono
        intro place there
        obtain ⟨request, member, path, located, same⟩ := there
        rw [same]
        exact .planned analyzed member located
      have concluded : ∀ middle, Changes (project.OwnPlace previous tree) middle
          ((project.conclude previous analysis _ _).run.run middle).2 := fun middle =>
        (within_conclude analysis (project.passed previous cancelled schedule tree analysis).1
          (project.passed previous cancelled schedule tree analysis).2 middle).mono fun place same =>
            same.elim (fun graph => graph ▸ .graph) fun manifest => manifest ▸ .manifest
      exact made.trans ((swept_changes analysis (made.sound sound)).trans (concluded _))

/-- A document in the docs directory beside the overview, the call graph and the file pages is no file
of a run, unless the manifest before has it or the run keeps its manifest there. -/
theorem not_ownPlace_of_document (rooted : project.Rooted tree) {page : String} (plain : IsPlain page)
    (offOverview : page ≠ Page.overview) (offGraph : page ≠ "call_graph.json")
    (offFiles : ∀ names, project.docs.placeOf Page.filesDir ++ names ≠ project.docs.placeOf page)
    (offManifest : project.manifestPath.place ≠ project.docs.placeOf page)
    (unlisted : ∀ manifest, previous = some manifest → ∀ key, key ∈ manifest →
      Path.parts ⟨key⟩ ≠ Path.parts ⟨page⟩) :
    ¬ project.OwnPlace previous tree (project.docs.placeOf page) := by
  intro own
  -- each of the run's own places is compared with the place of the document
  generalize here : project.docs.placeOf page = place at own
  cases own with
  | planned analyzed member located =>
      rw [project.docs.place_of_locate located] at here
      rcases Analysis.page_cases analyzed member with overview | ⟨source, inSources, path⟩
      · rw [overview] at here
        exact offOverview (project.docs.placeOf_inj plain Page.overview_isPlain here)
      · have ordinary := Analysis.isPlain_of_mem_sources rooted.sound rooted.rooted analyzed inSources
        obtain ⟨names, -, below⟩ := @placeOf_ofSource project _ ordinary
        rw [path, below] at here
        exact offFiles names here.symm
  | recorded found member located =>
      rw [project.docs.place_of_locate located] at here
      exact unlisted _ found _ member
        (project.docs.parts_eq_of_placeOf located (project.docs.locate_of_plain plain) here.symm)
  | listed filled suffixed => exact offFiles _ here.symm
  | graph =>
      rw [place_graphPath] at here
      exact offGraph (project.docs.placeOf_inj plain graph_isPlain here)
  | manifest => exact offManifest here.symm

/-- A run that goes by any manifest, ends well or not, and is called off or not leaves every file as it
was, and makes none, at places that are not its own; its own places are below the docs directory, but
for the manifest. -/
theorem run_keeps_to_own_files (project : Project) (previous : Option Manifest) (cancelled : Bool)
    (schedule : Schedule) {tree : FileTree} (sound : tree.Sound) (place : Place) (content : ByteArray) :
    (¬ project.OwnPlace previous tree place →
      (((project.run previous cancelled schedule).run.run tree).2.find? place = some (.file content) ↔
        tree.find? place = some (.file content))) ∧
    (¬ project.docs.Holds place → place ≠ project.manifestPath.place →
      (((project.run previous cancelled schedule).run.run tree).2.find? place = some (.file content) ↔
        tree.find? place = some (.file content))) := by
  have spared : ¬ project.OwnPlace previous tree place →
      (((project.run previous cancelled schedule).run.run tree).2.find? place = some (.file content) ↔
        tree.find? place = some (.file content)) := by
    intro other
    have changes : Changes (project.OwnPlace previous tree) tree
        ((project.run previous cancelled schedule).run.run tree).2 := run_changes sound
    exact ⟨changes.file_before other, changes.file other⟩
  exact ⟨spared, fun outside other => spared fun own => outside (own.holds other)⟩

/-- A file tree with a note beside the docs directory and a guide in it. -/
def notedTree : FileTree :=
  (strayTree.insert ["r", "notes.md"] (.file "note".toUTF8)).insert ["r", "docs", "guide.md"]
    (.file "guide".toUTF8)

theorem notedTree_sound : notedTree.Sound := by
  have noted := strayTree_sound.insert ["r"] "notes.md" (.file "note".toUTF8) (by decide) (by decide)
    fun found => absurd found (by decide)
  exact noted.insert ["r", "docs"] "guide.md" _ (by decide) (by decide) fun found => absurd found (by decide)

theorem run_keeps_to_own_files_notedTree : ∃ after,
    ((paged.run (some (manifestOf "../notes.md")) false newYear).run.run notedTree).2 = after ∧
      after.find? ["r", "notes.md"] = some (.file "note".toUTF8) ∧
      after.find? ["r", "docs", "guide.md"] = some (.file "guide".toUTF8) := by
  have docs : paged.docs.root.place = ["r", "docs"] := by decide +kernel
  have manifest : paged.manifestPath.place = ["r", "docs", ".docwright-manifest.json"] := by
    decide +kernel
  have there : notedTree.find? paged.root.place = some .dir := by decide +kernel
  have rooted : paged.Rooted notedTree := ⟨notedTree_sound, fun content => by simp [there], by decide⟩
  have plain : IsPlain "guide.md" := ⟨["guide.md"], by simp, by decide, rfl⟩
  have guide : paged.docs.placeOf "guide.md" = ["r", "docs", "guide.md"] := by decide +kernel
  refine ⟨_, rfl, ?_, ?_⟩
  · apply ((run_keeps_to_own_files paged _ _ _ notedTree_sound _ _).2 ?_ ?_).mpr
    · decide +kernel
    · unfold Docs.Holds
      rw [docs]
      simp
    · rw [manifest]
      decide
  · apply ((run_keeps_to_own_files paged _ _ _ notedTree_sound _ _).1 ?_).mpr
    · decide +kernel
    · rw [← guide]
      apply not_ownPlace_of_document rooted plain (by decide) (by decide)
      · exact fun names => paged.docs.placeOf_append_ne names (by decide) (by decide) (by decide)
      · rw [manifest, guide]
        decide
      · intro recalled found key member
        rw [← Option.some.inj found] at member
        rw [eq_of_mem_manifestOf member]
        decide

end Project

end SourceAtlas
