import SourceAtlas.Proofs.Interleaving
/-!
A page is no concern of another. Two passes whose generators differ about one page alone come out in
the same way for every other page, however the tasks of either take turns: the task of the page keeps to
its place, its manifest entry and directories that it needs, and none of these is seen by the task of a
page that stands apart.
-/

namespace SourceAtlas

open FileTree

/-- Trees that agree but for a place, and for directories above it. -/
def FileTree.AlikeBut (own : Place) (left right : FileTree) : Prop :=
  ∀ place, place ≠ own → left.find? place = right.find? place ∨
    (place <+: own ∧ (∀ content, left.find? place ≠ some (.file content)) ∧
      ∀ content, right.find? place ≠ some (.file content))

namespace FileTree.AlikeBut

variable {own : Place} {left right : FileTree}

theorem file_iff (alike : left.AlikeBut own right) {place : Place} (away : place ≠ own)
    (content : ByteArray) :
    left.find? place = some (.file content) ↔ right.find? place = some (.file content) := by
  rcases alike place away with same | ⟨-, none, nothing⟩
  · rw [same]
  · exact iff_of_false (none content) (nothing content)

theorem alikeAt (alike : left.AlikeBut own right) {place : Place} (apart : ¬ place <+: own)
    (apart' : ¬ own <+: place) : AlikeAt place left right := by
  constructor
  · rcases alike place (fun same => apart (same ▸ List.prefix_refl _)) with same | ⟨above, -⟩
    · exact same
    · exact absurd above apart
  · intro upper prefixed content
    exact alike.file_iff (fun same => apart' (same ▸ prefixed)) content

theorem of_leads {edit : Edit} {left' right' : FileTree} (alike : left.AlikeBut own right)
    (apart : ¬ edit.own <+: own) (first : edit.Leads left left') (second : edit.Leads right right') :
    left'.AlikeBut own right' := by
  intro place away
  rw [first, second]
  rcases alike place away with same | ⟨above, none, nothing⟩
  · exact Or.inl (by rw [same])
  -- where they may differ there is no file, and the edit makes at most a directory
  · have off : place ≠ edit.own := fun same => apart (same ▸ above)
    rw [Edit.result_of_ne off, Edit.result_of_ne off]
    refine Or.inr ⟨above, fun content => ?_, fun content => ?_⟩
    · split
      · simp
      · exact none content
    · split
      · simp
      · exact nothing content

/-- An edit at the place where trees may differ is of no account. -/
theorem of_own_leads {edit : Edit} {left' : FileTree} (alike : left.AlikeBut own right)
    (there : edit.own = own) (confined : edit.Confined) (leads : edit.Leads left left') :
    left'.AlikeBut own right := by
  intro place away
  have off : place ≠ edit.own := there ▸ away
  rw [leads, Edit.result_of_ne off]
  split
  · next both =>
      refine Or.inr ⟨there ▸ (confined place both.2).1, by simp, fun content held => ?_⟩
      rw [← alike.file_iff away, both.1] at held
      cases held
  · exact alike place away

theorem symm (alike : left.AlikeBut own right) : right.AlikeBut own left := by
  intro place away
  rcases alike place away with same | ⟨above, none, nothing⟩
  · exact Or.inl same.symm
  · exact Or.inr ⟨above, nothing, none⟩

end FileTree.AlikeBut

/-- States that agree but for a page. -/
structure PassState.AlikeBut (docs : Docs) (page : String) (left right : PassState) : Prop where
  tree : left.tree.AlikeBut (docs.placeOf page) right.tree
  hashes : left.recorder.hashes = right.recorder.hashes
  entries : ∀ other, other ≠ page →
    left.recorder.manifest.undated? other = right.recorder.manifest.undated? other

namespace PassState.AlikeBut

variable {docs : Docs} {page : String} {left right : PassState}

theorem refl (docs : Docs) (page : String) (state : PassState) : state.AlikeBut docs page state :=
  ⟨fun _ _ => Or.inl rfl, rfl, fun _ _ => rfl⟩

theorem symm (alike : left.AlikeBut docs page right) : right.AlikeBut docs page left :=
  ⟨alike.tree.symm, alike.hashes.symm, fun other away => (alike.entries other away).symm⟩

theorem alikeFor (alike : left.AlikeBut docs page right) {other : String}
    (apart : Page.Apart other page) : left.AlikeFor docs other right :=
  ⟨alike.tree.alikeAt (apart.not_prefix docs) (apart.symm.not_prefix docs), alike.hashes⟩

theorem of_sameButDates (alike : left.AlikeBut docs page right) {later : PassState}
    (same : right.SameButDates later) : left.AlikeBut docs page later where
  tree := same.tree ▸ alike.tree
  hashes := alike.hashes.trans same.recorder.hashes
  entries other away := (alike.entries other away).trans (same.recorder.entries other)

theorem of_leads (alike : left.AlikeBut docs page right) {effect : StepEffect} {request : PageRequest}
    {left' right' : PassState} (own : effect.edit.own = docs.placeOf request.path)
    (apart : Page.Apart request.path page) (first : effect.Leads request left left')
    (second : effect.Leads request right right') : left'.AlikeBut docs page right' where
  tree := alike.tree.of_leads (own ▸ apart.not_prefix docs) first.tree second.tree
  hashes := first.hashes.trans (alike.hashes.trans second.hashes.symm)
  entries other away := by
    have before := alike.entries other away
    rw [first.recorder, second.recorder]
    cases effect.status with
    | none => exact before
    | some status => exact Manifest.undated?_insert before request.path rfl

end PassState.AlikeBut

namespace TaskStage

section Other

variable {left right : Pass} {task : PageTask} {page : String}

/-- Tasks for a page that stands apart go the same way in states that agree but for the page. -/
theorem finish_alikeBut (docs : right.docs = left.docs)
    (generator : right.generator task.request = left.generator task.request)
    (plain : IsPlain task.request.path) (apart : Page.Apart task.request.path page) (stage : TaskStage)
    {first second : PassState} (sturdy : first.Sturdy left.docs) (also : second.Sturdy left.docs)
    (alike : first.AlikeBut left.docs page second) :
    (stage.finish left task first).1 = (stage.finish right task second).1 ∧
      (stage.finish left task first).2.AlikeBut left.docs page (stage.finish right task second).2 := by
  induction stage, first using finish.induct left task generalizing second with
  | case1 stage first outcome ended =>
      obtain rfl := eq_done_of_outcome ended
      rw [finish_done, finish_done]
      exact ⟨rfl, alike⟩
  | case2 stage first running ih =>
      obtain ⟨next, effect, does⟩ := exists_does plain stage sturdy
      obtain ⟨here, leads⟩ := does.everywhere first sturdy (.refl _ _ _)
      obtain ⟨there, follows⟩ := does.everywhere second also (alike.alikeFor apart)
      -- the other pass takes this step at its own time
      obtain ⟨again, dated⟩ := advance_undated task docs generator stage (.refl second)
      have onward := (alike.of_leads does.own apart leads follows).of_sameButDates dated.symm
      rw [finish_of_running left task first running, finish_of_running right task second running,
        again, there, ← here]
      exact ih (advance_sturdy left task stage sturdy)
        (docs ▸ advance_sturdy right task stage (docs ▸ also)) onward

end Other

section Own

variable (pass : Pass) {task : PageTask} (plain : IsPlain task.request.path) (stage : TaskStage)
  {state other : PassState} (sturdy : state.Sturdy pass.docs)
  (alike : state.AlikeBut pass.docs task.request.path other)

include plain sturdy alike

/-- A step of the task of the page about which states may differ is of no account. -/
theorem advance_own_alikeBut :
    (stage.advance pass task state).2.AlikeBut pass.docs task.request.path other := by
  obtain ⟨next, effect, does⟩ := exists_does plain stage sturdy
  have leads := (does.everywhere state sturdy (.refl _ _ _)).2
  refine ⟨alike.tree.of_own_leads does.own does.confined leads.tree, leads.hashes.trans alike.hashes, ?_⟩
  intro page away
  rw [Manifest.undated?, (stage.advance_recorder pass task state).2 page away]
  exact alike.entries page away

theorem finish_own_alikeBut :
    (stage.finish pass task state).2.AlikeBut pass.docs task.request.path other := by
  induction stage, state using finish.induct pass task with
  | case1 stage state outcome ended =>
      obtain rfl := eq_done_of_outcome ended
      rwa [finish_done]
  | case2 stage state running ih =>
      rw [finish_of_running pass task state running]
      exact ih (advance_sturdy pass task stage sturdy) (advance_own_alikeBut pass plain stage sturdy alike)

end Own

end TaskStage

namespace Pass

variable {left right : Pass} {page : String}

/-- Outcomes that agree but for a page. -/
def OutcomesAlikeBut (page : String) : List (String × PageOutcome) → List (String × PageOutcome) → Prop :=
  List.Forall₂ fun entry other => entry.1 = other.1 ∧ (entry.1 ≠ page → entry.2 = other.2)

theorem OutcomesAlikeBut.mem_iff {outcomes others : List (String × PageOutcome)}
    (alike : OutcomesAlikeBut page outcomes others) {other : String} (away : other ≠ page)
    (outcome : PageOutcome) : (other, outcome) ∈ outcomes ↔ (other, outcome) ∈ others := by
  induction alike with
  | nil => rfl
  | @cons entry second rest later same onward ih =>
      have here : (other, outcome) = entry ↔ (other, outcome) = second := by
        constructor
        · rintro rfl
          exact Prod.ext same.1 (same.2 away)
        · rintro rfl
          exact Prod.ext same.1.symm (same.2 (same.1 ▸ away)).symm
      rw [List.mem_cons, List.mem_cons, here, ih]

/-- Tasks that are run to their ends go the same way but for a page, when generators differ about that
page alone. -/
theorem finishAll_alikeBut (page : String) (docs : right.docs = left.docs)
    (entries : List (PageTask × TaskStage))
    (plain : ∀ entry ∈ entries, IsPlain entry.1.request.path)
    (others : ∀ entry ∈ entries, entry.1.request.path ≠ page →
      Page.Apart entry.1.request.path page ∧
        right.generator entry.1.request = left.generator entry.1.request)
    {first second : PassState} (sturdy : first.Sturdy left.docs) (also : second.Sturdy left.docs)
    (alike : first.AlikeBut left.docs page second) :
    OutcomesAlikeBut page (left.finishAll entries first).1 (right.finishAll entries second).1 ∧
      (left.finishAll entries first).2.AlikeBut left.docs page (right.finishAll entries second).2 := by
  induction entries generalizing first second with
  | nil => exact ⟨.nil, alike⟩
  | cons entry rest ih =>
      obtain ⟨task, stage⟩ := entry
      rw [finishAll_cons, finishAll_cons]
      have ordinary := plain (task, stage) (List.mem_cons_self ..)
      have onward := ih (fun next inRest => plain next (List.mem_cons_of_mem _ inRest))
        (fun next inRest => others next (List.mem_cons_of_mem _ inRest))
        (TaskStage.finish_sturdy left task stage sturdy)
        (docs ▸ TaskStage.finish_sturdy right task stage (docs ▸ also))
      by_cases own : task.request.path = page
      · -- the task of the page itself: what it does on either side is of no account
        subst own
        have first := TaskStage.finish_own_alikeBut left ordinary stage sturdy alike
        have second := TaskStage.finish_own_alikeBut right ordinary stage (docs ▸ also) (docs ▸ first.symm)
        obtain ⟨outcomes, states⟩ := onward (docs ▸ second.symm)
        exact ⟨.cons ⟨rfl, fun away => absurd rfl away⟩ outcomes, states⟩
      · obtain ⟨apart, generator⟩ := others (task, stage) (List.mem_cons_self ..) own
        obtain ⟨outcome, leads⟩ := TaskStage.finish_alikeBut docs generator ordinary apart stage
          sturdy also alike
        obtain ⟨outcomes, states⟩ := onward leads
        exact ⟨.cons ⟨rfl, fun _ => outcome⟩ outcomes, states⟩

/-- Runs that come to the same but for a page. -/
structure SameEndBut (docs : Docs) (page : String) (left right : List (String × PageOutcome) × PassState) :
    Prop where
  outcomes : ∀ other, other ≠ page → ∀ outcome, (other, outcome) ∈ left.1 ↔ (other, outcome) ∈ right.1
  entries : ∀ other, other ≠ page →
    left.2.recorder.manifest.undated? other = right.2.recorder.manifest.undated? other
  files : ∀ place, place ≠ docs.placeOf page → ∀ content,
    left.2.tree.find? place = some (.file content) ↔ right.2.tree.find? place = some (.file content)

section Passes

variable (docs : right.docs = left.docs) {requests : List PageRequest} (separate : Separate requests)
  {request : PageRequest} (member : request ∈ requests)
  (generators : ∀ other ∈ requests, other ≠ request → right.generator other = left.generator other)
  {previous : Option Manifest} {state : PassState} {turns others : List Turn}
  (ended : (left.interleave turns (.ofRequests requests previous state)).Ended)
  (also : (right.interleave others (.ofRequests requests previous state)).Ended)

include docs separate member generators ended also

theorem sameEndBut_of_sturdy (sturdy : state.Sturdy left.docs) :
    SameEndBut left.docs request.path
      (left.interleave turns (.ofRequests requests previous state)).ending
      (right.interleave others (.ofRequests requests previous state)).ending := by
  obtain ⟨outcomes, states⟩ := finishAll_alikeBut request.path docs
    (Underway.ofRequests requests previous state).tasks
    (fun entry inTasks => separate.plain _ (Underway.mem_requests inTasks))
    (fun entry inTasks away => by
      have inRequests := Underway.mem_requests inTasks
      have different : entry.1.request ≠ request := fun same => away (congrArg PageRequest.path same)
      exact ⟨separate.apart_of_ne inRequests member different, generators _ inRequests different⟩)
    sturdy sturdy (.refl left.docs request.path state)
  -- either pass comes to what its tasks come to one after the other
  have first := sameEnd_finishAll separate ended sturdy
  have second := sameEnd_finishAll separate also (docs ▸ sturdy)
  have alike := ((states.of_sameButDates second.state.symm).symm.of_sameButDates first.state.symm).symm
  refine ⟨fun other away outcome => ?_, alike.entries, fun place away => alike.tree.file_iff away⟩
  rw [first.outcomes, second.outcomes]
  exact outcomes.mem_iff away outcome

theorem sameEndBut_of_ended (sound : state.tree.Sound)
    (reached : state.tree.find? left.docs.root.place = some .dir →
      state.tree.isDir left.docs.root = true)
    (way : left.docs.Firm state.tree ∨ left.docs.Openable state.tree) :
    SameEndBut left.docs request.path
      (left.interleave turns (.ofRequests requests previous state)).ending
      (right.interleave others (.ofRequests requests previous state)).ending := by
  by_cases firm : left.docs.Firm state.tree
  · exact sameEndBut_of_sturdy docs separate member generators ended also ⟨sound, firm⟩
  rcases left.docs.opening_cases sound reached with there | ⟨opened, opening⟩ | stuck
  · exact absurd (Docs.firm_of_isDir there) firm
  · obtain ⟨endedOpened, outcomes, states⟩ := ending_opening separate ended opening
    obtain ⟨alsoOpened, otherOutcomes, otherStates⟩ := ending_opening separate also (docs ▸ opening)
    have same := sameEndBut_of_sturdy docs separate member generators endedOpened alsoOpened
      ⟨opening.sound_opened, Docs.firm_of_isDir opening.isDir_opened⟩
    constructor
    · intro other away outcome
      simp only [Underway.ending, outcomes, otherOutcomes]
      exact same.outcomes other away outcome
    · intro other away
      simp only [Underway.ending, ← states.recorder, ← otherStates.recorder]
      exact same.entries other away
    · intro place away content
      exact (states.file_iff opening.changes place content).trans
        ((same.files place away content).trans (otherStates.file_iff opening.changes place content).symm)
  · exact absurd way (not_or.mpr ⟨firm, stuck⟩)

end Passes

/-- What passes come to that differ about a page alone: all decisions, how the other pages come out,
their entries but for the dates, the files at all other places, and the cross references are the same. -/
structure AgreeBut (docs : Docs) (page : String) (ran other : RunReport × PassState) : Prop where
  decisions : ran.1.decisions = other.1.decisions
  regenerated : ∀ name, name ≠ page → (name ∈ ran.1.regenerated ↔ name ∈ other.1.regenerated)
  reused : ∀ name, name ≠ page → (name ∈ ran.1.reused ↔ name ∈ other.1.reused)
  failed : ∀ name, name ≠ page → (name ∈ ran.1.failed.map Prod.fst ↔ name ∈ other.1.failed.map Prod.fst)
  entries : ∀ name, name ≠ page →
    ran.2.recorder.manifest.undated? name = other.2.recorder.manifest.undated? name
  files : ∀ place, place ≠ docs.placeOf page → ∀ content,
    ran.2.tree.find? place = some (.file content) ↔ other.2.tree.find? place = some (.file content)
  references : ran.2.references = other.2.references

/-- The pages but one fail for the same reasons. -/
def FailAlikeBut (page : String) (report other : RunReport) : Prop :=
  ∀ name reason, name ≠ page → ((name, reason) ∈ report.failed ↔ (name, reason) ∈ other.failed)

/-- A page that failed in a pass is left without an entry and without a file. -/
def Clears (docs : Docs) (page : String) (ran : RunReport × PassState) : Prop :=
  page ∈ ran.1.failed.map Prod.fst → ran.2.recorder.manifest[page]? = none ∧
    ∀ content, ran.2.tree.find? (docs.placeOf page) ≠ some (.file content)

section Runs

variable {requests : List PageRequest} (separate : Separate requests) {tree : FileTree}
  (sound : tree.Sound) (previous : Option Manifest) (hashes : FileHashes)

theorem references_alike (left right : Pass) :
    (left.run requests previous false { tree, recorder := { hashes } }).2.references =
      (right.run requests previous false { tree, recorder := { hashes } }).2.references := by
  rw [run_eq, run_eq, runTasks_references, runTasks_references]

/-- The reports of runs that come to the same but for a page. -/
theorem agreeBut_of_sameEndBut (docs : Docs) {page : String}
    (same : SameEndBut docs page
      (left.runTasks (requests.map (taskFor previous hashes)) { tree, recorder := { hashes } })
      (right.runTasks (requests.map (taskFor previous hashes)) { tree, recorder := { hashes } })) :
    AgreeBut docs page (left.run requests previous false { tree, recorder := { hashes } })
        (right.run requests previous false { tree, recorder := { hashes } }) ∧
      FailAlikeBut page (left.run requests previous false { tree, recorder := { hashes } }).1
        (right.run requests previous false { tree, recorder := { hashes } }).1 := by
  have reasons : FailAlikeBut page (left.run requests previous false { tree, recorder := { hashes } }).1
      (right.run requests previous false { tree, recorder := { hashes } }).1 := by
    intro name reason away
    apply (RunReport.mem_failures_iff ..).trans
    exact (exists_congr fun fault => and_congr_left fun _ => same.outcomes name away _).trans
      (RunReport.mem_failures_iff ..).symm
  refine ⟨⟨rfl, ?_, ?_, ?_, same.entries, same.files, references_alike ..⟩, reasons⟩
  · intro name away
    exact (RunReport.mem_pagesWith_iff ..).trans
      ((same.outcomes name away _).trans (RunReport.mem_pagesWith_iff ..).symm)
  · intro name away
    exact (RunReport.mem_pagesWith_iff ..).trans
      ((same.outcomes name away _).trans (RunReport.mem_pagesWith_iff ..).symm)
  · intro name away
    simp only [List.mem_map, Prod.exists, exists_and_right, exists_eq_right, reasons name _ away]

include separate sound

/-- Where the docs directory can neither be reached nor made, all that a pass says is that its pages have
failed. -/
theorem run_stuck (pass : Pass) (named : pass.docs.root.text ≠ "")
    (reached : tree.find? pass.docs.root.place = some .dir → tree.isDir pass.docs.root = true)
    (stuck : ¬ pass.docs.Openable tree) :
    (pass.run requests previous false { tree, recorder := { hashes } }).1.regenerated = [] ∧
      (pass.run requests previous false { tree, recorder := { hashes } }).1.reused = [] ∧
      (∀ name, name ∈ (pass.run requests previous false
          { tree, recorder := { hashes } }).1.failed.map Prod.fst ↔ name ∈ requests.map PageRequest.path) ∧
      (∀ name : String, (pass.run requests previous false
          { tree, recorder := { hashes } }).2.recorder.manifest[name]? = none) ∧
      Changes (fun _ => False) tree
        (pass.run requests previous false { tree, recorder := { hashes } }).2.tree := by
  obtain ⟨changes, fails⟩ := pass.runTasks_stuck sound named reached stuck
    (tasks_nodup previous separate.distinct hashes) (tasks_plain previous separate.plain hashes)
    { tree, recorder := { hashes } } rfl
  have pages : (pass.runTasks (requests.map (taskFor previous hashes))
      { tree, recorder := { hashes } }).1.map Prod.fst = requests.map PageRequest.path :=
    pass.outcomes_pages previous { tree, recorder := { hashes } }
  have told : ∀ request ∈ requests, ∃ fault, (request.path, .failed fault) ∈
      (pass.runTasks (requests.map (taskFor previous hashes)) { tree, recorder := { hashes } }).1 :=
    fun request member => (fails _ (List.mem_map_of_mem member)).1
  have failed : ∀ name outcome, (name, outcome) ∈ (pass.runTasks (requests.map (taskFor previous hashes))
      { tree, recorder := { hashes } }).1 → ∃ fault, outcome = .failed fault := by
    intro name outcome listed
    have inPages := pages ▸ List.mem_map_of_mem (f := Prod.fst) listed
    obtain ⟨request, member, rfl⟩ := List.mem_map.mp inPages
    obtain ⟨fault, also⟩ := told request member
    exact ⟨fault, congrArg Prod.snd (Table.eq_of_key_eq (pages ▸ separate.distinct) listed also rfl)⟩
  rw [run_eq]
  refine ⟨?_, ?_, ?_, ?_, changes⟩
  · refine List.eq_nil_iff_forall_not_mem.mpr fun name listed => ?_
    obtain ⟨fault, wrong⟩ := failed name _ ((RunReport.mem_pagesWith_iff ..).mp listed)
    cases wrong
  · refine List.eq_nil_iff_forall_not_mem.mpr fun name listed => ?_
    obtain ⟨fault, wrong⟩ := failed name _ ((RunReport.mem_pagesWith_iff ..).mp listed)
    cases wrong
  · intro name
    constructor
    · intro listed
      obtain ⟨⟨page, reason⟩, inFailed, rfl⟩ := List.mem_map.mp listed
      obtain ⟨fault, inOutcomes, -⟩ := (RunReport.mem_failures_iff ..).mp inFailed
      exact pages ▸ List.mem_map_of_mem inOutcomes
    · intro inRequests
      obtain ⟨request, member, rfl⟩ := List.mem_map.mp inRequests
      obtain ⟨fault, inOutcomes⟩ := told request member
      exact List.mem_map_of_mem (f := Prod.fst)
        ((RunReport.mem_failures_iff ..).mpr ⟨fault, inOutcomes, rfl⟩)
  · intro name
    by_cases own : ∃ task ∈ requests.map (taskFor previous hashes), name = task.request.path
    · obtain ⟨task, inTasks, rfl⟩ := own
      exact (fails task inTasks).2.trans (by simp)
    · refine (pass.runTasks_entry _ _ name fun task inTasks same => ?_).trans (by simp)
      exact own ⟨task, inTasks, same⟩

/-- A page that fails is left without an entry and without a file, where the docs directory is reached if
it is there. -/
theorem run_clears (pass : Pass)
    (reached : tree.find? pass.docs.root.place = some .dir → tree.isDir pass.docs.root = true)
    {request : PageRequest} (member : request ∈ requests) :
    Clears pass.docs request.path
      (pass.run requests previous false { tree, recorder := { hashes } }) := by
  intro failed
  rw [run_eq] at failed ⊢
  obtain ⟨⟨page, reason⟩, told, same⟩ := List.mem_map.mp failed
  obtain ⟨fault, listed, -⟩ := (RunReport.mem_failures_iff ..).mp told
  cases same
  have distinct := tasks_nodup previous separate.distinct hashes
  have plain := tasks_plain previous separate.plain hashes
  have pages := pass.runTasks_pages (requests.map (taskFor previous hashes))
    { tree, recorder := { hashes } }
  have inTasks := List.mem_map_of_mem (f := taskFor previous hashes) member
  obtain ⟨outcome, entered, result⟩ := pass.runTasks_entered { tree, recorder := { hashes } } distinct
    inTasks (by simp)
  obtain ⟨other, also, spares⟩ := pass.runTasks_spares { tree, recorder := { hashes } } distinct inTasks
    plain sound
  obtain rfl := congrArg Prod.snd (Table.eq_of_key_eq (pages ▸ distinct) entered listed rfl)
  obtain rfl := congrArg Prod.snd (Table.eq_of_key_eq (pages ▸ distinct) also listed rfl)
  generalize entry : (pass.runTasks (requests.map (taskFor previous hashes))
    { tree, recorder := { hashes } }).2.recorder.manifest[(taskFor previous hashes request).request.path]? =
      status at result
  cases result
  exact ⟨entry, spares fun content held => reached (sound.above (plain _ inTasks).names_ne_nil held)⟩

/-- A failing page never affects another, where the docs directory is reached if it is there. Of two
passes whose generators agree on all requests but one, where either may make its page, make it otherwise or
fail, and however the tasks of either take turns, the other pages come out alike, and if the page fails
nothing is left of it. The others also fail for the same reasons, unless the path of the docs directory
steps upwards out of a directory that is missing and cannot be followed however many are made. -/
theorem run_isolates {left right : Pass} (docs : right.docs = left.docs)
    (reached : tree.find? left.docs.root.place = some .dir → tree.isDir left.docs.root = true)
    {request : PageRequest} (member : request ∈ requests)
    (generators : ∀ other ∈ requests, other ≠ request → right.generator other = left.generator other) :
    AgreeBut left.docs request.path
        (left.run requests previous false { tree, recorder := { hashes } })
        (right.run requests previous false { tree, recorder := { hashes } }) ∧
      (left.docs.Firm tree ∨ left.docs.Openable tree → FailAlikeBut request.path
        (left.run requests previous false { tree, recorder := { hashes } }).1
        (right.run requests previous false { tree, recorder := { hashes } }).1) ∧
      Clears left.docs request.path
        (left.run requests previous false { tree, recorder := { hashes } }) ∧
      Clears left.docs request.path
        (right.run requests previous false { tree, recorder := { hashes } }) := by
  have clears := run_clears separate sound previous hashes left reached member
  have others := run_clears separate sound previous hashes right (docs ▸ reached) member
  have ended : (left.interleave (left.allTurns (requests.map (taskFor previous hashes)).length)
      (.ofRequests requests previous { tree, recorder := { hashes } })).Ended := left.allTurns_ended _ _
  have also : (right.interleave (right.allTurns (requests.map (taskFor previous hashes)).length)
      (.ofRequests requests previous { tree, recorder := { hashes } })).Ended := right.allTurns_ended _ _
  have ends := sameEndBut_of_ended docs separate member generators ended also sound reached
  have agree (way : left.docs.Firm tree ∨ left.docs.Openable tree) :=
    agreeBut_of_sameEndBut previous hashes left.docs (ends way)
  refine ⟨?_, fun way => (agree way).2, clears, docs ▸ others⟩
  by_cases way : left.docs.Firm tree ∨ left.docs.Openable tree
  · exact (agree way).1
  -- otherwise no page is kept or made in either pass
  obtain ⟨loose, stuck⟩ := not_or.mp way
  have named := Docs.named_of_not_firm loose
  obtain ⟨made, kept, failed, entries, files⟩ :=
    run_stuck separate sound previous hashes left named reached stuck
  obtain ⟨made', kept', failed', entries', files'⟩ :=
    run_stuck separate sound previous hashes right (docs ▸ named) (docs ▸ reached) (docs ▸ stuck)
  refine ⟨rfl, ?_, ?_, ?_, ?_, ?_, references_alike ..⟩
  · simp [made, made']
  · simp [kept, kept']
  · simp only [failed, failed', implies_true]
  · simp [Manifest.undated?, entries, entries']
  · intro place away content
    exact (Iff.intro (files.file_before not_false) (files.file not_false)).trans
      ⟨files'.file not_false, files'.file_before not_false⟩

end Runs

theorem run_isolates_halting :
    "a.md" ∈ ({ halting with generator := fun _ => .ok "text", turns := byTurns }.run
        [requestOf "a.md", requestOf "b.md"] none false
        { tree := {}, recorder := { hashes := ∅ } }).1.regenerated ∧
      (halting.run [requestOf "a.md", requestOf "b.md"] none false
        { tree := {}, recorder := { hashes := ∅ } }).2.recorder.manifest["b.md"]? = none := by
  have separate : Separate [requestOf "a.md", requestOf "b.md"] :=
    separate_pair (by decide) (by decide) (by decide +kernel)
  obtain ⟨agree, -, clears, -⟩ := @run_isolates _ separate _ Sound.empty none ∅ halting
    { halting with generator := fun _ => .ok "text", turns := byTurns } rfl
    (fun found => absurd found (by decide +kernel)) (requestOf "b.md") (by simp) (by
      simp only [List.forall_mem_cons]
      refine ⟨fun _ => ?_, fun same => absurd rfl same, List.forall_mem_nil _⟩
      simp [halting, requestOf])
  refine ⟨(agree.regenerated "a.md" (by decide)).mp ?_, (clears ?_).1⟩
  · decide +kernel
  · decide +kernel

/-- Where a step upwards is not firm a page that fails may be left: its file is not found while the way
is not there, and the directories of the next page open the way to it. -/
theorem run_leaves_failed_page :
    Separate [requestOf Page.overview, requestOf "a.md"] ∧ overviewTree.Sound ∧
      ¬ Clears detouring.docs Page.overview
        (detouring.run [requestOf Page.overview, requestOf "a.md"] none false
          { tree := overviewTree, recorder := { hashes := ∅ } }) ∧
      (detouring.docs.load (detouring.run [requestOf Page.overview, requestOf "a.md"] none false
        { tree := overviewTree, recorder := { hashes := ∅ } }).2.tree Page.overview).toOption =
          some "old" := by
  refine ⟨separate_pair (by decide) (by decide) (by decide +kernel), overviewTree_sound,
    fun clears => ?_, by decide +kernel⟩
  have held : (detouring.run [requestOf Page.overview, requestOf "a.md"] none false
      { tree := overviewTree, recorder := { hashes := ∅ } }).2.tree.find?
        (detouring.docs.placeOf Page.overview) = some (.file "old".toUTF8) := by decide +kernel
  exact (clears (by decide +kernel)).2 _ held

end Pass

end SourceAtlas
