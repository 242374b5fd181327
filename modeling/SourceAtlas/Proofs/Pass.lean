import SourceAtlas.Proofs.Turns
/-!
How the tasks of a pass come out. A task keeps its page, makes it, or fails, and in each case leaves
its page and the manifest entry for it in step; the tasks that it takes turns with touch no page but
their own, so it finds its page as it has left it.
-/

namespace SourceAtlas

open FileTree

/-- What a page was made from before, when the decision is to reuse it and its text is still what was
recorded. -/
def PageTask.kept? (docs : Docs) (tree : FileTree) (task : PageTask) : Option PageStatus :=
  match task.decision, task.prior with
  | .reusable, some prior =>
      match docs.load tree task.request.path with
      | .ok text => if Fingerprint.ofText text = prior.contentHash then some prior else none
      | .error _ => none
  | _, _ => none

theorem PageTask.kept?_eq_some_iff (docs : Docs) (tree : FileTree) (task : PageTask)
    (prior : PageStatus) :
    task.kept? docs tree = some prior ↔ task.decision = .reusable ∧ task.prior = some prior ∧
      ∃ text, docs.load tree task.request.path = .ok text ∧
        Fingerprint.ofText text = prior.contentHash := by
  unfold kept?
  split
  · next other decided was =>
      cases loaded : docs.load tree task.request.path with
      | error fault => simp
      | ok text =>
          simp only [decided, was, true_and, Option.ite_none_right_eq_some, Option.some_inj]
          constructor
          · rintro ⟨same, rfl⟩
            exact ⟨rfl, text, rfl, same⟩
          · rintro ⟨rfl, other, found, same⟩
            cases found
            exact ⟨same, rfl⟩
  · next other =>
      refine ⟨nofun, fun kept => ?_⟩
      exact absurd kept.2.1 (other prior kept.1)

theorem PageTask.kept?_congr (docs : Docs) {tree other : FileTree} (task : PageTask)
    (same : ∀ text, docs.load tree task.request.path = .ok text ↔
      docs.load other task.request.path = .ok text) : task.kept? docs tree = task.kept? docs other := by
  apply Option.ext
  intro prior
  simp only [kept?_eq_some_iff, same]

/-- No step of a task touches the page of another. -/
theorem TaskStage.advance_spares (pass : Pass) {task : PageTask} (plain : IsPlain task.request.path)
    {page : String} (also : IsPlain page) (other : task.request.path ≠ page) (stage : TaskStage)
    (state : PassState) :
    Changes (· ≠ pass.docs.placeOf page) state.tree (stage.advance pass task state).2.tree := by
  refine (stage.advance_changes pass task state).mono ?_
  rintro place rfl same
  exact other (pass.docs.placeOf_inj plain also same)

/-- How a task can come out that goes by some hashes, with the manifest entry that its page then has.
The text of a page that it kept or made stands. -/
inductive TaskResult (pass : Pass) (task : PageTask) (hashes : FileHashes) (stands : String → Prop) :
    PageOutcome → Option PageStatus → Prop
  | kept (prior : PageStatus) (text : String) (decided : task.decision = .reusable)
      (was : task.prior = some prior) (stood : stands text)
      (hashed : Fingerprint.ofText text = prior.contentHash) :
      TaskResult pass task hashes stands .reused (some prior)
  | made (body : String) (now : Timestamp) (generated : pass.generator task.request = .ok body)
      (stood : stands body) :
      TaskResult pass task hashes stands .regenerated
        (some (.ofPage hashes now task.request.sources task.request.lines body))
  | failed (fault : Fault) : TaskResult pass task hashes stands (.failed fault) none

/-- How far a task has come, whose page had no entry when it started, with the entry at that stage. -/
inductive TaskProgress (pass : Pass) (task : PageTask) (hashes : FileHashes) (stands : String → Prop) :
    TaskStage → Option PageStatus → Prop
  | register : TaskProgress pass task hashes stands .register none
  | load (prior : PageStatus) (decided : task.decision = .reusable) (was : task.prior = some prior) :
      TaskProgress pass task hashes stands (.load prior) none
  | carry (prior : PageStatus) (text : String) (decided : task.decision = .reusable)
      (was : task.prior = some prior) (stood : stands text)
      (hashed : Fingerprint.ofText text = prior.contentHash) :
      TaskProgress pass task hashes stands (.carry prior) none
  | generate : TaskProgress pass task hashes stands .generate none
  | store (body : String) (generated : pass.generator task.request = .ok body) :
      TaskProgress pass task hashes stands (.store body) none
  | record (body : String) (generated : pass.generator task.request = .ok body) (stood : stands body) :
      TaskProgress pass task hashes stands (.record body) none
  | remove (fault : Fault) : TaskProgress pass task hashes stands (.remove fault) none
  | done {outcome : PageOutcome} {entry : Option PageStatus}
      (result : TaskResult pass task hashes stands outcome entry) :
      TaskProgress pass task hashes stands (.done outcome) entry

section Progress

variable {pass : Pass} {task : PageTask} {hashes : FileHashes}

theorem TaskResult.mono {stands others : String → Prop} (wider : ∀ text, stands text → others text)
    {outcome : PageOutcome} {entry : Option PageStatus}
    (result : TaskResult pass task hashes stands outcome entry) :
    TaskResult pass task hashes others outcome entry := by
  cases result with
  | kept prior text decided was stood hashed => exact .kept prior text decided was (wider _ stood) hashed
  | made body now generated stood => exact .made body now generated (wider _ stood)
  | failed fault => exact .failed fault

theorem TaskProgress.mono {stands others : String → Prop} (wider : ∀ text, stands text → others text)
    {stage : TaskStage} {entry : Option PageStatus}
    (progress : TaskProgress pass task hashes stands stage entry) :
    TaskProgress pass task hashes others stage entry := by
  cases progress with
  | register => exact .register
  | load prior decided was => exact .load prior decided was
  | carry prior text decided was stood hashed =>
      exact .carry prior text decided was (wider _ stood) hashed
  | generate => exact .generate
  | store body generated => exact .store body generated
  | record body generated stood => exact .record body generated (wider _ stood)
  | remove fault => exact .remove fault
  | done result => exact .done (result.mono wider)

/-- A task goes on from stage to stage, if a page that is loaded stands. -/
theorem TaskProgress.advance {standing : FileTree → String → Prop}
    (shown : ∀ tree text, pass.docs.load tree task.request.path = .ok text → standing tree text)
    (now : Timestamp) {stage : TaskStage} {state : PassState} (same : state.recorder.hashes = hashes)
    (progress : TaskProgress pass task hashes (standing state.tree) stage
      state.recorder.manifest[task.request.path]?) :
    TaskProgress pass task hashes (standing (stage.advance (pass.dated now) task state).2.tree)
      (stage.advance (pass.dated now) task state).1
      (stage.advance (pass.dated now) task state).2.recorder.manifest[task.request.path]? := by
  generalize absent : state.recorder.manifest[task.request.path]? = entry at progress
  cases progress with
  | register =>
      simp only [TaskStage.advance, absent]
      rcases TaskStage.afterRegister_cases task with ⟨prior, decided, was, next⟩ | ⟨-, next⟩
      · exact next ▸ .load prior decided was
      · exact next ▸ .generate
  | load prior decided was =>
      cases loaded : pass.docs.load state.tree task.request.path with
      | error fault =>
          simp only [TaskStage.advance, Pass.dated, loaded, absent]
          exact .generate
      | ok text =>
          simp only [TaskStage.advance, Pass.dated, loaded, absent]
          split
          · next hashed => exact .carry prior text decided was (shown _ _ loaded) hashed
          · exact .generate
  | carry prior text decided was stood hashed =>
      simp only [TaskStage.advance, Recorder.carry, Std.ExtTreeMap.getElem?_insert_self]
      exact .done (.kept prior text decided was stood hashed)
  | generate =>
      cases generated : pass.generator task.request <;>
        simp only [TaskStage.advance, Pass.dated, generated, absent]
      · exact .remove _
      · exact .store _ generated
  | store body generated =>
      cases stored : (pass.docs.store task.request.path body).run.run state.tree with
      | mk result tree =>
          cases result with
          | error fault =>
              simp only [TaskStage.advance, Pass.dated, PassState.work, stored, absent]
              exact .remove _
          | ok written =>
              simp only [TaskStage.advance, Pass.dated, PassState.work, stored, absent]
              rcases pass.docs.store_cases stored with ⟨fault, wrong, -⟩ | ⟨-, -, loaded⟩
              · cases wrong
              · exact .record body generated (shown _ _ loaded)
  | record body generated stood =>
      simp only [TaskStage.advance, Recorder.record, Std.ExtTreeMap.getElem?_insert_self, same]
      exact .done (.made body now generated stood)
  | remove fault =>
      have still : ((TaskStage.remove fault).advance (pass.dated now) task
          state).2.recorder.manifest[task.request.path]? = none := absent
      exact still ▸ .done (.failed fault)
  | done result =>
      simp only [TaskStage.advance, absent]
      exact .done result

end Progress

/-- Nothing happens in the place of a page that its task does not store; and in the end there is no file
in it if the task has failed, when the page could be reached if it stood at the start. -/
def TaskStage.Spares (docs : Docs) (page : String) (start : FileTree) (stage : TaskStage)
    (tree : FileTree) : Prop :=
  match stage with
  | record _ | done .regenerated => True
  | done (.failed _) =>
      (∀ content, start.find? (docs.placeOf page) = some (.file content) →
        start.isDir docs.root = true) →
          ∀ content, tree.find? (docs.placeOf page) ≠ some (.file content)
  | _ => Changes (· ≠ docs.placeOf page) start tree

theorem TaskStage.Spares.advance {pass : Pass} {task : PageTask} {start : FileTree} (sound : start.Sound)
    (plain : IsPlain task.request.path) (now : Timestamp) {stage : TaskStage} {state : PassState}
    (spares : stage.Spares pass.docs task.request.path start state.tree) :
    (stage.advance (pass.dated now) task state).1.Spares pass.docs task.request.path start
      (stage.advance (pass.dated now) task state).2.tree := by
  cases stage with
  | register =>
      simp only [TaskStage.advance]
      rcases afterRegister_cases task with ⟨prior, -, -, next⟩ | ⟨-, next⟩ <;> exact next ▸ spares
  | load prior =>
      simp only [TaskStage.advance]
      split
      · split <;> exact spares
      · exact spares
  | generate =>
      simp only [TaskStage.advance]
      split <;> exact spares
  | store body =>
      cases stored : (pass.docs.store task.request.path body).run.run state.tree with
      | mk result tree =>
          cases result with
          | ok written =>
              simp only [TaskStage.advance, Pass.dated, PassState.work, stored]
              trivial
          | error fault =>
              simp only [TaskStage.advance, Pass.dated, PassState.work, stored]
              rcases pass.docs.store_cases stored with ⟨other, -, changes⟩ | ⟨wrong, -⟩
              · exact Changes.trans spares changes.of_none
              · cases wrong
  | remove fault =>
      -- a file in the place of the page has been there from the start
      intro way content
      refine pass.docs.no_file_of_remove (Changes.sound spares sound) plain ?_ content
      exact fun other held => Changes.isDir spares (way other
        (Changes.file_before spares (fun different => different rfl) held))
  | carry prior => exact spares
  | record body => trivial
  | done outcome => exact spares

theorem TaskStage.Spares.of_changes {docs : Docs} {page : String} {start before after : FileTree}
    (changes : Changes (· ≠ docs.placeOf page) before after) {stage : TaskStage}
    (spares : stage.Spares docs page start before) : stage.Spares docs page start after := by
  have absent : (∀ content, before.find? (docs.placeOf page) ≠ some (.file content)) →
      ∀ content, after.find? (docs.placeOf page) ≠ some (.file content) := fun none content held =>
    none content (changes.file_before (fun different => different rfl) held)
  cases stage with
  | done outcome =>
      cases outcome with
      | failed fault => exact fun way => absent (spares way)
      | reused => exact Changes.trans spares changes
      | regenerated => trivial
  | record body => trivial
  | _ => exact Changes.trans spares changes

namespace TaskStage

/-- A task comes to see whether it keeps its page. -/
def looks : TaskStage → Bool
  | load _ | generate => true
  | _ => false

def stores : TaskStage → Bool
  | store _ => true
  | _ => false

variable (pass : Pass) (task : PageTask) (looked found : FileTree)

def storing (body : String) : PageOutcome :=
  match ((pass.docs.store task.request.path body).run.run found).1 with
  | .ok _ => .regenerated
  | .error fault => .failed fault

def making : PageOutcome :=
  match pass.generator task.request with
  | .ok body => storing pass task found body
  | .error fault => .failed fault

/-- How a task comes out that finds one file tree when it looks for its page, and one when it stores
it. -/
def fate : TaskStage → PageOutcome
  | register =>
      match task.kept? pass.docs looked with
      | some _ => .reused
      | none => making pass task found
  | load prior =>
      match pass.docs.load looked task.request.path with
      | .ok text => if Fingerprint.ofText text = prior.contentHash then .reused else making pass task found
      | .error _ => making pass task found
  | carry _ => .reused
  | generate => making pass task found
  | store body => storing pass task found body
  | record _ => .regenerated
  | remove fault => .failed fault
  | done outcome => outcome

theorem fate_afterRegister :
    (afterRegister task).fate pass task looked found = register.fate pass task looked found := by
  rcases afterRegister_cases task with ⟨prior, decided, was, next⟩ | ⟨other, next⟩
  · rw [next]
    cases loaded : pass.docs.load looked task.request.path with
    | error fault => simp only [fate, PageTask.kept?, decided, was, loaded]
    | ok text =>
        simp only [fate, PageTask.kept?, decided, was, loaded]
        by_cases same : Fingerprint.ofText text = prior.contentHash <;> simp [same]
  · have stale : task.kept? pass.docs looked = none := by
      unfold PageTask.kept?
      split
      · next prior decided was => exact absurd was (other prior decided)
      · rfl
    rw [next, fate, fate, stale]

variable {pass task looked found}

/-- A step does not change what a task comes to, when the trees are those that it finds. -/
theorem fate_advance (now : Timestamp) {stage : TaskStage} {state : PassState} {later then_ : FileTree}
    (here : stage.looks = true → looked = state.tree) (still : stage.looks = false → later = looked)
    (there : stage.stores = true → found = state.tree) (kept : stage.stores = false → then_ = found) :
    (stage.advance (pass.dated now) task state).1.fate pass task later then_ =
      stage.fate pass task looked found := by
  cases stage with
  | register => exact still rfl ▸ kept rfl ▸ fate_afterRegister ..
  | load prior =>
      obtain rfl := here rfl
      obtain rfl := kept rfl
      simp only [TaskStage.advance, Pass.dated, fate]
      cases pass.docs.load state.tree task.request.path with
      | error fault => rfl
      | ok text => by_cases same : Fingerprint.ofText text = prior.contentHash <;> simp [same]
  | generate =>
      obtain rfl := kept rfl
      cases generated : pass.generator task.request <;>
        simp only [TaskStage.advance, Pass.dated, generated, fate, making]
  | store body =>
      obtain rfl := there rfl
      cases stored : (pass.docs.store task.request.path body).run.run state.tree with
      | mk result tree =>
          cases result <;> simp only [TaskStage.advance, Pass.dated, PassState.work, stored, fate, storing]
  | _ => rfl

theorem fate_eq_reused_iff :
    register.fate pass task looked found = .reused ↔ task.kept? pass.docs looked ≠ none := by
  cases kept : task.kept? pass.docs looked with
  | some prior => simp [fate, kept]
  | none =>
      simp only [fate, kept, making, storing]
      split
      · split <;> simp
      · simp

theorem fate_eq_regenerated_iff :
    register.fate pass task looked found = .regenerated ↔ task.kept? pass.docs looked = none ∧
      ∃ body, pass.generator task.request = .ok body ∧
        ((pass.docs.store task.request.path body).run.run found).1 = .ok () := by
  cases kept : task.kept? pass.docs looked with
  | some prior => simp [fate, kept]
  | none =>
      cases generated : pass.generator task.request with
      | error fault => simp [fate, kept, making, generated]
      | ok body =>
          cases stored : ((pass.docs.store task.request.path body).run.run found).1 <;>
            simp [fate, kept, making, generated, storing, stored]

theorem fate_eq_failed_iff (fault : Fault) :
    register.fate pass task looked found = .failed fault ↔ task.kept? pass.docs looked = none ∧
      (pass.generator task.request = .error fault ∨
        ∃ body, pass.generator task.request = .ok body ∧
          ((pass.docs.store task.request.path body).run.run found).1 = .error fault) := by
  cases kept : task.kept? pass.docs looked with
  | some prior => simp [fate, kept]
  | none =>
      cases generated : pass.generator task.request with
      | error other => simp [fate, kept, making, generated]
      | ok body =>
          cases stored : ((pass.docs.store task.request.path body).run.run found).1 <;>
            simp [fate, kept, making, generated, storing, stored]

end TaskStage

namespace Pass

variable (pass : Pass)

/-- The file tree that a task finds in its turn when it first comes to a stage of some kind, and the last
one if it does not come to it. -/
def treeWhen (index : Nat) (comes : TaskStage → Bool) : List Turn → Underway → FileTree
  | [], underway => underway.state.tree
  | turn :: rest, underway =>
      if turn.index = index ∧ (underway.tasks[index]?.map Prod.snd).any comes then underway.state.tree
      else treeWhen index comes rest (pass.takeTurn underway turn)

section TreeWhen

variable {underway : Underway} {index : Nat} {task : PageTask} {stage : TaskStage}
  (found : underway.tasks[index]? = some (task, stage))

include found

theorem treeWhen_comes {turn : Turn} (own : turn.index = index) (rest : List Turn)
    {comes : TaskStage → Bool} (here : comes stage = true) :
    pass.treeWhen index comes (turn :: rest) underway = underway.state.tree := by
  rw [treeWhen, if_pos ⟨own, by simp [found, here]⟩]

theorem treeWhen_passes {turn : Turn} (rest : List Turn) {comes : TaskStage → Bool}
    (elsewhere : turn.index = index → comes stage = false) :
    pass.treeWhen index comes (turn :: rest) underway =
      pass.treeWhen index comes rest (pass.takeTurn underway turn) := by
  rw [treeWhen, if_neg]
  rintro ⟨own, here⟩
  simp [found, elsewhere own] at here

/-- A task that is done after some turns has come out by the trees that it has found in them. -/
theorem interleave_fate (turns : List Turn) {outcome : PageOutcome}
    (ended : (pass.interleave turns underway).tasks[index]? = some (task, .done outcome)) :
    stage.fate pass task (pass.treeWhen index TaskStage.looks turns underway)
      (pass.treeWhen index TaskStage.stores turns underway) = outcome := by
  induction turns generalizing underway stage with
  | nil =>
      obtain rfl : stage = .done outcome := by simpa using found.symm.trans ended
      rfl
  | cons turn rest ih =>
      by_cases own : turn.index = index
      · subst own
        rw [← ih (pass.takeTurn_own found).1 ended]
        exact (TaskStage.fate_advance turn.now (fun here => pass.treeWhen_comes found rfl rest here)
          (fun other => (pass.treeWhen_passes found rest fun _ => other).symm)
          (fun here => pass.treeWhen_comes found rfl rest here)
          (fun other => (pass.treeWhen_passes found rest fun _ => other).symm)).symm
      · rw [pass.treeWhen_passes found rest fun same => absurd same own,
          pass.treeWhen_passes found rest fun same => absurd same own]
        exact ih ((pass.takeTurn_other own).trans found) ended

/-- Before a task looks for its page nothing happens in its place. -/
theorem treeWhen_looks_changes (turns : List Turn) (early : stage = .register ∨ stage.looks = true)
    (plain : IsPlain task.request.path)
    (others : ∀ position other, position ≠ index → (underway.tasks.map Prod.fst)[position]? = some other →
      IsPlain other.request.path ∧ other.request.path ≠ task.request.path) :
    Changes (· ≠ pass.docs.placeOf task.request.path) underway.state.tree
      (pass.treeWhen index TaskStage.looks turns underway) := by
  induction turns generalizing underway stage with
  | nil => exact .refl _ _
  | cons turn rest ih =>
      have still := pass.takeTurn_tasks underway turn
      by_cases own : turn.index = index
      · subst own
        rcases early with rfl | here
        · obtain ⟨onward, state⟩ := pass.takeTurn_own found
          have next : (TaskStage.afterRegister task).looks = true := by
            rcases TaskStage.afterRegister_cases task with ⟨prior, -, -, next⟩ | ⟨-, next⟩ <;>
              rw [next] <;> rfl
          rw [pass.treeWhen_passes found rest fun _ => rfl]
          have later := ih onward (Or.inr next) (still ▸ others)
          rwa [state] at later
        · rw [pass.treeWhen_comes found rfl rest here]
          exact .refl _ _
      · rw [pass.treeWhen_passes found rest fun same => absurd same own]
        have later := ih ((pass.takeTurn_other own).trans found) early (still ▸ others)
        rcases pass.takeTurn_cases underway turn with idle | ⟨front, other, phase, back, split, there, turned⟩
        · rwa [idle] at later ⊢
        · obtain ⟨also, apart⟩ := others turn.index other own (by simp [split, ← there])
          refine Changes.trans ?_ later
          rw [turned]
          exact phase.advance_spares (pass.dated turn.now) also plain apart underway.state

end TreeWhen

/-- A task among tasks for different pages comes out by what it finds in its turns. -/
theorem runTasks_told {tasks : List PageTask} (state : PassState)
    (distinct : (tasks.map fun task => task.request.path).Nodup) {index : Nat} {task : PageTask}
    (found : tasks[index]? = some task) (outcome : PageOutcome) :
    (task.request.path, outcome) ∈ (pass.runTasks tasks state).1 ↔
      TaskStage.register.fate pass task
        (pass.treeWhen index TaskStage.looks (pass.allTurns tasks.length) (.start tasks state))
        (pass.treeWhen index TaskStage.stores (pass.allTurns tasks.length) (.start tasks state)) =
          outcome := by
  have start : (Underway.start tasks state).tasks[index]? = some (task, .register) := by
    simp [Underway.start, found]
  obtain ⟨told, ended, listed⟩ := pass.runTasks_done state found
  rw [pass.interleave_fate start _ ended]
  rw [← pass.runTasks_pages tasks state] at distinct
  constructor
  · intro also
    exact congrArg Prod.snd (Table.eq_of_key_eq distinct listed also rfl)
  · rintro rfl
    exact listed

/-- A page is loaded by its task as it was at the start, where it can be reached if it stands. -/
theorem runTasks_loads {tasks : List PageTask} (state : PassState)
    (distinct : (tasks.map fun task => task.request.path).Nodup)
    (plain : ∀ task ∈ tasks, IsPlain task.request.path) {index : Nat} {task : PageTask}
    (found : tasks[index]? = some task) (sound : state.tree.Sound)
    (way : ∀ content, state.tree.find? (pass.docs.placeOf task.request.path) = some (.file content) →
      state.tree.isDir pass.docs.root = true) (turns : List Turn) (text : String) :
    pass.docs.load (pass.treeWhen index TaskStage.looks turns (.start tasks state)) task.request.path =
        .ok text ↔ pass.docs.load state.tree task.request.path = .ok text := by
  have start : (Underway.start tasks state).tasks[index]? = some (task, .register) := by
    simp [Underway.start, found]
  have own := plain task (List.mem_of_getElem? found)
  have changes := pass.treeWhen_looks_changes start turns (Or.inl rfl) own fun position other away there => by
    rw [start_tasks] at there
    exact ⟨plain other (List.mem_of_getElem? there), path_ne_of_position distinct found there away⟩
  constructor
  · intro loaded
    have held := changes.file_before (fun other => other rfl) (pass.docs.file_of_load loaded)
    exact pass.docs.load_of_file sound own (way _ held) held
  · exact pass.docs.load_of_changes changes fun other => other rfl

end Pass

/-- A page and its manifest entry are in step: with an entry the page is on disk and has the recorded
fingerprint, and without one there is no file in its place. -/
def PassState.Settled (docs : Docs) (page : String) (state : PassState) : Prop :=
  match state.recorder.manifest[page]? with
  | some status => ∃ text, docs.load state.tree page = .ok text ∧
      Fingerprint.ofText text = status.contentHash
  | none => ∀ content, state.tree.find? (docs.placeOf page) ≠ some (.file content)

namespace RunReport

theorem mem_pagesWith_iff (outcomes : List (String × PageOutcome)) (outcome : PageOutcome)
    (page : String) : page ∈ pagesWith outcomes outcome ↔ (page, outcome) ∈ outcomes := by
  simp only [pagesWith, List.mem_mergeSort, List.mem_map, List.mem_filter, decide_eq_true_eq]
  constructor
  · rintro ⟨⟨page, outcome⟩, ⟨listed, rfl⟩, rfl⟩
    exact listed
  · exact fun listed => ⟨_, ⟨listed, rfl⟩, rfl⟩

theorem mem_failures_iff (outcomes : List (String × PageOutcome)) (page message : String) :
    (page, message) ∈ failures outcomes ↔
      ∃ fault, (page, PageOutcome.failed fault) ∈ outcomes ∧ fault.message = message := by
  simp only [failures, List.mem_mergeSort, List.mem_filterMap]
  constructor
  · rintro ⟨⟨page, outcome⟩, listed, told⟩
    cases outcome with
    | failed fault =>
        cases told
        exact ⟨fault, listed, rfl⟩
    | regenerated => cases told
    | reused => cases told
  · rintro ⟨fault, listed, rfl⟩
    exact ⟨_, listed, rfl⟩

end RunReport

namespace Pass

variable (pass : Pass)

section Results

variable {tasks : List PageTask} (state : PassState)
  (distinct : (tasks.map fun task => task.request.path).Nodup) {task : PageTask} (member : task ∈ tasks)

include distinct member

/-- Of tasks for different pages each comes to a result, however they take turns; what stands of its
page has to be left standing by the others. -/
theorem runTasks_result (fresh : state.recorder.manifest[task.request.path]? = none)
    (standing : FileTree → String → Prop)
    (shown : ∀ tree text, pass.docs.load tree task.request.path = .ok text → standing tree text)
    (outlasts : ∀ other ∈ tasks, other.request.path ≠ task.request.path → ∀ now stage state text,
      standing state.tree text →
        standing (TaskStage.advance (pass.dated now) other stage state).2.tree text) :
    ∃ outcome, (task.request.path, outcome) ∈ (pass.runTasks tasks state).1 ∧
      TaskResult pass task state.recorder.hashes (standing (pass.runTasks tasks state).2.tree) outcome
        (pass.runTasks tasks state).2.recorder.manifest[task.request.path]? := by
  obtain ⟨outcome, listed, -, progress⟩ := pass.runTasks_task (fun stage later =>
      later.recorder.hashes = state.recorder.hashes ∧
        TaskProgress pass task state.recorder.hashes (standing later.tree) stage
          later.recorder.manifest[task.request.path]?) state distinct member
    (fun now stage later before => by
      obtain ⟨hashes, progress⟩ := before
      exact ⟨(stage.advance_recorder (pass.dated now) task later).1.trans hashes,
        progress.advance shown now hashes⟩)
    (fun other inTasks apart now phase stage later before => by
      obtain ⟨hashes, progress⟩ := before
      obtain ⟨hashesKept, entries⟩ := phase.advance_recorder (pass.dated now) other later
      rw [← entries _ apart.symm] at progress
      exact ⟨hashesKept.trans hashes, progress.mono (outlasts other inTasks apart now phase later)⟩)
    ⟨rfl, fresh ▸ .register⟩
  cases progress with
  | done result => exact ⟨outcome, listed, result⟩

theorem runTasks_entered (fresh : state.recorder.manifest[task.request.path]? = none) :
    ∃ outcome, (task.request.path, outcome) ∈ (pass.runTasks tasks state).1 ∧
      TaskResult pass task state.recorder.hashes (fun _ => True) outcome
        (pass.runTasks tasks state).2.recorder.manifest[task.request.path]? :=
  pass.runTasks_result state distinct member fresh (fun _ _ => True) (fun _ _ _ => trivial)
    fun _ _ _ _ _ _ _ _ => trivial

variable (plain : ∀ task ∈ tasks, IsPlain task.request.path)

include plain

/-- A page that was kept or made is loaded in the end as it was then. -/
theorem runTasks_recorded (fresh : state.recorder.manifest[task.request.path]? = none) :
    ∃ outcome, (task.request.path, outcome) ∈ (pass.runTasks tasks state).1 ∧
      TaskResult pass task state.recorder.hashes
        (fun text => pass.docs.load (pass.runTasks tasks state).2.tree task.request.path = .ok text) outcome
        (pass.runTasks tasks state).2.recorder.manifest[task.request.path]? :=
  pass.runTasks_result state distinct member fresh
    (fun tree text => pass.docs.load tree task.request.path = .ok text) (fun _ _ loaded => loaded)
    fun other inTasks apart now stage later _ loaded =>
      pass.docs.load_of_changes (stage.advance_spares (pass.dated now) (plain other inTasks)
        (plain task member) apart later) (fun different => different rfl) loaded

theorem runTasks_spares (sound : state.tree.Sound) :
    ∃ outcome, (task.request.path, outcome) ∈ (pass.runTasks tasks state).1 ∧
      (TaskStage.done outcome).Spares pass.docs task.request.path state.tree
        (pass.runTasks tasks state).2.tree :=
  pass.runTasks_task
    (fun stage later => stage.Spares pass.docs task.request.path state.tree later.tree) state distinct member
    (fun now _ _ spares => spares.advance sound (plain task member) now)
    (fun other inTasks apart now phase _ later spares => spares.of_changes
      (phase.advance_spares (pass.dated now) (plain other inTasks) (plain task member) apart later))
    (.refl _ _)

/-- After a run from an empty manifest every page is in step with its entry. -/
theorem runTasks_settled (sound : state.tree.Sound)
    (fresh : state.recorder.manifest[task.request.path]? = none)
    (way : ∀ content, state.tree.find? (pass.docs.placeOf task.request.path) =
      some (.file content) → state.tree.isDir pass.docs.root = true) :
    (pass.runTasks tasks state).2.Settled pass.docs task.request.path := by
  obtain ⟨outcome, listed, result⟩ := pass.runTasks_recorded state distinct member plain fresh
  obtain ⟨other, also, spares⟩ := pass.runTasks_spares state distinct member plain sound
  have pages := pass.runTasks_pages tasks state
  obtain rfl : outcome = other := congrArg Prod.snd (Table.eq_of_key_eq (pages ▸ distinct) listed also rfl)
  unfold PassState.Settled
  generalize (pass.runTasks tasks state).2.recorder.manifest[task.request.path]? = entry at result
  cases result with
  | kept prior text decided was loaded hashed => exact ⟨text, loaded, hashed⟩
  | made body now generated loaded => exact ⟨body, loaded, rfl⟩
  | failed fault => exact spares way

end Results

end Pass

end SourceAtlas
