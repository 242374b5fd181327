import SourceAtlas.Pass
import SourceAtlas.Proofs.CrossReferences
import SourceAtlas.Proofs.Docs
/-!
Tasks that take turns. What every single step keeps to, the tasks keep to together, in whatever order
they take their steps; and with the turns that a pass has for them all of them are done.
-/

namespace SourceAtlas

open FileTree

namespace TaskStage

theorem eq_done_of_outcome {stage : TaskStage} {outcome : PageOutcome}
    (ended : stage.outcome? = some outcome) : stage = done outcome := by
  cases stage with
  | done other =>
      cases ended
      rfl
  | _ => cases ended

variable (pass : Pass) (task : PageTask)

theorem afterRegister_cases :
    (∃ prior, task.decision = .reusable ∧ task.prior = some prior ∧ afterRegister task = load prior) ∨
      ((∀ prior, task.decision = .reusable → task.prior ≠ some prior) ∧
        afterRegister task = generate) := by
  unfold afterRegister
  split
  · next prior decided was => exact Or.inl ⟨prior, decided, was, rfl⟩
  · next other => exact Or.inr ⟨other, rfl⟩

theorem stepsLeft_advance (stage : TaskStage) (state : PassState) :
    (stage.advance pass task state).1.stepsLeft ≤ stage.stepsLeft - 1 := by
  cases stage with
  | register =>
      simp only [advance]
      rcases afterRegister_cases task with ⟨prior, -, -, next⟩ | ⟨-, next⟩ <;> simp [next, stepsLeft]
  | load prior =>
      simp only [advance]
      split
      · split <;> simp [stepsLeft]
      · simp [stepsLeft]
  | generate =>
      simp only [advance]
      split <;> simp [stepsLeft]
  | store body =>
      simp only [advance]
      split <;> simp [stepsLeft]
  | _ => exact Nat.le_refl _

/-- A step registers its page or leaves the cross references alone. -/
theorem advance_references {stage : TaskStage} (other : stage ≠ register) (state : PassState) :
    (stage.advance pass task state).1 ≠ register ∧
      (stage.advance pass task state).2.references = state.references := by
  cases stage with
  | register => exact absurd rfl other
  | load prior =>
      simp only [advance]
      split
      · split <;> simp
      · simp
  | generate =>
      simp only [advance]
      split <;> simp
  | store body =>
      cases ran : (pass.docs.store task.request.path body).run.run state.tree with
      | mk result tree => cases result <;> simp [advance, PassState.work, ran]
  | _ => exact ⟨nofun, rfl⟩

theorem advance_changes (stage : TaskStage) (state : PassState) :
    Changes (· = pass.docs.placeOf task.request.path) state.tree
      (stage.advance pass task state).2.tree := by
  cases stage with
  | load prior =>
      simp only [advance]
      split <;> exact .refl _ _
  | generate =>
      simp only [advance]
      split <;> exact .refl _ _
  | store body =>
      have changes := pass.docs.store_changes task.request.path body state.tree
      cases ran : (pass.docs.store task.request.path body).run.run state.tree with
      | mk result tree =>
          rw [ran] at changes
          cases result <;> simp only [advance, PassState.work, ran] <;> exact changes
  | remove fault => exact pass.docs.remove_changes _ _
  | _ => exact .refl _ _

/-- A step leaves the fingerprints of the sources and the manifest entries of other pages alone. -/
theorem advance_recorder (stage : TaskStage) (state : PassState) :
    (stage.advance pass task state).2.recorder.hashes = state.recorder.hashes ∧
      ∀ page, page ≠ task.request.path →
        (stage.advance pass task state).2.recorder.manifest[page]? = state.recorder.manifest[page]? := by
  cases stage with
  | load prior =>
      simp only [advance]
      split <;> exact ⟨rfl, fun _ _ => rfl⟩
  | generate =>
      simp only [advance]
      split <;> exact ⟨rfl, fun _ _ => rfl⟩
  | store body =>
      cases ran : (pass.docs.store task.request.path body).run.run state.tree with
      | mk result tree => cases result <;> simp [advance, PassState.work, ran]
  | carry prior =>
      exact ⟨rfl, fun page other => by
        simp [advance, Recorder.carry, Std.ExtTreeMap.getElem?_insert, Ne.symm other]⟩
  | record body =>
      exact ⟨rfl, fun page other => by
        simp [advance, Recorder.record, Std.ExtTreeMap.getElem?_insert, Ne.symm other]⟩
  | _ => exact ⟨rfl, fun _ _ => rfl⟩

end TaskStage

namespace Underway

def Ended (underway : Underway) : Prop :=
  ∀ entry ∈ underway.tasks, entry.2.outcome?.isSome

instance (underway : Underway) : Decidable underway.Ended :=
  inferInstanceAs (Decidable (∀ entry ∈ underway.tasks, entry.2.outcome?.isSome))

/-- When all tasks are done there is one outcome for each, in their order. -/
theorem outcomes_pages {underway : Underway} (ended : underway.Ended) :
    underway.outcomes.map Prod.fst = underway.tasks.map fun entry => entry.1.request.path := by
  obtain ⟨tasks, state⟩ := underway
  induction tasks with
  | nil => rfl
  | cons entry rest ih =>
      obtain ⟨task, stage⟩ := entry
      obtain ⟨outcome, told⟩ := Option.isSome_iff_exists.mp (ended _ (List.mem_cons_self ..))
      have later := ih fun entry inRest => ended entry (List.mem_cons_of_mem _ inRest)
      simp only [outcomes] at told later ⊢
      rw [List.filterMap_cons, told, Option.map_some, List.map_cons, List.map_cons, later]

end Underway

namespace Pass

variable (pass : Pass)

theorem takeTurn_missing {underway : Underway} {turn : Turn}
    (missing : underway.tasks[turn.index]? = none) : pass.takeTurn underway turn = underway := by
  simp only [takeTurn, missing]

theorem takeTurn_split {front back : List (PageTask × TaskStage)} {turn : Turn}
    (there : front.length = turn.index) (task : PageTask) (stage : TaskStage) (state : PassState) :
    pass.takeTurn ⟨front ++ (task, stage) :: back, state⟩ turn =
      ⟨front ++ (task, (stage.advance (pass.dated turn.now) task state).1) :: back,
        (stage.advance (pass.dated turn.now) task state).2⟩ := by
  simp [takeTurn, ← there]

/-- A turn either finds no task, or one with others before and behind it. -/
theorem turn_cases (tasks : List (PageTask × TaskStage)) (index : Nat) :
    tasks[index]? = none ∨
      ∃ front task stage back, tasks = front ++ (task, stage) :: back ∧ front.length = index := by
  rcases Nat.lt_or_ge index tasks.length with bound | beyond
  · refine Or.inr ⟨tasks.take index, tasks[index].1, tasks[index].2, tasks.drop (index + 1), ?_,
      List.length_take_of_le (Nat.le_of_lt bound)⟩
    rw [Prod.eta, List.getElem_cons_drop, List.take_append_drop]
  · exact Or.inl (List.getElem?_eq_none beyond)

theorem takeTurn_cases (underway : Underway) (turn : Turn) :
    pass.takeTurn underway turn = underway ∨
      ∃ front task stage back, underway.tasks = front ++ (task, stage) :: back ∧
        front.length = turn.index ∧
        pass.takeTurn underway turn =
          { tasks := front ++
              (task, (stage.advance (pass.dated turn.now) task underway.state).1) :: back
            state := (stage.advance (pass.dated turn.now) task underway.state).2 } := by
  obtain ⟨tasks, state⟩ := underway
  rcases turn_cases tasks turn.index with missing | ⟨front, task, stage, back, rfl, there⟩
  · exact Or.inl (pass.takeTurn_missing missing)
  · exact Or.inr ⟨front, task, stage, back, rfl, there, pass.takeTurn_split there task stage state⟩

theorem takeTurn_tasks (underway : Underway) (turn : Turn) :
    (pass.takeTurn underway turn).tasks.map Prod.fst = underway.tasks.map Prod.fst := by
  rcases pass.takeTurn_cases underway turn with same | ⟨front, task, stage, back, split, -, turned⟩
  · rw [same]
  · rw [turned, split]
    simp

theorem interleave_tasks (turns : List Turn) (underway : Underway) :
    (pass.interleave turns underway).tasks.map Prod.fst = underway.tasks.map Prod.fst := by
  induction turns generalizing underway with
  | nil => rfl
  | cons turn rest ih => exact (ih _).trans (pass.takeTurn_tasks underway turn)

/-- What holds of the shared state and is kept by every step of every task holds after any turns. -/
theorem interleave_state (holds : PassState → Prop) (turns : List Turn) {underway : Underway}
    (step : ∀ task ∈ underway.tasks.map Prod.fst, ∀ now stage state, holds state →
      holds (TaskStage.advance (pass.dated now) task stage state).2)
    (before : holds underway.state) : holds (pass.interleave turns underway).state := by
  induction turns generalizing underway with
  | nil => exact before
  | cons turn rest ih =>
      apply ih
      · rw [pass.takeTurn_tasks]
        exact step
      · rcases pass.takeTurn_cases underway turn with same | ⟨front, task, stage, back, split, -, turned⟩
        · rwa [same]
        · rw [turned]
          exact step task (by simp [split]) turn.now stage underway.state before

theorem takeTurn_own {underway : Underway} {turn : Turn} {task : PageTask} {stage : TaskStage}
    (found : underway.tasks[turn.index]? = some (task, stage)) :
    (pass.takeTurn underway turn).tasks[turn.index]? =
        some (task, (stage.advance (pass.dated turn.now) task underway.state).1) ∧
      (pass.takeTurn underway turn).state = (stage.advance (pass.dated turn.now) task underway.state).2 := by
  obtain ⟨bound, -⟩ := List.getElem?_eq_some_iff.mp found
  simp only [takeTurn, found, List.getElem?_set_self bound, and_self]

theorem takeTurn_other {underway : Underway} {turn : Turn} {index : Nat} (other : turn.index ≠ index) :
    (pass.takeTurn underway turn).tasks[index]? = underway.tasks[index]? := by
  unfold takeTurn
  split
  · exact List.getElem?_set_ne other
  · rfl

/-- What a task holds to at its stages, and the other tasks do not upset, holds after any turns. -/
theorem interleave_task (holds : TaskStage → PassState → Prop) (turns : List Turn)
    {underway : Underway} {index : Nat} {task : PageTask} {stage : TaskStage}
    (found : underway.tasks[index]? = some (task, stage))
    (own : ∀ now stage state, holds stage state →
      holds (stage.advance (pass.dated now) task state).1 (stage.advance (pass.dated now) task state).2)
    (others : ∀ position other, position ≠ index → (underway.tasks.map Prod.fst)[position]? = some other →
      ∀ now phase stage state, holds stage state →
        holds stage (TaskStage.advance (pass.dated now) other phase state).2)
    (before : holds stage underway.state) :
    ∃ reached, (pass.interleave turns underway).tasks[index]? = some (task, reached) ∧
      holds reached (pass.interleave turns underway).state := by
  induction turns generalizing underway stage with
  | nil => exact ⟨stage, found, before⟩
  | cons turn rest ih =>
      have still := pass.takeTurn_tasks underway turn
      by_cases same : turn.index = index
      · subst same
        obtain ⟨onward, state⟩ := pass.takeTurn_own found
        exact ih onward (still ▸ others) (state ▸ own turn.now stage underway.state before)
      · refine ih ((pass.takeTurn_other same).trans found) (still ▸ others) ?_
        rcases pass.takeTurn_cases underway turn with idle | ⟨front, other, phase, back, split, there, turned⟩
        · rwa [idle]
        · rw [turned]
          refine others turn.index other same ?_ turn.now phase stage underway.state before
          simp [split, ← there]

/-- Tasks that are given as many turns as they have steps left are done after them. -/
theorem interleave_ended (turns : List Turn) {underway : Underway}
    (enough : ∀ index entry, underway.tasks[index]? = some entry →
      entry.2.stepsLeft ≤ turns.countP fun turn => turn.index = index) :
    (pass.interleave turns underway).Ended := by
  induction turns generalizing underway with
  | nil =>
      intro entry member
      obtain ⟨index, found⟩ := List.mem_iff_getElem?.mp member
      have none := enough index entry found
      revert none
      cases entry.2 <;> simp [TaskStage.stepsLeft, TaskStage.outcome?]
  | cons turn rest ih =>
      apply ih
      intro index entry found
      -- a turn takes a step off the task whose turn it is and leaves the others theirs
      unfold takeTurn at found
      split at found
      · next task stage here =>
          rw [List.getElem?_set] at found
          split at found
          · next same =>
              have given := enough turn.index _ here
              have less := stage.stepsLeft_advance (pass.dated turn.now) task underway.state
              subst same
              obtain ⟨-, set⟩ := Option.ite_none_right_eq_some.mp found
              obtain rfl := Option.some.inj set
              simp only [List.countP_cons, decide_true, if_true] at given
              dsimp only
              omega
          · next other => simpa [List.countP_cons, other] using enough index entry found
      · next missing =>
          have given := enough index entry found
          by_cases same : turn.index = index
          · rw [same, found] at missing
            cases missing
          · simpa [same] using given

theorem allTurns_ended (tasks : List PageTask) (state : PassState) :
    (pass.interleave (pass.allTurns tasks.length) (.start tasks state)).Ended := by
  apply pass.interleave_ended
  intro index entry found
  obtain ⟨bound, fresh⟩ := List.getElem?_eq_some_iff.mp found
  simp only [Underway.start, List.length_map, List.getElem_map] at bound fresh
  -- the turns that come last have all of a task's steps for each
  have own : List.replicate TaskStage.register.stepsLeft ⟨index, pass.now⟩ ∈
      (List.range tasks.length).map fun index =>
        List.replicate TaskStage.register.stepsLeft (⟨index, pass.now⟩ : Turn) :=
    List.mem_map_of_mem (List.mem_range.mpr bound)
  have count : (List.replicate TaskStage.register.stepsLeft (⟨index, pass.now⟩ : Turn)).countP
      (fun turn => turn.index = index) ≤ _ := (List.sublist_flatten_of_mem own).countP_le
  rw [List.countP_replicate, if_pos (by simp)] at count
  rw [← fresh, allTurns, List.countP_append]
  exact Nat.le_add_left_of_le count

theorem runTasks_pages (tasks : List PageTask) (state : PassState) :
    (pass.runTasks tasks state).1.map Prod.fst = tasks.map fun task => task.request.path := by
  have kept := pass.interleave_tasks (pass.allTurns tasks.length) (.start tasks state)
  have pages := congrArg (List.map fun task => task.request.path) kept
  rw [List.map_map, List.map_map] at pages
  simp only [runTasks]
  rw [Underway.outcomes_pages (pass.allTurns_ended tasks state)]
  refine pages.trans ?_
  simp [Underway.start, Function.comp_def]

/-- Where tasks are for different pages, two positions are of two pages. -/
theorem path_ne_of_position {tasks : List PageTask}
    (distinct : (tasks.map fun task => task.request.path).Nodup) {index position : Nat}
    {task other : PageTask} (found : tasks[index]? = some task) (there : tasks[position]? = some other)
    (away : position ≠ index) : other.request.path ≠ task.request.path := by
  intro same
  obtain ⟨bound, -⟩ := List.getElem?_eq_some_iff.mp there
  apply away
  apply (List.getElem?_inj (by simpa using bound) distinct).mp
  rw [List.getElem?_map, List.getElem?_map, there, found, Option.map_some, Option.map_some, same]

theorem start_tasks (tasks : List PageTask) (state : PassState) :
    (Underway.start tasks state).tasks.map Prod.fst = tasks := by
  simp [Underway.start, Function.comp_def]

/-- With all turns taken every task is done, and its outcome is told. -/
theorem runTasks_done {tasks : List PageTask} (state : PassState) {index : Nat} {task : PageTask}
    (found : tasks[index]? = some task) :
    ∃ outcome, (pass.interleave (pass.allTurns tasks.length) (.start tasks state)).tasks[index]? =
        some (task, .done outcome) ∧
      (task.request.path, outcome) ∈ (pass.runTasks tasks state).1 := by
  have same := congrArg (·[index]?) (pass.interleave_tasks (pass.allTurns tasks.length) (.start tasks state))
  simp only [start_tasks, List.getElem?_map, found] at same
  obtain ⟨⟨_, stage⟩, reached, rfl⟩ := Option.map_eq_some_iff.mp same
  obtain ⟨outcome, told⟩ := Option.isSome_iff_exists.mp
    (pass.allTurns_ended tasks state _ (List.mem_of_getElem? reached))
  obtain rfl := TaskStage.eq_done_of_outcome told
  exact ⟨outcome, reached, List.mem_filterMap.mpr ⟨_, List.mem_of_getElem? reached, rfl⟩⟩

/-- What a task holds to among tasks for different pages it holds to in the end, when it is done. -/
theorem runTasks_task (holds : TaskStage → PassState → Prop) {tasks : List PageTask} (state : PassState)
    (distinct : (tasks.map fun task => task.request.path).Nodup) {task : PageTask} (member : task ∈ tasks)
    (own : ∀ now stage state, holds stage state →
      holds (stage.advance (pass.dated now) task state).1 (stage.advance (pass.dated now) task state).2)
    (others : ∀ other ∈ tasks, other.request.path ≠ task.request.path →
      ∀ now phase stage state, holds stage state →
        holds stage (TaskStage.advance (pass.dated now) other phase state).2)
    (before : holds .register state) :
    ∃ outcome, (task.request.path, outcome) ∈ (pass.runTasks tasks state).1 ∧
      holds (.done outcome) (pass.runTasks tasks state).2 := by
  obtain ⟨index, found⟩ := List.mem_iff_getElem?.mp member
  have start : (Underway.start tasks state).tasks[index]? = some (task, .register) := by
    simp [Underway.start, found]
  obtain ⟨stage, reached, after⟩ := pass.interleave_task holds (pass.allTurns tasks.length) start own
    (fun position other away there => by
      rw [start_tasks] at there
      exact others other (List.mem_of_getElem? there) (path_ne_of_position distinct found there away))
    before
  obtain ⟨outcome, ended, listed⟩ := pass.runTasks_done state found
  rw [ended, Option.some_inj, Prod.mk.injEq] at reached
  exact ⟨outcome, listed, reached.2 ▸ after⟩

section State

variable (turns : List Turn) (tasks : List PageTask) (state : PassState)

theorem interleave_changes : Changes (fun place => ∃ task ∈ tasks, place = pass.docs.placeOf task.request.path)
    state.tree (pass.interleave turns (.start tasks state)).state.tree := by
  refine pass.interleave_state (fun later => Changes _ state.tree later.tree) turns ?_ (.refl _ _)
  intro task member now stage middle changes
  have own := stage.advance_changes (pass.dated now) task middle
  refine changes.trans (own.mono ?_)
  rintro place rfl
  exact ⟨task, by simpa [Underway.start, Function.comp_def] using member, rfl⟩

theorem interleave_entry (page : String) (other : ∀ task ∈ tasks, page ≠ task.request.path) :
    (pass.interleave turns (.start tasks state)).state.recorder.manifest[page]? =
      state.recorder.manifest[page]? := by
  refine pass.interleave_state
    (fun later => later.recorder.manifest[page]? = state.recorder.manifest[page]?) turns ?_ rfl
  intro task member now stage middle same
  have away := other task (by simpa [Underway.start, Function.comp_def] using member)
  exact ((stage.advance_recorder (pass.dated now) task middle).2 page away).trans same

theorem runTasks_changes :
    Changes (fun place => ∃ task ∈ tasks, place = pass.docs.placeOf task.request.path) state.tree
      (pass.runTasks tasks state).2.tree :=
  pass.interleave_changes _ tasks state

theorem runTasks_entry (page : String) (other : ∀ task ∈ tasks, page ≠ task.request.path) :
    (pass.runTasks tasks state).2.recorder.manifest[page]? = state.recorder.manifest[page]? :=
  pass.interleave_entry _ tasks state page other

end State

def registerAll (references : CrossReferences) (tasks : List PageTask) : CrossReferences :=
  tasks.foldl (fun references task => references.register task.request.path task.request.entities)
    references

theorem registerAll_taskFor (references : CrossReferences) (previous : Option Manifest)
    (hashes : FileHashes) (requests : List PageRequest) :
    registerAll references (requests.map (taskFor previous hashes)) =
      requests.foldl (fun references request => references.register request.path request.entities)
        references := by
  rw [registerAll, List.foldl_map]
  rfl

/-- Pages are registered in any order. -/
theorem registerAll_middle (references : CrossReferences) (front back : List PageTask)
    (task : PageTask) : registerAll references (front ++ task :: back) =
      (registerAll references (front ++ back)).register task.request.path task.request.entities := by
  have commutes : RightCommutative fun (references : CrossReferences) (task : PageTask) =>
      references.register task.request.path task.request.entities :=
    ⟨fun _ _ _ => CrossReferences.register_comm ..⟩
  have last : (front ++ task :: back).Perm ((front ++ back) ++ [task]) :=
    List.perm_middle.trans (List.perm_append_singleton task _).symm
  unfold registerAll
  rw [last.foldl_eq references, List.foldl_append]
  rfl

/-- The tasks that have registered their pages. -/
def registered (entries : List (PageTask × TaskStage)) : List PageTask :=
  entries.filterMap fun (task, stage) =>
    match stage with
    | .register => none
    | _ => some task

theorem registered_append (front back : List (PageTask × TaskStage)) :
    registered (front ++ back) = registered front ++ registered back :=
  List.filterMap_append

theorem registered_cons (task : PageTask) {stage : TaskStage} (other : stage ≠ .register)
    (rest : List (PageTask × TaskStage)) :
    registered ((task, stage) :: rest) = task :: registered rest := by
  cases stage with
  | register => exact absurd rfl other
  | _ => rfl

theorem takeTurn_references (references : CrossReferences) (underway : Underway) (turn : Turn)
    (same : underway.state.references = registerAll references (registered underway.tasks)) :
    (pass.takeTurn underway turn).state.references =
      registerAll references (registered (pass.takeTurn underway turn).tasks) := by
  rcases pass.takeTurn_cases underway turn with still | ⟨front, task, stage, back, split, -, turned⟩
  · rw [still, same]
  · rw [split, registered_append] at same
    rw [turned, registered_append]
    by_cases first : stage = .register
    · subst first
      have onward : TaskStage.afterRegister task ≠ .register := by
        rcases TaskStage.afterRegister_cases task with ⟨prior, -, -, next⟩ | ⟨-, next⟩ <;> simp [next]
      simp only [TaskStage.advance]
      rw [registered_cons task onward, registerAll_middle, same]
      rfl
    · obtain ⟨onward, kept⟩ := TaskStage.advance_references (pass.dated turn.now) task first underway.state
      rw [registered_cons task first] at same
      simp only [kept]
      rw [registered_cons task onward, same]

/-- At any time the pages of those tasks are registered that have had a turn. -/
theorem interleave_references (turns : List Turn) (references : CrossReferences) {underway : Underway}
    (same : underway.state.references = registerAll references (registered underway.tasks)) :
    (pass.interleave turns underway).state.references =
      registerAll references (registered (pass.interleave turns underway).tasks) := by
  induction turns generalizing underway with
  | nil => exact same
  | cons turn rest ih => exact ih (pass.takeTurn_references references underway turn same)

theorem registered_of_ended {underway : Underway} (ended : underway.Ended) :
    registered underway.tasks = underway.tasks.map Prod.fst := by
  obtain ⟨tasks, state⟩ := underway
  induction tasks with
  | nil => rfl
  | cons entry rest ih =>
      obtain ⟨task, stage⟩ := entry
      have done := ended _ (List.mem_cons_self ..)
      have other : stage ≠ .register := by
        rintro rfl
        cases done
      rw [registered_cons task other, List.map_cons,
        ih fun entry inRest => ended entry (List.mem_cons_of_mem _ inRest)]

/-- Every task registers its entities, however it comes out. -/
theorem runTasks_references (tasks : List PageTask) (state : PassState) :
    (pass.runTasks tasks state).2.references = registerAll state.references tasks := by
  have first : (Underway.start tasks state).state.references =
      registerAll state.references (registered (Underway.start tasks state).tasks) := by
    have none : registered (Underway.start tasks state).tasks = [] := by
      simp [registered, Underway.start, List.filterMap_map]
    rw [none]
    rfl
  have all := pass.interleave_references (pass.allTurns tasks.length) state.references first
  rw [registered_of_ended (pass.allTurns_ended tasks state), pass.interleave_tasks] at all
  rwa [start_tasks] at all

end Pass

end SourceAtlas
