import SourceAtlas.Proofs.OpenWays
import SourceAtlas.Proofs.Turns
/-!
Passes over a docs directory that is not there. Where it can be made, the first page that is stored makes
it, and no page can be found before; so tasks go the same way as if it had been made before the first of
them. Where it cannot be made, no page is found or stored, and all of them fail.
-/

namespace SourceAtlas

open FileTree

/-- A task stores its page with a change, also when it then fails to store the page. -/
def PageTask.Makes (pass : Pass) (tree : FileTree) (task : PageTask) : Prop :=
  ∃ body, pass.generator task.request = .ok body ∧
    ((pass.docs.store task.request.path body).run.run tree).2 ≠ tree

namespace TaskStage

/-- A task has come past storing its page. -/
def past : TaskStage → Bool
  | register | load _ | generate | store _ => false
  | _ => true

theorem past_advance (pass : Pass) (task : PageTask) {stage : TaskStage} (past : stage.past = true)
    (state : PassState) : (stage.advance pass task state).1.past = true := by
  cases stage with
  | register => cases past
  | load prior => cases past
  | generate => cases past
  | store body => cases past
  | _ => rfl

theorem store_of_advance {pass : Pass} {now : Timestamp} {task : PageTask} {stage : TaskStage}
    {state : PassState} {body : String} (next : (stage.advance (pass.dated now) task state).1 = store body) :
    pass.generator task.request = .ok body := by
  cases stage with
  | register =>
      rcases afterRegister_cases task with ⟨prior, -, -, onward⟩ | ⟨-, onward⟩ <;>
        simp [advance, onward] at next
  | load prior =>
      simp only [advance] at next
      split at next
      · split at next <;> cases next
      · cases next
  | generate =>
      simp only [advance] at next
      split at next
      · next made => exact made.trans (by cases next; rfl)
      · cases next
  | store other =>
      cases ran : (pass.docs.store task.request.path other).run.run state.tree with
      | mk result tree => cases result <;> simp [advance, Pass.dated, PassState.work, ran] at next
  | _ => cases next

end TaskStage

/-- States before and after the docs directory is made: once a page is stored with a change there is no
difference any more. -/
inductive PassState.Abreast (tree opened : FileTree) (stored : Prop) (left right : PassState) : Prop
  | before (none : ¬ stored) (there : left.tree = tree) (opens : right = { left with tree := opened })
  | after (stored : stored) (same : right = left)

namespace PassState.Abreast

variable {tree opened : FileTree} {stored : Prop} {left right : PassState}
  (abreast : left.Abreast tree opened stored right)

include abreast

theorem recorder : right.recorder = left.recorder := by
  cases abreast with
  | before none there opens => rw [opens]
  | after stored same => rw [same]

theorem file_iff (changes : Changes (fun _ => False) tree opened) (place : Place) (content : ByteArray) :
    left.tree.find? place = some (.file content) ↔ right.tree.find? place = some (.file content) := by
  cases abreast with
  | before none there opens =>
      rw [opens, there]
      exact ⟨changes.file not_false, changes.file_before not_false⟩
  | after stored same => rw [same]

end PassState.Abreast

/-- Tasks under way from a tree without the docs directory, beside the same tasks from the tree in which
it has been made. -/
structure Underway.Abreast (pass : Pass) (tree opened : FileTree) (left right : Underway) : Prop where
  tasks : right.tasks = left.tasks
  bodies : ∀ entry ∈ left.tasks, ∀ body, entry.2 = .store body →
    pass.generator entry.1.request = .ok body
  state : PassState.Abreast tree opened
    (∃ entry ∈ left.tasks, entry.2.past = true ∧ entry.1.Makes pass tree) left.state right.state

namespace Pass

variable {pass : Pass} {tree opened : FileTree} (opening : Opening pass.docs.root tree opened)

include opening

/-- Storing a page that goes as in the tree with the docs directory leaves the docs directory. -/
theorem store_ne_of_opening {page body : String}
    (same : (pass.docs.store page body).run.run tree = (pass.docs.store page body).run.run opened) :
    ((pass.docs.store page body).run.run tree).2 ≠ tree := by
  intro still
  have there := (pass.docs.store_changes page body opened).dirs _ opening.dir_opened
  rw [← same, still, opening.absent] at there
  cases there

/-- A step before the docs directory is made, beside the same step after. -/
theorem advance_opening {task : PageTask} (plain : IsPlain task.request.path) (now : Timestamp)
    {stage : TaskStage} (body : ∀ body, stage = .store body → pass.generator task.request = .ok body)
    {state : PassState} (there : state.tree = tree)
    (none : ¬ (stage.past = true ∧ task.Makes pass tree)) :
    (stage.advance (pass.dated now) task { state with tree := opened }).1 =
        (stage.advance (pass.dated now) task state).1 ∧
      PassState.Abreast tree opened
        ((stage.advance (pass.dated now) task state).1.past = true ∧ task.Makes pass tree)
        (stage.advance (pass.dated now) task state).2
        (stage.advance (pass.dated now) task { state with tree := opened }).2 := by
  subst there
  cases stage with
  | register =>
      refine ⟨rfl, .before (fun stored => ?_) rfl rfl⟩
      rcases TaskStage.afterRegister_cases task with ⟨prior, -, -, next⟩ | ⟨-, next⟩ <;>
        simp [TaskStage.advance, next, TaskStage.past] at stored
  | load prior =>
      have failed : ∀ text, pass.docs.load state.tree task.request.path ≠ .ok text ∧
          pass.docs.load opened task.request.path ≠ .ok text := pass.docs.load_opening opening
      cases loaded : pass.docs.load state.tree task.request.path with
      | ok text => exact absurd loaded (failed text).1
      | error fault =>
          cases again : pass.docs.load opened task.request.path with
          | ok text => exact absurd again (failed text).2
          | error other =>
              simp only [TaskStage.advance, dated, loaded, again]
              exact ⟨trivial, .before (fun stored => Bool.false_ne_true stored.1) rfl rfl⟩
  | generate =>
      cases made : pass.generator task.request with
      | ok text =>
          simp only [TaskStage.advance, dated, made]
          exact ⟨trivial, .before (fun stored => Bool.false_ne_true stored.1) rfl rfl⟩
      | error fault =>
          simp only [TaskStage.advance, dated, made]
          refine ⟨trivial, .before (fun stored => ?_) rfl rfl⟩
          obtain ⟨-, text, generated, -⟩ := stored
          rw [made] at generated
          cases generated
  | store text =>
      have generated := body text rfl
      rcases pass.docs.store_opening opening plain text with same | ⟨fault, stuck, also⟩
      · have makes : task.Makes pass state.tree := ⟨text, generated, store_ne_of_opening opening same⟩
        cases ran : (pass.docs.store task.request.path text).run.run opened with
        | mk result after =>
            rw [ran] at same
            cases result <;> simp only [TaskStage.advance, dated, PassState.work, same, ran] <;>
              exact ⟨trivial, .after ⟨rfl, makes⟩ rfl⟩
      · simp only [TaskStage.advance, dated, PassState.work, stuck, also]
        refine ⟨trivial, .before (fun stored => ?_) rfl rfl⟩
        obtain ⟨-, other, again, changed⟩ := stored
        cases generated.symm.trans again
        rw [stuck] at changed
        exact changed rfl
  | remove fault =>
      obtain ⟨here, again⟩ := pass.docs.remove_opening opening task.request.path
      exact ⟨rfl, .before none here (congrArg (fun tree => { state with tree }) again)⟩
  | carry prior => exact ⟨rfl, .before none rfl rfl⟩
  | record text => exact ⟨rfl, .before none rfl rfl⟩
  | done outcome => exact ⟨rfl, .before none rfl rfl⟩

theorem takeTurn_opening {left right : Underway}
    (plain : ∀ task ∈ left.tasks.map Prod.fst, IsPlain task.request.path)
    (abreast : left.Abreast pass tree opened right) (turn : Turn) :
    (pass.takeTurn left turn).Abreast pass tree opened (pass.takeTurn right turn) := by
  obtain ⟨_, state⟩ := left
  obtain ⟨tasks, other⟩ := right
  obtain ⟨rfl, bodies, states⟩ := abreast
  rcases turn_cases tasks turn.index with missing | ⟨front, task, stage, back, rfl, there⟩
  · rw [pass.takeTurn_missing missing, pass.takeTurn_missing missing]
    exact ⟨rfl, bodies, states⟩
  rw [pass.takeTurn_split there, pass.takeTurn_split there]
  have ordinary := plain task (by simp)
  simp only [List.forall_mem_append, List.forall_mem_cons] at bodies
  obtain ⟨before, body, behind⟩ := bodies
  have onward : ∀ entry ∈ front ++
      (task, (stage.advance (pass.dated turn.now) task state).1) :: back, ∀ body,
        entry.2 = .store body → pass.generator entry.1.request = .ok body := by
    simp only [List.forall_mem_append, List.forall_mem_cons]
    exact ⟨before, fun _ => TaskStage.store_of_advance, behind⟩
  have exists_iff : ∀ stage, (∃ entry ∈ front ++ (task, stage) :: back,
      entry.2.past = true ∧ entry.1.Makes pass tree) ↔
        (stage.past = true ∧ task.Makes pass tree) ∨
          ∃ entry ∈ front ++ back, entry.2.past = true ∧ entry.1.Makes pass tree := by
    simp [List.perm_middle.mem_iff]
  simp only [exists_iff] at states
  cases states with
  | before none there opens =>
      obtain ⟨own, others⟩ := not_or.mp none
      obtain ⟨next, after⟩ := advance_opening opening ordinary turn.now body there own
      subst opens
      refine ⟨by rw [next], onward, ?_⟩
      cases after with
      | before none there opens =>
          exact .before (fun stored => ((exists_iff _).mp stored).elim none others) there opens
      | after stored same => exact .after ((exists_iff _).mpr (Or.inl stored)) same
  | after stored same =>
      subst same
      refine ⟨rfl, onward, .after ((exists_iff _).mpr (stored.imp_left fun own => ?_)) rfl⟩
      exact ⟨TaskStage.past_advance (pass.dated turn.now) task own.1 _, own.2⟩

theorem interleave_opening (turns : List Turn) {left right : Underway}
    (plain : ∀ task ∈ left.tasks.map Prod.fst, IsPlain task.request.path)
    (abreast : left.Abreast pass tree opened right) :
    (pass.interleave turns left).Abreast pass tree opened (pass.interleave turns right) := by
  induction turns generalizing left right with
  | nil => exact abreast
  | cons turn rest ih =>
      exact ih (pass.takeTurn_tasks left turn ▸ plain) (takeTurn_opening opening plain abreast turn)

/-- Where the docs directory can be made, tasks that are run to their ends come out as if it had been
made before: the tree is the same, or nothing was made either way. -/
theorem ended_opening {tasks : List PageTask} (plain : ∀ task ∈ tasks, IsPlain task.request.path)
    {state : PassState} (there : state.tree = tree) {turns : List Turn}
    (ended : (pass.interleave turns (.start tasks state)).Ended) :
    (pass.interleave turns (.start tasks { state with tree := opened })).tasks =
        (pass.interleave turns (.start tasks state)).tasks ∧
      PassState.Abreast tree opened (∃ task ∈ tasks, task.Makes pass tree)
        (pass.interleave turns (.start tasks state)).state
        (pass.interleave turns (.start tasks { state with tree := opened })).state := by
  have first : (Underway.start tasks state).Abreast pass tree opened
      (.start tasks { state with tree := opened }) := by
    refine ⟨rfl, ?_, .before ?_ there rfl⟩ <;> simp [Underway.start, TaskStage.past]
  have last := interleave_opening opening turns (by rwa [start_tasks]) first
  refine ⟨last.tasks, ?_⟩
  -- all tasks are past their stores, so it only matters whether there is one to be made
  have past : ∀ entry ∈ (pass.interleave turns (.start tasks state)).tasks, entry.2.past = true := by
    intro entry member
    obtain ⟨outcome, told⟩ := Option.isSome_iff_exists.mp (ended entry member)
    rw [TaskStage.eq_done_of_outcome told]
    rfl
  have same := pass.interleave_tasks turns (.start tasks state)
  rw [start_tasks] at same
  have stored : (∃ entry ∈ (pass.interleave turns (.start tasks state)).tasks,
      entry.2.past = true ∧ entry.1.Makes pass tree) ↔ ∃ task ∈ tasks, task.Makes pass tree := by
    constructor
    · rintro ⟨entry, member, -, makes⟩
      exact ⟨entry.1, same ▸ List.mem_map_of_mem member, makes⟩
    · rintro ⟨task, member, makes⟩
      rw [← same] at member
      obtain ⟨entry, inTasks, rfl⟩ := List.mem_map.mp member
      exact ⟨entry, inTasks, past entry inTasks, makes⟩
  rw [← stored]
  exact last.state

end Pass

/-- Stages of a task that has not come to load or to store its page. -/
def TaskStage.Vain : TaskStage → Prop
  | carry _ | record _ | done .reused | done .regenerated => False
  | _ => True

namespace Pass

section Stuck

variable {pass : Pass} {tree : FileTree} (sound : tree.Sound) (named : pass.docs.root.text ≠ "")
  (reached : tree.find? pass.docs.root.place = some .dir → tree.isDir pass.docs.root = true)
  (stuck : ¬ pass.docs.Openable tree)

include sound named reached stuck

theorem advance_stuck {task : PageTask} (plain : IsPlain task.request.path) (now : Timestamp)
    (stage : TaskStage) {state : PassState} (within : Changes (fun _ => False) tree state.tree) :
    Changes (fun _ => False) tree (stage.advance (pass.dated now) task state).2.tree ∧
      (stage.Vain → (stage.advance (pass.dated now) task state).1.Vain ∧
        (stage.advance (pass.dated now) task state).2.recorder = state.recorder) := by
  have absent : ∀ content, state.tree.find? (pass.docs.placeOf task.request.path) ≠ some (.file content) :=
    fun content held =>
      Docs.no_file_of_stuck sound reached stuck plain content (within.file_before not_false held)
  cases stage with
  | register =>
      refine ⟨within, fun _ => ⟨?_, rfl⟩⟩
      rcases TaskStage.afterRegister_cases task with ⟨prior, -, -, next⟩ | ⟨-, next⟩ <;>
        simp [TaskStage.advance, next, TaskStage.Vain]
  | load prior =>
      cases loaded : pass.docs.load state.tree task.request.path with
      | ok text => exact absurd (pass.docs.file_of_load loaded) (absent _)
      | error fault =>
          simp only [TaskStage.advance, dated, loaded]
          exact ⟨within, fun _ => ⟨trivial, trivial⟩⟩
  | generate =>
      cases made : pass.generator task.request <;> simp only [TaskStage.advance, dated, made] <;>
        exact ⟨within, fun _ => ⟨trivial, trivial⟩⟩
  | store body =>
      cases ran : (pass.docs.store task.request.path body).run.run state.tree with
      | mk result after =>
          cases result with
          | error fault =>
              simp only [TaskStage.advance, dated, PassState.work, ran]
              rcases pass.docs.store_cases ran with ⟨_, -, changes⟩ | ⟨wrong, -⟩
              · exact ⟨within.trans changes, fun _ => ⟨trivial, trivial⟩⟩
              · cases wrong
          | ok written =>
              have openable := Docs.openable_of_store (within.sound sound) named plain ran
              exact absurd (openable.of_changes within) stuck
  | remove fault =>
      refine ⟨?_, fun _ => ⟨trivial, rfl⟩⟩
      change Changes _ tree ((pass.docs.remove task.request.path).run.run state.tree).2
      rwa [pass.docs.remove_of_no_file absent]
  | done outcome => exact ⟨within, fun vain => ⟨vain, rfl⟩⟩
  | carry prior => exact ⟨within, False.elim⟩
  | record body => exact ⟨within, False.elim⟩

/-- Where the docs directory can neither be reached nor made every page fails, and no file changes. -/
theorem runTasks_stuck {tasks : List PageTask}
    (distinct : (tasks.map fun task => task.request.path).Nodup)
    (plain : ∀ task ∈ tasks, IsPlain task.request.path) (state : PassState) (there : state.tree = tree) :
    Changes (fun _ => False) tree (pass.runTasks tasks state).2.tree ∧
      ∀ task ∈ tasks, (∃ fault, (task.request.path, .failed fault) ∈ (pass.runTasks tasks state).1) ∧
        (pass.runTasks tasks state).2.recorder.manifest[task.request.path]? =
          state.recorder.manifest[task.request.path]? := by
  subst there
  constructor
  · refine pass.interleave_state (fun later => Changes (fun _ => False) state.tree later.tree)
      (pass.allTurns tasks.length) ?_ (.refl _ _)
    intro task member now stage later within
    rw [start_tasks] at member
    exact (advance_stuck sound named reached stuck (plain task member) now stage within).1
  · intro task member
    obtain ⟨outcome, listed, -, vain, entry⟩ := pass.runTasks_task (fun stage later =>
        Changes (fun _ => False) state.tree later.tree ∧ stage.Vain ∧
          later.recorder.manifest[task.request.path]? = state.recorder.manifest[task.request.path]?)
      state distinct member
      (fun now stage later before => by
        obtain ⟨within, vain, entry⟩ := before
        obtain ⟨changes, kept⟩ := advance_stuck sound named reached stuck (plain task member) now stage within
        exact ⟨changes, (kept vain).1, (kept vain).2 ▸ entry⟩)
      (fun other inTasks apart now phase stage later before => by
        obtain ⟨within, vain, entry⟩ := before
        exact ⟨(advance_stuck sound named reached stuck (plain other inTasks) now phase within).1, vain,
          ((phase.advance_recorder (pass.dated now) other later).2 _ apart.symm).trans entry⟩)
      ⟨.refl _ _, trivial, rfl⟩
    cases outcome with
    | failed fault => exact ⟨⟨fault, listed⟩, entry⟩
    | reused => exact vain.elim
    | regenerated => exact vain.elim

end Stuck

end Pass

end SourceAtlas
