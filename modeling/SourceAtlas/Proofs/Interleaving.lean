import Mathlib.Data.List.Pairwise
import SourceAtlas.Proofs.Dates
import SourceAtlas.Proofs.FreshDocs
import SourceAtlas.Proofs.Outcomes
import SourceAtlas.Proofs.StepEffects
/-!
Tasks of a pass may take their steps in any order. What two tasks do next commutes when their pages
stand apart, so a step that is taken early is one that the task would have taken in its turn: finishing
all tasks one after the other comes to the same before the step as after it.
-/

namespace SourceAtlas

open FileTree

/-- Requests for plain pages of which none is another one or stands below it. -/
structure Separate (requests : List PageRequest) : Prop where
  plain : ∀ request ∈ requests, IsPlain request.path
  apart : requests.Pairwise fun request other => Page.Apart request.path other.path

namespace Separate

variable {requests : List PageRequest} (separate : Separate requests)

include separate

theorem distinct : (requests.map PageRequest.path).Nodup :=
  List.Pairwise.map _ (fun _ _ apart => apart.ne) separate.apart

theorem apart_of_ne {request other : PageRequest} (member : request ∈ requests) (also : other ∈ requests)
    (different : request ≠ other) : Page.Apart request.path other.path := by
  have : Std.Symm fun request other : PageRequest => Page.Apart request.path other.path :=
    ⟨fun _ _ apart => apart.symm⟩
  exact separate.apart.forall member also different

end Separate

namespace Underway

def requests (underway : Underway) : List PageRequest :=
  underway.tasks.map fun entry => entry.1.request

/-- The tasks for some requests, before the first step of any. -/
def ofRequests (requests : List PageRequest) (previous : Option Manifest) (state : PassState) :
    Underway :=
  start (requests.map (Pass.taskFor previous state.recorder.hashes)) state

theorem requests_ofRequests (requests : List PageRequest) (previous : Option Manifest)
    (state : PassState) : (ofRequests requests previous state).requests = requests := by
  simp [ofRequests, start, Underway.requests, Pass.taskFor, Function.comp_def]

theorem mem_requests {requests : List PageRequest} {previous : Option Manifest} {state : PassState}
    {entry : PageTask × TaskStage} (member : entry ∈ (ofRequests requests previous state).tasks) :
    entry.1.request ∈ requests := by
  rw [← requests_ofRequests requests previous state]
  exact List.mem_map_of_mem member

/-- What tasks have come to, when they are done. -/
def ending (underway : Underway) : List (String × PageOutcome) × PassState :=
  (underway.outcomes, underway.state)

end Underway

namespace TaskStage

/-- Runs a task to its end. -/
def finish (pass : Pass) (task : PageTask) (stage : TaskStage) (state : PassState) :
    PageOutcome × PassState :=
  match _ : stage.outcome? with
  | some outcome => (outcome, state)
  | none =>
      (stage.advance pass task state).1.finish pass task (stage.advance pass task state).2
termination_by stage.stepsLeft
decreasing_by
  next running =>
    refine Nat.lt_of_le_of_lt (stage.stepsLeft_advance pass task state) (Nat.sub_one_lt fun spent => ?_)
    cases stage with
    | done outcome => cases running
    | _ => cases spent

theorem finish_of_running (pass : Pass) (task : PageTask) {stage : TaskStage} (state : PassState)
    (running : stage.outcome? = none) :
    stage.finish pass task state =
      (stage.advance pass task state).1.finish pass task (stage.advance pass task state).2 := by
  rw [finish]
  split
  · next outcome ended => rw [running] at ended; cases ended
  · rfl

theorem finish_done (pass : Pass) (task : PageTask) (outcome : PageOutcome) (state : PassState) :
    (done outcome).finish pass task state = (outcome, state) := by
  rw [finish]
  rfl

/-- A task comes out as it does after its next step; one that is done takes no more. -/
theorem finish_eq_advance (pass : Pass) (task : PageTask) (stage : TaskStage) (state : PassState) :
    stage.finish pass task state =
      (stage.advance pass task state).1.finish pass task (stage.advance pass task state).2 := by
  cases ended : stage.outcome? with
  | none => exact finish_of_running pass task state ended
  | some outcome =>
      obtain rfl := eq_done_of_outcome ended
      rfl

theorem finish_sturdy (pass : Pass) (task : PageTask) (stage : TaskStage) {state : PassState}
    (sturdy : state.Sturdy pass.docs) : (stage.finish pass task state).2.Sturdy pass.docs := by
  induction stage, state using finish.induct pass task with
  | case1 stage state outcome ended =>
      obtain rfl := eq_done_of_outcome ended
      rwa [finish_done]
  | case2 stage state running ih =>
      rw [finish_of_running pass task state running]
      exact ih (advance_sturdy pass task stage sturdy)

/-- A step of a task may be taken before or after a task for a page that stands apart is run to its
end. -/
theorem finish_after {pass other : Pass} {task rival : PageTask} (docs : other.docs = pass.docs)
    (plain : IsPlain task.request.path) (also : IsPlain rival.request.path)
    (apart : Page.Apart task.request.path rival.request.path) (stage phase : TaskStage)
    {state : PassState} (sturdy : state.Sturdy pass.docs) :
    stage.finish pass task (phase.advance other rival state).2 =
        ((stage.finish pass task state).1,
          (phase.advance other rival (stage.finish pass task state).2).2) ∧
      (phase.advance other rival (stage.finish pass task state).2).1 =
        (phase.advance other rival state).1 := by
  induction stage, state using finish.induct pass task with
  | case1 stage state outcome ended =>
      obtain rfl := eq_done_of_outcome ended
      simp only [finish_done, and_self]
  | case2 stage state running ih =>
      obtain ⟨onward, still⟩ := ih (advance_sturdy pass task stage sturdy)
      have next := advance_fst_after docs plain also apart stage phase sturdy
      have after := advance_comm docs plain also apart stage phase sturdy
      have rivalNext := advance_fst_after docs.symm also plain apart.symm phase stage (docs ▸ sturdy)
      -- the rival's step passes this one, and by induction the rest
      rw [finish_of_running pass task state running, finish_of_running pass task _ running, next,
        ← after, onward]
      exact ⟨rfl, still.trans rivalNext⟩

section Undated

variable {pass other : Pass} (task : PageTask) (docs : other.docs = pass.docs)
  (generator : other.generator task.request = pass.generator task.request)

include docs generator

/-- A task at another time comes out in the same way. -/
theorem finish_undated (stage : TaskStage) {left right : PassState} (same : left.SameButDates right) :
    (stage.finish other task left).1 = (stage.finish pass task right).1 ∧
      (stage.finish other task left).2.SameButDates (stage.finish pass task right).2 := by
  induction stage, left using finish.induct other task generalizing right with
  | case1 stage left outcome ended =>
      obtain ⟨outcome, rfl⟩ := eq_done_of_outcome ended
      rw [finish_done, finish_done]
      exact ⟨rfl, same⟩
  | case2 stage left running ih =>
      obtain ⟨next, after⟩ := advance_undated task docs generator stage same
      rw [finish_of_running other task left running, finish_of_running pass task right running, ← next]
      exact ih after

end Undated

end TaskStage

/-- States that come to the same once the docs directory is made come to the same before. -/
theorem PassState.Abreast.sameButDates {tree opened : FileTree} {stored : Prop}
    {left right left' right' : PassState} (first : left.Abreast tree opened stored right)
    (second : left'.Abreast tree opened stored right') (same : right.SameButDates right') :
    left.SameButDates left' := by
  cases first with
  | before none there opens =>
      cases second with
      | before _ also opens' =>
          subst opens opens'
          exact ⟨there.trans also.symm, same.recorder, same.references⟩
      | after stored => exact absurd stored none
  | after stored equal =>
      cases second with
      | before none => exact absurd stored none
      | after _ equal' => exact equal ▸ equal' ▸ same

namespace Pass

variable (pass : Pass)

/-- Runs tasks that are under way to their ends, one after the other. -/
def finishAll : List (PageTask × TaskStage) → PassState → List (String × PageOutcome) × PassState
  | [], state => ([], state)
  | (task, stage) :: rest, state =>
      let (outcome, state) := stage.finish pass task state
      let (outcomes, state) := finishAll rest state
      ((task.request.path, outcome) :: outcomes, state)

theorem finishAll_cons (task : PageTask) (stage : TaskStage) (rest : List (PageTask × TaskStage))
    (state : PassState) :
    pass.finishAll ((task, stage) :: rest) state =
      ((task.request.path, (stage.finish pass task state).1) ::
          (pass.finishAll rest (stage.finish pass task state).2).1,
        (pass.finishAll rest (stage.finish pass task state).2).2) := rfl

theorem finishAll_of_ended {underway : Underway} (ended : underway.Ended) :
    pass.finishAll underway.tasks underway.state = underway.ending := by
  obtain ⟨tasks, state⟩ := underway
  induction tasks with
  | nil => rfl
  | cons entry rest ih =>
      obtain ⟨task, stage⟩ := entry
      obtain ⟨outcome, told⟩ := Option.isSome_iff_exists.mp (ended _ (List.mem_cons_self ..))
      obtain rfl := TaskStage.eq_done_of_outcome told
      rw [finishAll_cons, TaskStage.finish_done,
        ih fun entry inRest => ended entry (List.mem_cons_of_mem _ inRest)]
      rfl

theorem finishAll_append (front back : List (PageTask × TaskStage)) (state : PassState) :
    pass.finishAll (front ++ back) state =
      ((pass.finishAll front state).1 ++ (pass.finishAll back (pass.finishAll front state).2).1,
        (pass.finishAll back (pass.finishAll front state).2).2) := by
  induction front generalizing state with
  | nil => rfl
  | cons entry rest ih =>
      rw [List.cons_append, finishAll_cons, ih, finishAll_cons]
      rfl

/-- Runs that come to the same at different times. -/
structure SameEnd (left right : List (String × PageOutcome) × PassState) : Prop where
  outcomes : left.1 = right.1
  state : left.2.SameButDates right.2

theorem SameEnd.symm {left right : List (String × PageOutcome) × PassState} (same : SameEnd left right) :
    SameEnd right left :=
  ⟨same.outcomes.symm, same.state.symm⟩

theorem SameEnd.trans {left middle right : List (String × PageOutcome) × PassState}
    (first : SameEnd left middle) (second : SameEnd middle right) : SameEnd left right :=
  ⟨first.outcomes.trans second.outcomes, first.state.trans second.state⟩

theorem finishAll_undated (tasks : List (PageTask × TaskStage)) {left right : PassState}
    (same : left.SameButDates right) :
    SameEnd (pass.finishAll tasks left) (pass.finishAll tasks right) := by
  induction tasks generalizing left right with
  | nil => exact ⟨rfl, same⟩
  | cons entry rest ih =>
      obtain ⟨task, stage⟩ := entry
      obtain ⟨outcome, after⟩ := TaskStage.finish_undated task (Eq.refl pass.docs) rfl stage same
      obtain ⟨outcomes, state⟩ := ih after
      rw [finishAll_cons, finishAll_cons, outcome, outcomes]
      exact ⟨rfl, state⟩

variable {pass}

/-- A step of a task may be taken before or after others are run to their ends, when their pages stand
apart from its page. -/
theorem finishAll_after {other : Pass} {rival : PageTask} (docs : other.docs = pass.docs)
    (also : IsPlain rival.request.path) (phase : TaskStage) {tasks : List (PageTask × TaskStage)}
    (plain : ∀ entry ∈ tasks, IsPlain entry.1.request.path)
    (apart : ∀ entry ∈ tasks, Page.Apart entry.1.request.path rival.request.path)
    {state : PassState} (sturdy : state.Sturdy pass.docs) :
    pass.finishAll tasks (phase.advance other rival state).2 =
        ((pass.finishAll tasks state).1,
          (phase.advance other rival (pass.finishAll tasks state).2).2) ∧
      (phase.advance other rival (pass.finishAll tasks state).2).1 =
        (phase.advance other rival state).1 := by
  induction tasks generalizing state with
  | nil => exact ⟨rfl, rfl⟩
  | cons entry rest ih =>
      obtain ⟨task, stage⟩ := entry
      obtain ⟨first, still⟩ := TaskStage.finish_after docs (plain _ (List.mem_cons_self ..)) also
        (apart _ (List.mem_cons_self ..)) stage phase sturdy
      obtain ⟨later, throughout⟩ := ih (fun entry inRest => plain entry (List.mem_cons_of_mem _ inRest))
        (fun entry inRest => apart entry (List.mem_cons_of_mem _ inRest))
        (TaskStage.finish_sturdy pass task stage sturdy)
      rw [finishAll_cons, finishAll_cons, first, later]
      exact ⟨rfl, throughout.trans still⟩

/-- A turn leaves the tasks to finish what they would have come to. -/
theorem takeTurn_sameEnd {underway : Underway} (separate : Separate underway.requests)
    (sturdy : underway.state.Sturdy pass.docs) (turn : Turn) :
    (pass.takeTurn underway turn).requests = underway.requests ∧
      (pass.takeTurn underway turn).state.Sturdy pass.docs ∧
      SameEnd (pass.finishAll (pass.takeTurn underway turn).tasks (pass.takeTurn underway turn).state)
        (pass.finishAll underway.tasks underway.state) := by
  obtain ⟨tasks, state⟩ := underway
  rcases pass.takeTurn_cases ⟨tasks, state⟩ turn with same | ⟨front, task, stage, back, split, -, turned⟩
  · rw [same]
    exact ⟨rfl, sturdy, rfl, .refl _⟩
  · dsimp only at split sturdy turned
    subst split
    have plain := separate.plain
    have apart := separate.apart
    simp only [Underway.requests, List.map_append, List.map_cons, List.forall_mem_append,
      List.forall_mem_cons, List.forall_mem_map] at plain
    simp only [Underway.requests, List.map_append, List.map_cons, List.pairwise_append,
      List.forall_mem_cons, List.forall_mem_map] at apart
    -- the task takes the step that it would have taken after those in front of it
    obtain ⟨before, next⟩ := finishAll_after (pass.docs_dated turn.now) plain.2.1 stage plain.1
      (fun entry inFront => (apart.2.2 entry inFront).1) sturdy
    have undated := TaskStage.advance_undated task (pass.docs_dated turn.now) rfl stage
      (.refl (pass.finishAll front state).2)
    obtain ⟨outcome, after⟩ := TaskStage.finish_undated task (Eq.refl pass.docs) rfl
      (stage.advance pass task (pass.finishAll front state).2).1 undated.2
    rw [← TaskStage.finish_eq_advance] at outcome after
    obtain ⟨outcomes, rest⟩ := pass.finishAll_undated back after
    rw [turned]
    refine ⟨by simp [Underway.requests],
      TaskStage.advance_sturdy (pass.dated turn.now) task stage sturdy, ?_⟩
    rw [finishAll_append, finishAll_append, finishAll_cons, finishAll_cons, before, ← next, undated.1,
      outcome]
    exact ⟨by rw [outcomes], rest⟩

/-- However tasks take turns, they are left to finish what they would have come to. -/
theorem interleave_sameEnd (turns : List Turn) (underway : Underway)
    (separate : Separate underway.requests) (sturdy : underway.state.Sturdy pass.docs) :
    SameEnd (pass.finishAll (pass.interleave turns underway).tasks (pass.interleave turns underway).state)
      (pass.finishAll underway.tasks underway.state) := by
  induction turns generalizing underway with
  | nil => exact ⟨rfl, .refl _⟩
  | cons turn rest ih =>
      obtain ⟨requests, after, same⟩ := takeTurn_sameEnd separate sturdy turn
      exact (ih _ (requests ▸ separate) after).trans same

section Ended

variable {requests : List PageRequest} (separate : Separate requests) {previous : Option Manifest}
  {state : PassState} {turns : List Turn}
  (ended : (pass.interleave turns (.ofRequests requests previous state)).Ended)

include separate ended

/-- Tasks that have taken all their turns have come to what they come to one after the other. -/
theorem sameEnd_finishAll (sturdy : state.Sturdy pass.docs) :
    SameEnd (pass.interleave turns (.ofRequests requests previous state)).ending
      (pass.finishAll (Underway.ofRequests requests previous state).tasks state) := by
  -- after the turns there is nothing left to finish, before them there is all of the pass
  rw [← pass.finishAll_of_ended ended]
  exact interleave_sameEnd turns _
    ((Underway.requests_ofRequests requests previous state).symm ▸ separate) sturdy

theorem ending_opening {opened : FileTree} (opening : Opening pass.docs.root state.tree opened) :
    (pass.interleave turns (.ofRequests requests previous { state with tree := opened })).Ended ∧
      (pass.interleave turns (.ofRequests requests previous state)).outcomes =
        (pass.interleave turns (.ofRequests requests previous { state with tree := opened })).outcomes ∧
      PassState.Abreast state.tree opened
        (∃ task ∈ requests.map (taskFor previous state.recorder.hashes), task.Makes pass state.tree)
        (pass.interleave turns (.ofRequests requests previous state)).state
        (pass.interleave turns (.ofRequests requests previous { state with tree := opened })).state := by
  obtain ⟨tasks, states⟩ := ended_opening opening (tasks_plain previous separate.plain _) rfl ended
  refine ⟨?_, ?_, states⟩
  · unfold Underway.Ended
    rw [Underway.ofRequests, tasks]
    exact ended
  · unfold Underway.outcomes
    rw [Underway.ofRequests, Underway.ofRequests, tasks]

end Ended

/-- However the tasks of a pass take turns until all are done, and in whatever order their outcomes are
told: they come to the same. -/
theorem sameEnd_of_ended {requests : List PageRequest} (separate : Separate requests)
    {previous : Option Manifest} {state : PassState} (sound : state.tree.Sound)
    (reached : state.tree.find? pass.docs.root.place = some .dir →
      state.tree.isDir pass.docs.root = true)
    (way : pass.docs.Firm state.tree ∨ pass.docs.Openable state.tree) {turns others : List Turn}
    (ended : (pass.interleave turns (.ofRequests requests previous state)).Ended)
    (also : (pass.interleave others (.ofRequests requests previous state)).Ended) :
    SameEnd (pass.interleave turns (.ofRequests requests previous state)).ending
      (pass.interleave others (.ofRequests requests previous state)).ending := by
  by_cases firm : pass.docs.Firm state.tree
  · exact (sameEnd_finishAll separate ended ⟨sound, firm⟩).trans
      (sameEnd_finishAll separate also ⟨sound, firm⟩).symm
  rcases pass.docs.opening_cases sound reached with there | ⟨opened, opening⟩ | stuck
  · exact absurd (Docs.firm_of_isDir there) firm
  · obtain ⟨endedOpened, outcomes, states⟩ := ending_opening separate ended opening
    obtain ⟨alsoOpened, otherOutcomes, otherStates⟩ := ending_opening separate also opening
    have sturdy : PassState.Sturdy pass.docs { state with tree := opened } :=
      ⟨opening.sound_opened, Docs.firm_of_isDir opening.isDir_opened⟩
    obtain ⟨sameOutcomes, sameStates⟩ := (sameEnd_finishAll separate endedOpened sturdy).trans
      (sameEnd_finishAll separate alsoOpened sturdy).symm
    exact ⟨outcomes.trans (sameOutcomes.trans otherOutcomes.symm),
      states.sameButDates otherStates sameStates⟩
  · exact absurd way (not_or.mpr ⟨firm, stuck⟩)

variable (pass)

/-- The pass in which one task is done after the other. -/
def inOrder : Pass := { pass with turns := [] }

/-- The order in which tasks take their steps is of no account, where the docs directory is reached
firmly or can be made, and is reached if it is there. Let the tasks of a pass take turns in any order and
at any times until all are done, and let their outcomes be told in any order: the report is that of the
pass in which one task is done after the other, and so are the file tree, the cross references and, but
for the dates, the manifest. -/
theorem run_interleaves {requests : List PageRequest} (separate : Separate requests)
    (previous : Option Manifest) (state : PassState) (sound : state.tree.Sound)
    (reached : state.tree.find? pass.docs.root.place = some .dir →
      state.tree.isDir pass.docs.root = true)
    (way : pass.docs.Firm state.tree ∨ pass.docs.Openable state.tree) {turns : List Turn}
    (ended : (pass.interleave turns (.ofRequests requests previous state)).Ended)
    {told : List (String × PageOutcome)}
    (permuted : told.Perm (pass.interleave turns (.ofRequests requests previous state)).outcomes) :
    RunReport.ofOutcomes (Staleness.plan requests previous state.recorder.hashes) told =
        (pass.inOrder.run requests previous false state).1 ∧
      (pass.interleave turns (.ofRequests requests previous state)).state.SameButDates
        (pass.inOrder.run requests previous false state).2 := by
  have also := pass.inOrder.allTurns_ended (requests.map (taskFor previous state.recorder.hashes)) state
  obtain ⟨outcomes, after⟩ := sameEnd_of_ended separate sound reached way ended also
  have distinct := separate.distinct
  rw [← pass.inOrder.outcomes_pages previous state] at distinct
  exact ⟨RunReport.ofOutcomes_of_perm _ (permuted.trans (.of_eq outcomes)) distinct, after⟩

theorem separate_pair {page other : String} (plain : IsName page) (also : IsName other)
    (apart : Page.Apart page other) : Separate [requestOf page, requestOf other] := by
  have single : ∀ name, IsName name → IsPlain name := fun name ordinary =>
    ⟨[name], by simp, by simpa using ordinary, by simp⟩
  refine ⟨?_, ?_⟩
  · simp only [List.forall_mem_cons]
    exact ⟨single page plain, single other also, List.forall_mem_nil _⟩
  · simpa [requestOf] using apart

theorem firm_halting : halting.docs.Firm {} := by
  intro front back split
  have pieces : halting.docs.root.pieces = ["d"] := by decide +kernel
  rw [pieces] at split
  have up : ".." ∈ ["d"] := split ▸ List.mem_append_right front (List.mem_cons_self ..)
  exact absurd up (by decide)

def detouring : Pass where
  docs := ⟨⟨"/r/x/../docs"⟩⟩
  generator request := if request.path = Page.overview then .error .noWorkers else .ok "text"
  now := Project.newYear

/-- A file tree with an overview, and without the directory that a docs path may go through. -/
def overviewTree : FileTree :=
  ((({} : FileTree).insert ["r"] .dir).insert ["r", "docs"] .dir).insert ["r", "docs", "index.md"]
    (.file "old".toUTF8)

theorem overviewTree_sound : overviewTree.Sound := by
  have root := Sound.empty.insert [] "r" .dir (find?_nil _) (by decide) fun _ => rfl
  have docs := root.insert ["r"] "docs" .dir (by decide) (by decide) fun _ => rfl
  exact docs.insert ["r", "docs"] "index.md" _ (by decide) (by decide)
    fun found => absurd found (by decide)

def byTurns : List Turn :=
  (List.replicate 5 [⟨1, Project.newYear⟩, ⟨0, Project.newYear⟩]).flatten

theorem ended_byTurns (pass : Pass) (first second : PageRequest) (previous : Option Manifest)
    (state : PassState) : (pass.interleave byTurns (.ofRequests [first, second] previous state)).Ended := by
  apply interleave_ended
  intro index entry found
  obtain ⟨bound, rfl⟩ := List.getElem?_eq_some_iff.mp found
  match index, bound with
  | 0, _ => exact (by decide : 5 ≤ byTurns.countP fun turn => turn.index = 0)
  | 1, _ => exact (by decide : 5 ≤ byTurns.countP fun turn => turn.index = 1)

theorem run_interleaves_halting :
    "a.md" ∈ (RunReport.ofOutcomes (Staleness.plan [requestOf "a.md", requestOf "b.md"] none ∅)
      (halting.interleave byTurns (.ofRequests [requestOf "a.md", requestOf "b.md"] none
        { tree := {}, recorder := { hashes := ∅ } })).outcomes.reverse).regenerated := by
  have separate : Separate [requestOf "a.md", requestOf "b.md"] :=
    separate_pair (by decide) (by decide) (by decide +kernel)
  have same := (halting.run_interleaves separate none
    { tree := {}, recorder := { hashes := ∅ } } Sound.empty (fun found => absurd found (by decide +kernel))
    (Or.inl firm_halting) (ended_byTurns _ _ _ _ _) (List.reverse_perm _)).1
  have made : "a.md" ∈ (halting.inOrder.run [requestOf "a.md", requestOf "b.md"] none false
      { tree := {}, recorder := { hashes := ∅ } }).1.regenerated := by decide +kernel
  exact same ▸ made

/-- What the overview is said to have been made from in a tree that has it. -/
def overviewManifest : Manifest :=
  (∅ : Manifest).insert Page.overview (.ofPage ∅ Project.newYear [] none "old")

/-- Where a step upwards is not firm the order shows: the overview is reused after a page whose
directories open the way to it, and is not found before them. -/
theorem run_tells_order :
    Separate [requestOf "a.md", requestOf Page.overview] ∧ overviewTree.Sound ∧
      (detouring.interleave byTurns (.ofRequests [requestOf "a.md", requestOf Page.overview]
        (some overviewManifest) { tree := overviewTree, recorder := { hashes := ∅ } })).Ended ∧
      (detouring.inOrder.run [requestOf "a.md", requestOf Page.overview] (some overviewManifest) false
        { tree := overviewTree, recorder := { hashes := ∅ } }).1.reused = [Page.overview] ∧
      (RunReport.ofOutcomes (Staleness.plan [requestOf "a.md", requestOf Page.overview]
          (some overviewManifest) ∅)
        (detouring.interleave byTurns (.ofRequests [requestOf "a.md", requestOf Page.overview]
          (some overviewManifest) { tree := overviewTree, recorder := { hashes := ∅ } })).outcomes).reused =
        [] :=
  ⟨separate_pair (by decide) (by decide) (by decide +kernel), overviewTree_sound, ended_byTurns _ _ _ _ _,
    by decide +kernel, by decide +kernel⟩

end Pass

end SourceAtlas
