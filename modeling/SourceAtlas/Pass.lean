import SourceAtlas.CrossReferences
import SourceAtlas.Docs
import SourceAtlas.PageTemplates
import SourceAtlas.Staleness
/-!
A pass over requested pages. Every page is a task of small steps on shared state: it registers its
entities, is kept from the run before when its sources and its text are what they were, and is made
again otherwise. A task that fails leaves neither a file nor a manifest entry behind. The tasks of a
pass are under way together and take their steps in any order.
-/

namespace SourceAtlas

/-- What the tasks of a pass share. -/
structure PassState where
  tree : FileTree
  recorder : Recorder
  references : CrossReferences := ∅

inductive PageOutcome where
  | regenerated
  | reused
  | failed (fault : Fault)
  deriving Repr, DecidableEq

structure PageTask where
  request : PageRequest
  decision : Staleness
  prior : Option PageStatus

inductive TaskStage where
  | register
  | load (prior : PageStatus)
  | carry (prior : PageStatus)
  | generate
  | store (body : String)
  | record (body : String)
  | remove (fault : Fault)
  | done (outcome : PageOutcome)

/-- Which of the tasks under way takes its next step, and when. -/
structure Turn where
  index : Nat
  now : Timestamp
  deriving Repr, DecidableEq

/-- In which order the tasks of a pass take their steps. What is left of them after the turns is done in
order, at one time. -/
structure Schedule where
  now : Timestamp
  turns : List Turn := []

instance : Coe Timestamp Schedule := ⟨fun now => { now }⟩

/-- Where a pass keeps its pages, what makes them, and how its tasks take turns. -/
structure Pass extends Schedule where
  docs : Docs
  generator : PageGenerator

/-- Tasks under way, each with what it does next, and the state that they share. -/
structure Underway where
  tasks : List (PageTask × TaskStage)
  state : PassState

namespace PassState

def work {α : Type} (state : PassState) (operation : Work α) : Except Fault α × PassState :=
  let (answer, tree) := operation.run.run state.tree
  (answer, { state with tree })

end PassState

namespace TaskStage

def stepsLeft : TaskStage → Nat
  | register => 5
  | load _ => 4
  | generate => 3
  | store _ => 2
  | carry _ => 1
  | record _ => 1
  | remove _ => 1
  | done _ => 0

def afterRegister (task : PageTask) : TaskStage :=
  match task.decision, task.prior with
  | .reusable, some prior => load prior
  | _, _ => generate

/-- One step of a task. -/
def advance (pass : Pass) (task : PageTask) (stage : TaskStage) (state : PassState) :
    TaskStage × PassState :=
  let page := task.request.path
  match stage with
  | register =>
      (afterRegister task,
        { state with references := state.references.register page task.request.entities })
  | load prior =>
      match pass.docs.load state.tree page with
      | .ok text => (if Fingerprint.ofText text = prior.contentHash then carry prior else generate, state)
      | .error _ => (generate, state)
  | carry prior => (done .reused, { state with recorder := state.recorder.carry page prior })
  | generate =>
      match pass.generator task.request with
      | .ok body => (store body, state)
      | .error fault => (remove fault, state)
  | store body =>
      match state.work (pass.docs.store page body) with
      | (.ok _, state) => (record body, state)
      | (.error fault, state) => (remove fault, state)
  | record body =>
      (done .regenerated,
        { state with
          recorder := state.recorder.record pass.now page task.request.sources body task.request.lines })
  | remove fault => (done (.failed fault), (state.work (pass.docs.remove page)).2)
  | done outcome => (done outcome, state)

def outcome? : TaskStage → Option PageOutcome
  | done outcome => some outcome
  | _ => none

end TaskStage

namespace Underway

def start (tasks : List PageTask) (state : PassState) : Underway where
  tasks := tasks.map fun task => (task, .register)
  state

/-- How the pages of tasks that are done came out. -/
def outcomes (underway : Underway) : List (String × PageOutcome) :=
  underway.tasks.filterMap fun (task, stage) =>
    stage.outcome?.map fun outcome => (task.request.path, outcome)

end Underway

/-- What came of every page of a run; each list is sorted. -/
structure RunReport where
  decisions : Std.ExtTreeMap String Staleness := ∅
  regenerated : List String := []
  reused : List String := []
  failed : List (String × String) := []
  skipped : List String := []

namespace RunReport

def staleCount (report : RunReport) : Nat := (report.decisions.values.filter Staleness.isStale).length

def pagesWith (outcomes : List (String × PageOutcome)) (outcome : PageOutcome) : List String :=
  ((outcomes.filter fun entry => entry.2 = outcome).map Prod.fst).mergeSort (· ≤ ·)

/-- The pages that failed, each with the wording of its fault. -/
def failures (outcomes : List (String × PageOutcome)) : List (String × String) :=
  (outcomes.filterMap fun (page, outcome) =>
    match outcome with
    | .failed fault => some (page, fault.message)
    | _ => none).mergeSort fun left right =>
      left.1 < right.1 || (left.1 == right.1 && left.2 ≤ right.2)

def ofOutcomes (decisions : Std.ExtTreeMap String Staleness) (outcomes : List (String × PageOutcome)) :
    RunReport where
  decisions
  regenerated := pagesWith outcomes .regenerated
  reused := pagesWith outcomes .reused
  failed := failures outcomes

end RunReport

namespace Pass

variable (pass : Pass)

def taskFor (previous : Option Manifest) (hashes : FileHashes) (request : PageRequest) : PageTask where
  request
  decision := Staleness.classify previous request hashes
  prior := previous.bind fun manifest => manifest[request.path]?

def dated (now : Timestamp) : Pass := { pass with now }

/-- The task whose turn it is takes a step, if it is there. -/
def takeTurn (underway : Underway) (turn : Turn) : Underway :=
  match underway.tasks[turn.index]? with
  | some (task, stage) =>
      let (next, state) := stage.advance (pass.dated turn.now) task underway.state
      { tasks := underway.tasks.set turn.index (task, next), state }
  | none => underway

def interleave (turns : List Turn) (underway : Underway) : Underway :=
  turns.foldl pass.takeTurn underway

/-- Turns for a number of tasks: those that the pass has for them, and then as many for one task after
the other as it can have steps left. -/
def allTurns (count : Nat) : List Turn :=
  pass.turns ++ (List.range count).flatMap fun index =>
    List.replicate TaskStage.register.stepsLeft { index, now := pass.now }

/-- Runs tasks to their ends, as they take turns. -/
def runTasks (tasks : List PageTask) (state : PassState) : List (String × PageOutcome) × PassState :=
  let underway := pass.interleave (pass.allTurns tasks.length) (.start tasks state)
  (underway.outcomes, underway.state)

/-- Runs a pass over the requested pages. A pass that was called off starts none of them. -/
def run (requests : List PageRequest) (previous : Option Manifest) (cancelled : Bool)
    (state : PassState) : RunReport × PassState :=
  if cancelled then
    ({ skipped := (requests.map PageRequest.path).mergeSort (· ≤ ·) }, state)
  else
    let hashes := state.recorder.hashes
    let (outcomes, state) := pass.runTasks (requests.map (taskFor previous hashes)) state
    (.ofOutcomes (Staleness.plan requests previous hashes) outcomes, state)

end Pass

end SourceAtlas
