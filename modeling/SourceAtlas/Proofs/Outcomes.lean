import SourceAtlas.Proofs.FailOnChanges
import SourceAtlas.Proofs.Staleness
/-!
What a pass reports. Every requested page comes out in one way, that its decision, its text on disk,
the generator and the disk lead to when its task comes to them.
-/

namespace SourceAtlas

open FileTree

namespace RunReport

theorem failures_perm (outcomes : List (String × PageOutcome)) :
    ((failures outcomes).map Prod.fst).Perm (outcomes.filterMap fun (page, outcome) =>
      match outcome with
      | .failed _ => some page
      | _ => none) := by
  apply ((List.mergeSort_perm _ _).map Prod.fst).trans
  rw [List.map_filterMap]
  apply List.Perm.of_eq
  congr 1
  funext ⟨page, outcome⟩
  cases outcome <;> rfl

theorem perm_of_outcomes (outcomes : List (String × PageOutcome)) :
    (pagesWith outcomes .regenerated ++ pagesWith outcomes .reused ++
      (failures outcomes).map Prod.fst).Perm (outcomes.map Prod.fst) := by
  have listed : ∀ outcome, (pagesWith outcomes outcome).Perm
      ((outcomes.filter fun entry => entry.2 = outcome).map Prod.fst) := fun outcome =>
    List.mergeSort_perm ..
  apply (((listed _).append (listed _)).append (failures_perm outcomes)).trans
  clear listed
  -- the first page heads one of the three lists, and moves past the lists in front of that one
  induction outcomes with
  | nil => rfl
  | cons entry rest ih =>
      obtain ⟨page, outcome⟩ := entry
      cases outcome with
      | regenerated => simpa using ih
      | reused =>
          rw [List.append_assoc] at ih ⊢
          simpa using List.perm_middle.trans (ih.cons page)
      | failed fault => simpa using List.perm_middle.trans (ih.cons page)

theorem pagesWith_pairwise {outcomes : List (String × PageOutcome)}
    (distinct : (outcomes.map Prod.fst).Nodup) (outcome : PageOutcome) :
    (pagesWith outcomes outcome).Pairwise (· < ·) :=
  Table.sort_pairwise ((List.filter_sublist.map Prod.fst).nodup distinct)

theorem failures_pairwise {outcomes : List (String × PageOutcome)}
    (distinct : (outcomes.map Prod.fst).Nodup) :
    ((failures outcomes).map Prod.fst).Pairwise (· < ·) := by
  have apart := (perm_of_outcomes outcomes).symm.nodup distinct
  have kept := (List.nodup_append.mp apart).2.1
  unfold failures at kept ⊢
  -- failures are sorted by page and then by wording; no two have one page
  have unsorted := ((List.mergeSort_perm _ _).map Prod.fst).nodup kept
  apply Table.mergeSort_pairwise Prod.fst _ _ _ unsorted
  · intro first second third
    simp only [Bool.or_eq_true, Bool.and_eq_true, decide_eq_true_eq, beq_iff_eq]
    rintro (less | ⟨same, below⟩) (later | ⟨also, above⟩)
    · exact Or.inl (String.lt_trans less later)
    · exact Or.inl (also ▸ less)
    · exact Or.inl (same ▸ later)
    · exact Or.inr ⟨same.trans also, String.le_trans below above⟩
  · intro first second
    simp only [Bool.or_eq_true, Bool.and_eq_true, decide_eq_true_eq, beq_iff_eq]
    by_cases same : first.1 = second.1
    · rcases String.le_total first.2 second.2 with below | above
      · exact Or.inl (Or.inr ⟨same, below⟩)
      · exact Or.inr (Or.inr ⟨same.symm, above⟩)
    · rcases String.le_total first.1 second.1 with below | above
      · exact Or.inl (Or.inl (Std.lt_of_le_of_ne below same))
      · exact Or.inr (Or.inl (Std.lt_of_le_of_ne above (Ne.symm same)))
  · intro first second
    simp only [Bool.or_eq_true, Bool.and_eq_true, decide_eq_true_eq, beq_iff_eq]
    rintro (less | ⟨same, -⟩)
    · exact Std.le_of_lt less
    · exact same ▸ String.le_refl _

/-- A report does not say in which order pages came out. -/
theorem ofOutcomes_of_perm (decisions : Std.ExtTreeMap String Staleness)
    {told outcomes : List (String × PageOutcome)} (permuted : told.Perm outcomes)
    (distinct : (outcomes.map Prod.fst).Nodup) :
    ofOutcomes decisions told = ofOutcomes decisions outcomes := by
  have apart : (told.map Prod.fst).Nodup := (permuted.map Prod.fst).symm.nodup distinct
  have listed : ∀ outcome, pagesWith told outcome = pagesWith outcomes outcome := by
    intro outcome
    apply Table.eq_of_same_members (fun _ _ less => Std.not_lt.mpr (Std.le_of_lt less))
      (pagesWith_pairwise apart outcome) (pagesWith_pairwise distinct outcome)
    intro page
    rw [mem_pagesWith_iff, mem_pagesWith_iff, permuted.mem_iff]
  have failed : failures told = failures outcomes := by
    apply Table.eq_of_same_members (fun _ _ less => Std.not_lt.mpr (Std.le_of_lt less))
      (List.pairwise_map.mp (failures_pairwise apart)) (List.pairwise_map.mp (failures_pairwise distinct))
    rintro ⟨page, message⟩
    simp only [mem_failures_iff, permuted.mem_iff]
  simp only [ofOutcomes, listed, failed]

end RunReport

/-- The file tree that the task of a request finds when it comes to a stage of some kind. -/
def Pass.treeFound (pass : Pass) (requests : List PageRequest) (previous : Option Manifest)
    (state : PassState) (index : Nat) (comes : TaskStage → Bool) : FileTree :=
  pass.treeWhen index comes (pass.allTurns requests.length)
    (.start (requests.map (Pass.taskFor previous state.recorder.hashes)) state)

/-- A report accounts for requests: it has the decision about each page, and each page once under its
headings, which are in order. -/
structure RunReport.Accounts (report : RunReport) (requests : List PageRequest)
    (previous : Option Manifest) (hashes : FileHashes) : Prop where
  decisions : ∀ page, report.decisions[page]? = (requests.find? fun request => request.path = page).map
    fun request => Staleness.classify previous request hashes
  regenerated : report.regenerated.Pairwise (· < ·)
  reused : report.reused.Pairwise (· < ·)
  failed : (report.failed.map Prod.fst).Pairwise (· < ·)
  partition : (report.regenerated ++ report.reused ++ report.failed.map Prod.fst).Perm
    (requests.map PageRequest.path)
  skipped : report.skipped = []

/-- A report has a page under the heading that its decision, its file when its task looks for it, the
generator, and the disk when its task stores it lead to. -/
structure RunReport.Tells (report : RunReport) (pass : Pass) (request : PageRequest)
    (previous : Option Manifest) (hashes : FileHashes) (looked found : FileTree) : Prop where
  reused : request.path ∈ report.reused ↔ Staleness.classify previous request hashes = .reusable ∧
    ∃ status text, (previous.bind fun manifest => manifest[request.path]?) = some status ∧
      pass.docs.load looked request.path = .ok text ∧ Fingerprint.ofText text = status.contentHash
  regenerated : request.path ∈ report.regenerated ↔ request.path ∉ report.reused ∧
    ∃ body, pass.generator request = .ok body ∧
      ((pass.docs.store request.path body).run.run found).1 = .ok ()
  failed : ∀ message, (request.path, message) ∈ report.failed ↔ request.path ∉ report.reused ∧
    ∃ fault : Fault, fault.message = message ∧ (pass.generator request = .error fault ∨
      ∃ body, pass.generator request = .ok body ∧
        ((pass.docs.store request.path body).run.run found).1 = .error fault)

namespace Pass

variable (pass : Pass) {requests : List PageRequest} (previous : Option Manifest) (state : PassState)

theorem plan_getElem? (distinct : (requests.map PageRequest.path).Nodup) (hashes : FileHashes)
    (page : String) :
    (Staleness.plan requests previous hashes)[page]? =
      (requests.find? fun request => request.path = page).map
        fun request => Staleness.classify previous request hashes := by
  cases asked : requests.find? fun request => request.path = page with
  | some request =>
      have here : request.path = page := by simpa using List.find?_some asked
      subst here
      exact Staleness.plan_getElem?_of_mem distinct (List.mem_of_find?_eq_some asked)
  | none =>
      cases entry : (Staleness.plan requests previous hashes)[page]? with
      | none => rfl
      | some decision =>
          obtain ⟨request, member, same, -⟩ := Staleness.exists_of_plan entry
          simpa [same] using List.find?_eq_none.mp asked request member

theorem run_eq : pass.run requests previous false state =
    (.ofOutcomes (Staleness.plan requests previous state.recorder.hashes)
      (pass.runTasks (requests.map (taskFor previous state.recorder.hashes)) state).1,
      (pass.runTasks (requests.map (taskFor previous state.recorder.hashes)) state).2) := rfl

theorem outcomes_pages :
    (pass.runTasks (requests.map (taskFor previous state.recorder.hashes)) state).1.map Prod.fst =
      requests.map PageRequest.path := by
  rw [runTasks_pages, List.map_map]
  rfl

theorem run_accounts (distinct : (requests.map PageRequest.path).Nodup) :
    (pass.run requests previous false state).1.Accounts requests previous state.recorder.hashes := by
  have pages : (pass.runTasks (requests.map (taskFor previous state.recorder.hashes)) state).1.map
      Prod.fst = requests.map PageRequest.path := pass.outcomes_pages previous state
  rw [run_eq]
  have apart := distinct
  rw [← pages] at apart
  constructor
  · exact plan_getElem? previous distinct _
  · exact RunReport.pagesWith_pairwise apart _
  · exact RunReport.pagesWith_pairwise apart _
  · exact RunReport.failures_pairwise apart
  · exact pages ▸ RunReport.perm_of_outcomes _
  · rfl

theorem tasks_nodup (distinct : (requests.map PageRequest.path).Nodup) (hashes : FileHashes) :
    ((requests.map (taskFor previous hashes)).map fun task => task.request.path).Nodup := by
  rw [List.map_map]
  exact distinct

omit state pass in
theorem tasks_plain (plain : ∀ request ∈ requests, IsPlain request.path) (hashes : FileHashes) :
    ∀ task ∈ requests.map (taskFor previous hashes), IsPlain task.request.path := by
  intro task member
  obtain ⟨request, inRequests, rfl⟩ := List.mem_map.mp member
  exact plain request inRequests

/-- A page comes out in the way that is reported. -/
theorem run_told (distinct : (requests.map PageRequest.path).Nodup) {index : Nat} {request : PageRequest}
    (found : requests[index]? = some request) (outcome : PageOutcome) :
    (request.path, outcome) ∈
        (pass.runTasks (requests.map (taskFor previous state.recorder.hashes)) state).1 ↔
      TaskStage.register.fate pass (taskFor previous state.recorder.hashes request)
        (pass.treeFound requests previous state index TaskStage.looks)
        (pass.treeFound requests previous state index TaskStage.stores) = outcome := by
  have there : (requests.map (taskFor previous state.recorder.hashes))[index]? =
      some (taskFor previous state.recorder.hashes request) := by simp [found]
  have told := pass.runTasks_told state (tasks_nodup previous distinct state.recorder.hashes) there outcome
  rwa [List.length_map] at told

theorem run_tells (distinct : (requests.map PageRequest.path).Nodup) {index : Nat} {request : PageRequest}
    (found : requests[index]? = some request) :
    (pass.run requests previous false state).1.Tells pass request previous state.recorder.hashes
      (pass.treeFound requests previous state index TaskStage.looks)
      (pass.treeFound requests previous state index TaskStage.stores) := by
  have told := pass.run_told previous state distinct found
  generalize pass.treeFound requests previous state index TaskStage.looks = looked at told ⊢
  generalize pass.treeFound requests previous state index TaskStage.stores = tree at told ⊢
  have kept : ∀ prior, (taskFor previous state.recorder.hashes request).kept? pass.docs looked =
      some prior ↔ Staleness.classify previous request state.recorder.hashes = .reusable ∧
        (previous.bind fun manifest => manifest[request.path]?) = some prior ∧
        ∃ text, pass.docs.load looked request.path = .ok text ∧
          Fingerprint.ofText text = prior.contentHash := fun prior =>
    PageTask.kept?_eq_some_iff pass.docs looked _ prior
  have reported : request.path ∈ (pass.run requests previous false state).1.reused ↔
      (taskFor previous state.recorder.hashes request).kept? pass.docs looked ≠ none := by
    rw [run_eq]
    exact (RunReport.mem_pagesWith_iff ..).trans ((told _).trans TaskStage.fate_eq_reused_iff)
  have unreported : request.path ∉ (pass.run requests previous false state).1.reused ↔
      (taskFor previous state.recorder.hashes request).kept? pass.docs looked = none :=
    (not_congr reported).trans Classical.not_not
  -- a page is made or fails exactly when its task has nothing to keep, that is, when it is not reused
  constructor
  · rw [reported, Option.ne_none_iff_exists']
    simp only [kept]
    constructor
    · rintro ⟨prior, reusable, known, text, loaded, hashed⟩
      exact ⟨reusable, prior, text, known, loaded, hashed⟩
    · rintro ⟨reusable, prior, text, known, loaded, hashed⟩
      exact ⟨prior, reusable, known, text, loaded, hashed⟩
  · rw [unreported, run_eq]
    exact (RunReport.mem_pagesWith_iff ..).trans ((told _).trans TaskStage.fate_eq_regenerated_iff)
  · intro message
    rw [unreported, run_eq]
    apply (RunReport.mem_failures_iff ..).trans
    simp only [told, TaskStage.fate_eq_failed_iff]
    constructor
    · rintro ⟨fault, ⟨stale, failed⟩, said⟩
      exact ⟨stale, fault, said, failed⟩
    · rintro ⟨stale, fault, said, failed⟩
      exact ⟨fault, ⟨stale, failed⟩, said⟩

/-- An uncancelled pass accounts for all pages, in whatever order their tasks take turns: each has the
decision that it should have and comes out in exactly one way, as its decision, its file, the generator
and the disk have it when its task comes to them. Its file is then what it was at the start, when the
docs directory can be reached if it is there: no task before touches it. -/
theorem run_outcomes (plain : ∀ request ∈ requests, IsPlain request.path)
    (distinct : (requests.map PageRequest.path).Nodup) :
    (pass.run requests previous false state).1.Accounts requests previous state.recorder.hashes ∧
      ∀ (index : Nat) request, requests[index]? = some request →
        (pass.run requests previous false state).1.Tells pass request previous state.recorder.hashes
          (pass.treeFound requests previous state index TaskStage.looks)
          (pass.treeFound requests previous state index TaskStage.stores) ∧
        (state.tree.Sound → (state.tree.find? pass.docs.root.place = some .dir →
            state.tree.isDir pass.docs.root = true) → ∀ text,
          (pass.docs.load (pass.treeFound requests previous state index TaskStage.looks) request.path =
              .ok text ↔
            pass.docs.load state.tree request.path = .ok text)) := by
  refine ⟨pass.run_accounts previous state distinct, fun index request found => ⟨?_, ?_⟩⟩
  · exact pass.run_tells previous state distinct found
  · intro sound reached text
    have own := plain request (List.mem_of_getElem? found)
    have there : (requests.map (taskFor previous state.recorder.hashes))[index]? =
        some (taskFor previous state.recorder.hashes request) := by simp [found]
    exact pass.runTasks_loads state (tasks_nodup previous distinct state.recorder.hashes)
      (tasks_plain previous plain state.recorder.hashes) there sound
      (fun content held => reached (sound.above own.names_ne_nil held)) _ text

def requestOf (path : String) : PageRequest := ⟨path, [], none, [], .null⟩

/-- A pass that can make no page but `a.md`. -/
def halting : Pass where
  docs := ⟨⟨"/d"⟩⟩
  generator request := if request.path = "a.md" then .ok "text" else .error .noWorkers
  now := Project.newYear

/-- A pass in which the second page comes before the first. -/
def hasty : Pass where
  docs := ⟨⟨"/d"⟩⟩
  generator _ := .ok "text"
  now := Project.newYear
  turns := List.replicate 5 ⟨1, Project.newYear⟩

/-- The page that comes first opens a directory in the place of the other one. -/
theorem run_outcomes_hasty : ∃ report,
    (hasty.run [requestOf "a.md", requestOf "a.md/b.md"] none false ⟨{}, { hashes := ∅ }, ∅⟩).1 = report ∧
      report.decisions["a.md"]? = some .noPriorManifest ∧ "a.md/b.md" ∈ report.regenerated ∧
      ("a.md", (Fault.io .isDirectory).message) ∈ report.failed ∧ report.skipped = [] := by
  have plain : ∀ request ∈ [requestOf "a.md", requestOf "a.md/b.md"], IsPlain request.path := by
    simp only [List.forall_mem_cons]
    exact ⟨⟨["a.md"], by simp, by decide, rfl⟩, ⟨["a.md", "b.md"], by simp, by decide, rfl⟩,
      List.forall_mem_nil _⟩
  obtain ⟨accounts, tells⟩ := hasty.run_outcomes none ⟨{}, { hashes := ∅ }, ∅⟩ plain (by decide)
  have first := (tells 0 (requestOf "a.md") rfl).1
  have second := (tells 1 (requestOf "a.md/b.md") rfl).1
  refine ⟨_, rfl, accounts.decisions "a.md", ?_, ?_, accounts.skipped⟩
  · refine second.regenerated.mpr ⟨fun reused => ?_, "text", rfl, ?_⟩
    · cases (second.reused.mp reused).1
    · decide +kernel
  · refine (first.failed _).mpr ⟨fun reused => ?_, .io .isDirectory, rfl, Or.inr ⟨"text", rfl, ?_⟩⟩
    · cases (first.reused.mp reused).1
    · decide +kernel

end Pass

end SourceAtlas
