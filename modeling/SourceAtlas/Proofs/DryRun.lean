import SourceAtlas.Proofs.RunEndings
/-!
A dry run predicts the real one. It answers the decisions that the run reports and writes nothing, and
it fails in the analysis of the sources exactly when the run does.
-/

namespace SourceAtlas

open FileTree

/-- The faults that the analysis of sources can end in: patterns and ignore files that cannot be read as
rules. -/
inductive Fault.OfAnalysis : Fault → Prop
  | pattern (pattern : String) (bad : IgnoreRule.BadLine) : OfAnalysis (.badIgnorePattern pattern bad)
  | ignoreFiles (lines : List BadIgnoreLine) : OfAnalysis (.badIgnoreFiles lines)

namespace SourceIndex

variable (index : SourceIndex)

theorem ofAnalysis_of_rules {patterns : List String} {fault : Fault}
    (failed : rules patterns = .error fault) : fault.OfAnalysis := by
  induction patterns with
  | nil => cases failed
  | cons pattern rest ih =>
      unfold rules at failed
      cases rule : IgnoreRule.ofLine? false ("!" ++ pattern) with
      | error bad =>
          rw [rule] at failed
          cases failed
          exact .pattern pattern bad
      | ok kept =>
          rw [rule] at failed
          rcases error_of_bind failed with later | ⟨others, -, wrong⟩
          · exact ih later
          · cases wrong

theorem ofAnalysis_of_inDir {tree : FileTree} {root dir : Path} {fault : Fault}
    (failed : index.inDir tree root dir = .error fault) : fault.OfAnalysis := by
  unfold inDir at failed
  split at failed
  · cases failed
  · rcases error_of_bind failed with unruled | ⟨kept, -, unclean⟩
    · exact ofAnalysis_of_rules unruled
    · split at unclean
      · cases unclean
      · cases unclean
        exact .ignoreFiles _

end SourceIndex

namespace Project

variable {project : Project}

theorem ofAnalysis_of_analyze {tree : FileTree} {fault : Fault}
    (failed : project.analyze tree = .error fault) : fault.OfAnalysis := by
  rcases SourceIndex.error_of_bind failed with unfound | ⟨sources, -, wrong⟩
  · rcases SourceIndex.error_of_bind unfound with unwalked | ⟨lists, -, wrong⟩
    · obtain ⟨dir, -, missed⟩ := SourceIndex.exists_of_mapM_eq_error unwalked
      exact SourceIndex.ofAnalysis_of_inDir _ missed
    · cases wrong
  · cases wrong

theorem not_ofAnalysis_of_run {previous : Option Manifest} {cancelled : Bool} {schedule : Schedule}
    {tree : FileTree} {analysis : Analysis} (analyzed : project.analyze tree = .ok analysis)
    {fault : Fault}
    (failed : ((project.run previous cancelled schedule).run.run tree).1 = .error fault) :
    ¬ fault.OfAnalysis := by
  rw [run_of_analyzed analyzed] at failed
  have concluded := project.concluded previous analysis
    (project.passed previous cancelled schedule tree analysis).1
    (project.passed previous cancelled schedule tree analysis).2
    (project.swept previous analysis (project.passed previous cancelled schedule tree analysis).2)
  rw [failed] at concluded
  cases concluded with
  | unsaved => exact nofun
  | undrawn => exact nofun

theorem run_eq_error_iff {previous : Option Manifest} {cancelled : Bool} {schedule : Schedule}
    {tree : FileTree} {fault : Fault} (ofAnalysis : fault.OfAnalysis) :
    ((project.run previous cancelled schedule).run.run tree).1 = .error fault ↔
      project.analyze tree = .error fault := by
  constructor
  · intro failed
    cases analyzed : project.analyze tree with
    | error found =>
        rw [run_of_error analyzed] at failed
        cases failed
        rfl
    | ok analysis => exact absurd ofAnalysis (not_ofAnalysis_of_run analyzed failed)
  · intro failed
    rw [run_of_error failed]

theorem status_eq_error_iff {tree : FileTree} {fault : Fault} :
    project.status tree = .error fault ↔ project.analyze tree = .error fault := by
  unfold status
  cases project.analyze tree with
  | error found => constructor <;> (rintro ⟨⟩; rfl)
  | ok analysis => exact iff_of_false nofun nofun

/-- What `generate` without force and `sync` do when they do not only look. -/
theorem run_of_real {schedule : Schedule} {work : Work RunReport}
    (real : work = project.generate false false schedule ∨ work = project.sync false false false schedule)
    (tree : FileTree) :
    work.run.run tree = (project.run (project.previous tree) false schedule).run.run tree := by
  rcases real with rfl | rfl
  · unfold generate
    rw [run_bind, run_get]
    rfl
  · rw [run_sync]
    rcases (project.run (project.previous tree) false schedule).run.run tree with ⟨fault | report, after⟩ <;>
      rfl

/-- A dry run predicts the real one. It leaves the file tree as it is. If a run from the same state ends
well, what the dry run answers is what the run decided about each page; and the faults of analysis are
those of the run. -/
theorem dry_run_predicts (project : Project) (tree : FileTree) (failOnChanges cancelled : Bool)
    (schedule other : Schedule) {work : Work RunReport}
    (real : work = project.generate false false other ∨ work = project.sync false false false other) :
    ((project.sync true failOnChanges cancelled schedule).run.run tree).2 = tree ∧
      (∀ report after, work.run.run tree = (.ok report, after) →
        project.status tree = .ok report.decisions ∧
        ∀ told, ((project.sync true failOnChanges cancelled schedule).run.run tree).1 = .ok told →
          told.decisions = report.decisions) ∧
      (∀ fault, project.status tree = .error fault → fault.OfAnalysis) ∧
      ∀ fault : Fault, fault.OfAnalysis →
        (project.status tree = .error fault ↔ (work.run.run tree).1 = .error fault) ∧
        (((project.sync true failOnChanges cancelled schedule).run.run tree).1 = .error fault ↔
          (work.run.run tree).1 = .error fault) := by
  rw [run_of_real real, run_sync_dry]
  refine ⟨?_, ?_, ?_, ?_⟩
  · split
    · split <;> rfl
    · rfl
  · intro report after ran
    obtain ⟨completed⟩ := project.completed_of_run ran
    have told : project.status tree = .ok report.decisions := by
      rw [status, completed.analyzed, decisions_of_run ran completed.analyzed]
      rfl
    refine ⟨told, fun answer same => ?_⟩
    rw [told] at same
    simp only at same
    split at same <;> cases same
    rfl
  · intro fault failed
    exact ofAnalysis_of_analyze (status_eq_error_iff.mp failed)
  · intro fault ofAnalysis
    rw [run_eq_error_iff ofAnalysis, ← status_eq_error_iff]
    refine ⟨Iff.rfl, ?_⟩
    cases project.status tree with
    | error found => constructor <;> (rintro ⟨⟩; rfl)
    | ok decisions =>
        simp only
        -- that changes were found is a fault of the dry run alone, and none of analysis
        split
        · refine iff_of_false (fun same => ?_) (by simp)
          cases same
          cases ofAnalysis
        · exact iff_of_false (by simp) (by simp)

def unruly : Project :=
  { paged with
    config := { project := { docsDir := ⟨"docs"⟩, sourceDirs := [⟨"docs"⟩], ignorePatterns := ["["] } } }

theorem dry_run_predicts_strayTree :
    (∃ report after, (paged.generate false false newYear).run.run strayTree = (.ok report, after) ∧
        paged.status strayTree = .ok report.decisions) ∧
      ∃ fault, unruly.status strayTree = .error fault ∧
        ((unruly.sync false false false newYear).run.run strayTree).1 = .error fault := by
  constructor
  · obtain ⟨report, ran⟩ := exists_of_isOk (paged.generate false false newYear) strayTree
      (by decide +kernel)
    exact ⟨report, _, ran,
      ((dry_run_predicts paged strayTree true false newYear newYear (Or.inl rfl)).2.1 report _ ran).1⟩
  · obtain ⟨-, -, ofAnalysis, same⟩ := dry_run_predicts unruly strayTree true false newYear newYear
      (Or.inr rfl)
    cases asked : unruly.status strayTree with
    | error fault =>
        have failed := (same fault (ofAnalysis fault asked)).1.mp asked
        exact ⟨fault, rfl, failed⟩
    | ok decisions =>
        have ended : (unruly.status strayTree).isOk = false := by decide +kernel
        rw [asked] at ended
        cases ended

end Project

end SourceAtlas
