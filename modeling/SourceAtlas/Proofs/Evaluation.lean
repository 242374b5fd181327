import SourceAtlas.Json.Reader
import SourceAtlas.Proofs.Run
/-!
What is to be evaluated about a run on a given file tree. Sorting is left to a lemma here: sources are
sorted before anything else can be seen of a run.
-/

namespace SourceAtlas.Project

open FileTree

variable {project : Project}

theorem ok_of_toOption {ε α : Type} {result : Except ε α} {answer : α}
    (seen : result.toOption = some answer) : result = .ok answer := by
  cases result with
  | error fault => cases seen
  | ok other =>
      cases seen
      rfl

theorem exists_of_isOk {α : Type} (operation : Work α) (tree : FileTree)
    (ended : (operation.run.run tree).1.isOk = true) :
    ∃ answer, operation.run.run tree = (.ok answer, (operation.run.run tree).2) := by
  cases ran : operation.run.run tree with
  | mk result after =>
      rw [ran] at ended
      cases result with
      | error fault => cases ended
      | ok answer => exact ⟨answer, rfl⟩

/-- An operation ends well when something is seen of its answer. -/
theorem exists_of_view {α β : Type} (operation : Work α) (tree : FileTree) (view : α → β) (seen : β)
    (evaluated : (operation.run.run tree).1.toOption.map view = some seen) :
    ∃ answer, operation.run.run tree = (.ok answer, (operation.run.run tree).2) ∧
      view answer = seen := by
  cases ran : operation.run.run tree with
  | mk result after =>
      rw [ran] at evaluated
      cases result with
      | error fault => cases evaluated
      | ok answer => exact ⟨answer, rfl, Option.some.inj evaluated⟩

def faultOf? {α : Type} : Except Fault α → Option Fault
  | .error fault => some fault
  | .ok _ => none

theorem eq_of_faultOf? {α : Type} {operation : Work α} {tree : FileTree} {fault : Fault}
    (evaluated : faultOf? (operation.run.run tree).1 = some fault) :
    operation.run.run tree = (.error fault, (operation.run.run tree).2) := by
  cases ran : operation.run.run tree with
  | mk result after =>
      rw [ran] at evaluated
      cases result with
      | error found =>
          cases evaluated
          rfl
      | ok answer => cases evaluated

/-- Trees with the same entries are the same. -/
theorem eq_of_entries {left right : FileTree} (same : left.entries.toList = right.entries.toList) :
    left = right := by
  have entries : left.entries = right.entries := by
    refine Std.ExtTreeMap.ext_getElem? fun place => Option.ext fun entry => ?_
    rw [← Std.ExtTreeMap.mem_toList_iff_getElem?_eq_some, same,
      Std.ExtTreeMap.mem_toList_iff_getElem?_eq_some]
  exact congrArg FileTree.mk entries

/-- What holds of all entries of a tree holds of what stands below its root. -/
theorem forall_of_entries {tree : FileTree} (test : Place → FileEntry → Bool)
    (all : (tree.entries.toList.all fun entry => test entry.1 entry.2) = true) {place : Place}
    {entry : FileEntry} (below : place ≠ []) (held : tree.find? place = some entry) :
    test place entry = true := by
  rw [find?_of_ne_nil tree below] at held
  exact List.all_eq_true.mp all (place, entry)
    (Std.ExtTreeMap.mem_toList_iff_getElem?_eq_some.mpr held)

/-- The files below a directory are among those that the entries of the tree show there. -/
theorem mem_of_file_below {tree : FileTree} {dir : Place} {shown : List Place}
    (all : (tree.entries.toList.all fun entry =>
      entry.2 = .dir || !dir.isPrefixOf entry.1 || entry.1.drop dir.length ∈ shown) = true)
    {names : Place} {content : ByteArray} (filled : names ≠ [])
    (held : tree.find? (dir ++ names) = some (.file content)) : names ∈ shown := by
  have known := forall_of_entries
    (fun place entry => entry = .dir || !dir.isPrefixOf place || place.drop dir.length ∈ shown) all
    (List.append_ne_nil_of_right_ne_nil dir filled) held
  rw [List.isPrefixOf_iff_prefix.mpr (List.prefix_append ..), List.drop_left] at known
  simpa using known

/-- Small files have few lines. -/
theorem sized_of_entries {tree : FileTree}
    (all : (tree.entries.toList.all fun entry => match entry.2 with
      | .dir => true
      | .file content => content.size < 100) = true) :
    ∀ place content, tree.find? place = some (.file content) → content.size + 1 < Json.lineLimit := by
  intro place content held
  have small := forall_of_entries (fun _ entry => match entry with
    | .dir => true
    | .file content => content.size < 100) all (by rintro rfl; simp at held) held
  simp only [decide_eq_true_eq] at small
  exact Nat.lt_trans (Nat.succ_lt_succ small) (by decide)

/-- A source file without its fingerprint, which is slow to evaluate. -/
def unprinted (source : SourceFile) : SourceFile := { source with hash := "" }

def printed (tree : FileTree) (source : SourceFile) : SourceFile :=
  { source with hash := Fingerprint.ofText ((tree.readText source.location).toOption.getD "") }

theorem printed_eq_self {tree : FileTree} {source : SourceFile} {text : String}
    (read : tree.readText source.location = .ok text) (hash : source.hash = Fingerprint.ofText text) :
    printed tree source = source := by
  rw [printed, read, Except.toOption, Option.getD_some, ← hash]

/-- Sources that are met in the order of their paths are the ones that are analysed. Their fingerprints
follow from their texts. -/
theorem analyze_of_walked {tree : FileTree} (sound : tree.Sound) {sources : List SourceFile}
    (walked : (project.config.project.sourceDirs.mapM fun dir => (Analysis.indexOf project.config).inDir
      tree project.root (project.root.join dir)).toOption.map (fun lists => lists.flatten.map unprinted) =
        some (sources.map unprinted))
    (printedAll : ∀ source ∈ sources, printed tree source = source)
    (ordered : sources.Pairwise fun left right => left.path < right.path) :
    project.analyze tree = .ok (.ofFiles project.config
      (sources.map (Analysis.fileOf project.config project.parser tree))) := by
  obtain ⟨lists, met, same⟩ := Option.map_eq_some_iff.mp walked
  have paths : lists.flatten.map SourceFile.path = sources.map SourceFile.path := by
    have again := congrArg (List.map SourceFile.path) same
    rwa [List.map_map, List.map_map] at again
  have inOrder : lists.flatten.Pairwise fun left right => left.path < right.path :=
    List.pairwise_map.mp (paths ▸ List.pairwise_map.mpr ordered)
  have found := (Analysis.indexOf project.config).find_of_ordered (ok_of_toOption met) inOrder
  have described : ∀ source ∈ lists.flatten, printed tree source = source := by
    intro source member
    obtain ⟨text, read, -, hash, -⟩ :=
      ((Analysis.indexOf project.config).describes_of_find sound found member).text
    exact printed_eq_self read hash
  have whole : lists.flatten = sources := by
    have again := congrArg (List.map (printed tree)) same
    rw [List.map_map, List.map_map] at again
    exact ((List.map_congr_left described).trans (List.map_id' _)).symm.trans
      (again.trans ((List.map_congr_left printedAll).trans (List.map_id' _)))
  exact (Analysis.ofTree_eq_ok_iff ..).mpr ⟨sources, whole ▸ found, rfl⟩

end SourceAtlas.Project
