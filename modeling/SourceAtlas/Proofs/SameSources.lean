import SourceAtlas.Proofs.Analysis
import SourceAtlas.Proofs.Disk
/-!
Changes that touch no source file leave the sources of a project as they are, as long as no ignore
file and no top of a repository is among what they change, and no source directory comes about.
-/

namespace SourceAtlas

/-- What two maps make of each key decides what is collected from them. -/
theorem filterMap_toList_congr {α β : Type} [Ord α] [Std.TransOrd α] [Std.LawfulEqOrd α] {γ : Type}
    {before after : Std.ExtTreeMap α β} (collect : α → β → Option γ)
    (same : ∀ key, before[key]?.bind (collect key) = after[key]?.bind (collect key)) :
    before.toList.filterMap (fun entry => collect entry.1 entry.2) =
      after.toList.filterMap (fun entry => collect entry.1 entry.2) := by
  have collected : ∀ map : Std.ExtTreeMap α β,
      map.toList.filterMap (fun entry => collect entry.1 entry.2) =
        (map.filterMap collect).toList.map Prod.snd := by
    intro map
    rw [Std.ExtTreeMap.toList_filterMap, List.map_filterMap]
    simp [Function.comp_def]
  have equal : before.filterMap collect = after.filterMap collect := by
    refine Std.ExtTreeMap.ext_getElem? fun key => ?_
    rw [Std.ExtTreeMap.getElem?_filterMap', Std.ExtTreeMap.getElem?_filterMap']
    exact same key
  rw [collected, collected, equal]

namespace FileTree

/-- Two trees have the same ignore files, and the same directories are tops of repositories. -/
structure SameIgnores (before after : FileTree) : Prop where
  ignoreFiles : ∀ dir, after.ignoreFile (ignorePlace dir) = before.ignoreFile (ignorePlace dir)
  gitIgnores : ∀ dir, after.ignoreFile (gitIgnorePlace dir) = before.ignoreFile (gitIgnorePlace dir)
  excludes : ∀ dir, after.ignoreFile (excludePlace dir) = before.ignoreFile (excludePlace dir)
  repositories : ∀ dir, after.isRepository dir = before.isRepository dir

namespace SameIgnores

variable {before after : FileTree}

theorem badIgnoreLinesAbove (same : SameIgnores before after) (place : Place) :
    after.badIgnoreLinesAbove place = before.badIgnoreLinesAbove place := by
  unfold FileTree.badIgnoreLinesAbove
  simp only [List.flatMap_cons, List.flatMap_nil, same.ignoreFiles, same.gitIgnores, same.excludes]

theorem verdictIn {file : Place → Place}
    (equal : ∀ dir, after.ignoreFile (file dir) = before.ignoreFile (file dir)) (dirs : List Place)
    (place : Place) (isDir : Bool) :
    after.verdictIn dirs file place isDir = before.verdictIn dirs file place isDir := by
  unfold FileTree.verdictIn
  simp only [equal]

theorem ignoreVerdict (same : SameIgnores before after) (place : Place) (isDir : Bool) :
    after.ignoreVerdict place isDir = before.ignoreVerdict place isDir := by
  have tops : after.dirsInRepository place = before.dirsInRepository place := by
    unfold dirsInRepository
    rw [show after.isRepository = before.isRepository from funext same.repositories]
  unfold FileTree.ignoreVerdict
  rw [verdictIn same.ignoreFiles, verdictIn same.gitIgnores, verdictIn same.excludes, tops]

theorem reaches (same : SameIgnores before after) (rules : IgnoreRules) (base names : Place) :
    SourceIndex.reaches after rules base names = SourceIndex.reaches before rules base names := by
  have ignores : SourceIndex.ignores after rules = SourceIndex.ignores before rules := by
    funext base names isDir
    unfold SourceIndex.ignores
    rw [same.ignoreVerdict]
  unfold SourceIndex.reaches
  rw [ignores]

end SameIgnores

end FileTree

namespace SourceIndex

open FileTree

variable (index : SourceIndex)

/-- What an entry of the tree adds to a walk below a directory. -/
def offered (tree : FileTree) (root dir : Path) (base : Place) (rules : IgnoreRules) (place : Place) :
    FileEntry → Option SourceFile
  | .dir => none
  | .file content =>
      if base.isPrefixOf place && place != base && reaches tree rules base (place.drop base.length) then
        index.sourceFile? root (dir.join ⟨String.intercalate "/" (place.drop base.length)⟩) content
      else none

theorem walk_of_dir {tree : FileTree} {root dir : Path} {base : Place} {rules : IgnoreRules}
    (stood : tree.find? base = some .dir) :
    index.walk tree root dir base rules = tree.entries.toList.filterMap fun entry =>
      index.offered tree root dir base rules entry.1 entry.2 := by
  unfold walk reachable
  simp only [stood, below, List.filterMap_filterMap]
  congr 1
  funext ⟨place, entry⟩
  cases entry with
  | dir => by_cases inside : (base.isPrefixOf place && place != base) = true <;> simp [offered, inside]
  | file content =>
      by_cases inside : (base.isPrefixOf place && place != base) = true
      · by_cases open_ : reaches tree rules base (place.drop base.length) = true <;>
          simp [offered, inside, open_]
      · simp [offered, inside]

theorem mem_walk_iff (tree : FileTree) (root dir : Path) (base : Place) (rules : IgnoreRules)
    (source : SourceFile) :
    source ∈ index.walk tree root dir base rules ↔ ∃ path content,
      (path, content) ∈ reachable tree dir base rules ∧
        index.sourceFile? root path content = some source := by
  simp [walk, List.mem_filterMap]

theorem mem_walk_of_offered {tree : FileTree} (sound : tree.Sound) {root dir : Path} {rules : IgnoreRules}
    (stood : tree.find? dir.place = some .dir) {place : Place} {entry : FileEntry}
    (listed : tree.entries[place]? = some entry) {source : SourceFile}
    (made : index.offered tree root dir dir.place rules place entry = some source) :
    source ∈ index.walk tree root dir dir.place rules ∧ source.location.place = place ∧
      ∃ content, entry = .file content := by
  cases entry with
  | dir => cases made
  | file content =>
      simp only [offered, Option.ite_none_right_eq_some, Bool.and_eq_true] at made
      obtain ⟨open_, made⟩ := made
      obtain ⟨names, rfl⟩ := List.isPrefixOf_iff_prefix.mp open_.1.1
      have held : tree.find? (dir.place ++ names) = some (.file content) := by
        rw [find?_of_ne_nil tree (sound.named _ _ listed).1, listed]
      have ordinary : ∀ name ∈ names, IsName name := fun name inNames =>
        (sound.isFileName held name (List.mem_append_right _ inNames)).1
      refine ⟨?_, ?_, content, rfl⟩
      · rw [walk_of_dir index stood]
        refine List.mem_filterMap.mpr ⟨(_, .file content),
          Std.ExtTreeMap.mem_toList_iff_getElem?_eq_some.mpr listed, ?_⟩
        simp only [offered, Option.ite_none_right_eq_some, Bool.and_eq_true]
        exact ⟨open_, made⟩
      · obtain ⟨language, text, -, -, -, rfl⟩ := (index.sourceFile?_eq_some_iff ..).mp made
        rw [List.drop_left, Path.place_join_intercalate ordinary]

/-- The index finds a source file at a place. -/
def IsSource (tree : FileTree) (root : Path) (dirs : List Path) (place : Place) : Prop :=
  ∃ dir ∈ dirs, ∃ sources, index.inDir tree root (root.join dir) = .ok sources ∧
    ∃ source ∈ sources, source.location.place = place

theorem isSource_of_find {tree : FileTree} {root : Path} {dirs : List Path} {sources : List SourceFile}
    (found : index.find tree root dirs = .ok sources) {source : SourceFile} (member : source ∈ sources) :
    index.IsSource tree root dirs source.location.place := by
  obtain ⟨dir, inDirs, part, made, inPart⟩ := index.exists_inDir_of_find found member
  exact ⟨dir, inDirs, part, made, source, inPart, rfl⟩

section Changes

variable {touched : Place → Prop} {before after : FileTree} (changes : Changes touched before after)
  (sound : before.Sound) (same : SameIgnores before after) {root dir : Path} {rules : IgnoreRules}

include changes sound same

/-- A walk below a directory finds the same when no file that it finds is touched. -/
theorem walk_of_changes (stood : before.find? dir.place = some .dir)
    (apartBefore : ∀ source ∈ index.walk before root dir dir.place rules,
      ¬ touched source.location.place)
    (apartAfter : ∀ source ∈ index.walk after root dir dir.place rules,
      ¬ touched source.location.place) :
    index.walk after root dir dir.place rules = index.walk before root dir dir.place rules := by
  have offers : index.offered after root dir dir.place rules =
      index.offered before root dir dir.place rules := by
    funext place entry
    cases entry <;> simp only [offered, same.reaches]
  have stoodAfter := changes.dirs _ stood
  have soundAfter := changes.sound sound
  rw [walk_of_dir index stood, walk_of_dir index stoodAfter, offers]
  -- what one walk finds is not touched, so the other one is offered it too
  refine (filterMap_toList_congr _ fun place => Option.ext fun source => ?_).symm
  constructor
  · intro made
    obtain ⟨entry, listed, made⟩ := Option.bind_eq_some_iff.mp made
    obtain ⟨member, placed, content, rfl⟩ := index.mem_walk_of_offered sound stood listed made
    have below := (sound.named _ _ listed).1
    have held := changes.file (placed ▸ apartBefore source member)
      ((find?_of_ne_nil before below).trans listed)
    rw [find?_of_ne_nil after below] at held
    rw [held]
    exact made
  · intro made
    obtain ⟨entry, listed, made⟩ := Option.bind_eq_some_iff.mp made
    obtain ⟨member, placed, content, rfl⟩ :=
      index.mem_walk_of_offered soundAfter stoodAfter listed (by rw [offers]; exact made)
    have below := (soundAfter.named _ _ listed).1
    have held := changes.file_before (placed ▸ apartAfter source member)
      ((find?_of_ne_nil after below).trans listed)
    rw [find?_of_ne_nil before below] at held
    rw [held]
    exact made

omit same in
/-- A walk that begins at a file which is no source finds nothing later either. -/
theorem walk_of_plain_file {content : ByteArray} (held : before.find? dir.place = some (.file content))
    (noSource : index.sourceFile? root dir content = none) {entry : FileEntry}
    (stood : after.stat dir = .ok entry)
    (apartAfter : ∀ source ∈ index.walk after root dir dir.place rules,
      ¬ touched source.location.place) :
    index.walk after root dir dir.place rules = [] := by
  have soundAfter := changes.sound sound
  refine List.eq_nil_iff_forall_not_mem.mpr fun source member => ?_
  have apart := apartAfter source member
  obtain ⟨path, other, met, made⟩ := (index.mem_walk_iff ..).mp member
  obtain ⟨language, text, -, -, -, rfl⟩ := (index.sourceFile?_eq_some_iff ..).mp made
  obtain ⟨-, present⟩ := reaches_of_reachable soundAfter (place?_of_stat stood) met
  have older := changes.file_before apart present
  rcases (mem_reachable_iff ..).mp met with ⟨rfl, -⟩ | ⟨-, names, filled, lower, -, rfl⟩
  · rw [held] at older
    cases older
    rw [noSource] at made
    cases made
  · have ordinary : ∀ name ∈ names, IsName name := fun name inNames =>
      (soundAfter.isFileName lower name (List.mem_append_right _ inNames)).1
    rw [Path.place_join_intercalate ordinary] at older
    rw [sound.above filled older] at held
    cases held

/-- A source directory holds the same sources when no source in it is touched, and one that comes
about holds none. -/
theorem inDir_of_changes {sources : List SourceFile} (found : index.inDir before root dir = .ok sources)
    (apartBefore : ∀ source ∈ sources, ¬ touched source.location.place)
    (apartAfter : ∀ others, index.inDir after root dir = .ok others →
      ∀ source ∈ others, ¬ touched source.location.place)
    (opened : before.place? dir = none → index.inDir after root dir = .ok []) :
    index.inDir after root dir = .ok sources := by
  rcases (index.inDir_eq_ok_iff ..).mp found with
    ⟨missing, rfl⟩ | ⟨base, kept, there, ruled, clean, rfl⟩
  · exact opened missing
  · obtain ⟨rfl, entry, stood⟩ := stat_of_place? there
    rw [← same.badIgnoreLinesAbove] at clean
    have searched : ∀ {entry}, after.stat dir = .ok entry →
        index.inDir after root dir = .ok (index.walk after root dir dir.place kept) := fun stoodAfter =>
      (index.inDir_eq_ok_iff ..).mpr
        (Or.inr ⟨dir.place, kept, place?_of_stat stoodAfter, ruled, clean, rfl⟩)
    -- a source directory can be a file, which the walk then starts and ends with
    cases entry with
    | dir =>
        have listed := searched (stat_dir_mono changes.dirs stood)
        rw [listed, index.walk_of_changes changes sound same (sound.stat_dir stood) apartBefore
          (apartAfter _ listed)]
    | file content =>
        obtain ⟨reached, held⟩ := (stat_eq_file_iff before dir content).mp stood
        have met : (dir, content) ∈ reachable before dir dir.place kept :=
          (mem_reachable_iff ..).mpr (Or.inl ⟨rfl, held⟩)
        have single : ∀ tree : FileTree, tree.find? dir.place = some (.file content) →
            index.walk tree root dir dir.place kept = (index.sourceFile? root dir content).toList := by
          intro tree present
          simp only [walk, reachable, present, List.filterMap_cons, List.filterMap_nil]
          cases index.sourceFile? root dir content <;> rfl
        cases made : index.sourceFile? root dir content with
        | some source =>
            obtain ⟨language, text, -, -, -, placed⟩ := (index.sourceFile?_eq_some_iff ..).mp made
            have apart := apartBefore source ((index.mem_walk_iff ..).mpr ⟨dir, content, met, made⟩)
            have heldAfter := changes.file (by rw [placed] at apart; exact apart) held
            rw [searched ((stat_eq_file_iff after dir content).mpr ⟨reached.mono changes.dirs, heldAfter⟩),
              single before held, single after heldAfter]
        | none =>
            have nothing : index.walk before root dir dir.place kept = [] := by
              rw [single before held, made]
              rfl
            rw [nothing]
            -- whatever stands there now is no source either
            cases stoodAfter : after.stat dir with
            | error fault =>
                refine (index.inDir_eq_ok_iff ..).mpr (Or.inl ⟨?_, rfl⟩)
                simp [place?, stoodAfter]
            | ok other =>
                have listed := searched stoodAfter
                rw [listed, index.walk_of_plain_file changes sound held made stoodAfter
                  (apartAfter _ listed)]

/-- The sources of a project stay as they are when none of them is touched and no source directory
with sources comes about. -/
theorem find_of_changes {dirs : List Path} {sources : List SourceFile}
    (found : index.find before root dirs = .ok sources)
    (apart : ∀ place, touched place →
      ¬ index.IsSource before root dirs place ∧ ¬ index.IsSource after root dirs place)
    (opened : ∀ dir ∈ dirs, before.place? (root.join dir) = none →
      index.inDir after root (root.join dir) = .ok []) :
    index.find after root dirs = .ok sources := by
  obtain ⟨lists, parts, rfl⟩ := (index.find_eq_ok_iff ..).mp found
  refine (index.find_eq_ok_iff ..).mpr ⟨lists, ?_, rfl⟩
  refine mapM_eq_ok_of_forall (fun dir member part made => ?_) parts
  refine index.inDir_of_changes changes sound same made (fun source inPart inside => ?_)
    (fun others listed source inOthers inside => ?_) (opened dir member)
  · exact (apart _ inside).1 ⟨dir, member, part, made, source, inPart, rfl⟩
  · exact (apart _ inside).2 ⟨dir, member, others, listed, source, inOthers, rfl⟩

end Changes

end SourceIndex

namespace Analysis

theorem ofTree_of_changes {touched : Place → Prop} {before after : FileTree}
    (changes : FileTree.Changes touched before after) (sound : before.Sound)
    (same : FileTree.SameIgnores before after) {config : Config} {root : Path} {parser : Parser}
    {analysis : Analysis} (analyzed : ofTree config root parser before = .ok analysis)
    (apart : ∀ place, touched place →
      ¬ (indexOf config).IsSource before root config.project.sourceDirs place ∧
        ¬ (indexOf config).IsSource after root config.project.sourceDirs place)
    (opened : ∀ dir ∈ config.project.sourceDirs, before.place? (root.join dir) = none →
      (indexOf config).inDir after root (root.join dir) = .ok []) :
    ofTree config root parser after = .ok analysis := by
  obtain ⟨sources, found, rfl⟩ := (ofTree_eq_ok_iff ..).mp analyzed
  refine (ofTree_eq_ok_iff ..).mpr
    ⟨sources, (indexOf config).find_of_changes changes sound same found apart opened, ?_⟩
  congr 1
  refine List.map_congr_left fun source member => ?_
  obtain ⟨text, read, -⟩ := ((indexOf config).describes_of_find sound found member).text
  obtain ⟨reached, held⟩ := (FileTree.readText_eq_ok_iff before source.location text).mp read
  have outside := fun inside => (apart source.location.place inside).1
    ((indexOf config).isSource_of_find found member)
  have again : after.readText source.location = .ok text :=
    (FileTree.readText_eq_ok_iff after source.location text).mpr
      ⟨reached.mono changes.dirs, changes.file outside held⟩
  simp only [fileOf, ParsedFile.read?, read, again]

end Analysis

end SourceAtlas
