import SourceAtlas.Proofs.Analysis
import SourceAtlas.Proofs.FilePage
/-!
Snapshots of the sources of one project. What is shown of a file depends on its path and its text, and
what is planned depends on what is shown of the files.
-/

namespace SourceAtlas

/-- A plan sees its files as they are shown. -/
def PagePlan.shown (plan : PagePlan) : PagePlan :=
  { plan with files := plan.files.map AnalyzedFile.shown }

namespace PagePlan

variable (plan : PagePlan)

theorem owner?_shown (name : String) : plan.shown.owner? name = plan.owner? name := by
  unfold owner? shown
  rw [List.find?_map, Option.map_map]
  rfl

theorem filePage_shown (file : AnalyzedFile) : plan.shown.filePage file.shown = plan.filePage file := by
  have owners : plan.shown.owner? = plan.owner? := funext plan.owner?_shown
  have contributors : plan.shown.contributors file.shown = plan.contributors file := by
    unfold contributors
    rw [owners]
    rfl
  have views : plan.shown.entityViews file.shown = plan.entityViews file := by
    unfold entityViews entityView callerView
    simp only [owners]
    rfl
  unfold filePage
  rw [contributors, views]
  rfl

theorem overviewPage_shown : plan.shown.overviewPage = plan.overviewPage := by
  have entities : plan.shown.files.flatMap (fun file => file.analysis.entities) =
      plan.files.flatMap fun file => file.analysis.entities := by
    unfold shown
    rw [List.flatMap_map]
    rfl
  unfold overviewPage
  rw [entities]
  simp only [shown, List.map_map, List.length_map]
  rfl

/-- Nothing but what is shown of its files is in the pages of a plan. -/
theorem pages_shown : plan.shown.pages = plan.pages := by
  have kept : (plan.shown.files.filter fun file => !file.analysis.entities.isEmpty) =
      (plan.files.filter fun file => !file.analysis.entities.isEmpty).map AnalyzedFile.shown := by
    unfold shown
    rw [List.filter_map]
    rfl
  unfold pages
  rw [kept, List.map_map, overviewPage_shown]
  congr 1
  exact List.map_congr_left fun file _ => plan.filePage_shown file

end PagePlan

namespace Analysis

open FileTree

variable {config : Config} {root : Path} {parser : Parser} {before after : FileTree}
  {old new : Analysis}

theorem sound_plan (analyzed : ofTree config root parser before = .ok old) :
    (plan config old).Sound := by
  obtain ⟨sources, found, rfl⟩ := (ofTree_eq_ok_iff ..).mp analyzed
  refine ⟨?_, rfl⟩
  exact List.Pairwise.map _ (fun left right less => less) ((indexOf config).pairwise_of_find found)

theorem hash_of_mem_files (analyzed : ofTree config root parser before = .ok old) {file : AnalyzedFile}
    (member : file ∈ old.files) : old.hashes[file.source.path]? = some file.source.hash := by
  rw [(files_of_ofTree analyzed).2.1] at member
  obtain ⟨source, inSources, rfl⟩ := List.mem_map.mp member
  exact hash_of_mem_sources analyzed inSources

/-- Files with one path and one text are shown alike, wherever they stand. -/
theorem shown_fileOf {source other : SourceFile}
    (describes : (indexOf config).Describes before root source)
    (also : (indexOf config).Describes after root other) (path : source.path = other.path)
    {text : String} (read : before.readText source.location = .ok text)
    (alsoRead : after.readText other.location = .ok text) :
    (fileOf config parser before source).shown = (fileOf config parser after other).shown := by
  obtain ⟨language, detected, tag⟩ := describes.language
  obtain ⟨alsoLanguage, alsoDetected, alsoTag⟩ := also.language
  obtain ⟨own, ownRead, -, hash, lines⟩ := describes.text
  obtain ⟨alsoOwn, alsoOwnRead, -, alsoHash, alsoLines⟩ := also.text
  rw [read, Except.ok.injEq] at ownRead
  rw [alsoRead, Except.ok.injEq] at alsoOwnRead
  subst ownRead alsoOwnRead
  have sameDetected := alsoDetected
  rw [← describes.detect?_eq also path, detected, Option.some_inj] at sameDetected
  subst sameDetected
  have analysis : (fileOf config parser before source).analysis =
      (fileOf config parser after other).analysis := by
    simp only [fileOf, ParsedFile.read?, detected, alsoDetected, read, alsoRead]
  have shown : ∀ (tree : FileTree) (file : SourceFile),
      (fileOf config parser tree file).shown = AnalyzedFile.mk
        ⟨file.path, ⟨""⟩, file.language, file.hash, file.lineCount⟩
        (fileOf config parser tree file).analysis := fun _ _ => rfl
  rw [shown, shown, analysis, path, tag, alsoTag, hash, alsoHash, lines, alsoLines]

/-- Fingerprints tell the source texts of two snapshots apart. -/
def TextsApart (before after : FileTree) (old new : Analysis) : Prop :=
  ∀ source ∈ new.sources, ∀ other ∈ old.sources, ∀ text otherText,
    after.readText source.location = .ok text → before.readText other.location = .ok otherText →
      Fingerprint.ofText text = Fingerprint.ofText otherText → text = otherText

/-- Files with one path and one fingerprint are shown alike. -/
theorem shown_eq (sound : before.Sound) (alsoSound : after.Sound)
    (analyzed : ofTree config root parser before = .ok old)
    (alsoAnalyzed : ofTree config root parser after = .ok new)
    (apart : TextsApart before after old new) {file twin : AnalyzedFile} (member : file ∈ new.files)
    (twinMember : twin ∈ old.files) (path : file.source.path = twin.source.path)
    (hash : file.source.hash = twin.source.hash) : file.shown = twin.shown := by
  obtain ⟨found, files, -⟩ := files_of_ofTree analyzed
  obtain ⟨alsoFound, alsoFiles, -⟩ := files_of_ofTree alsoAnalyzed
  rw [alsoFiles] at member
  rw [files] at twinMember
  obtain ⟨source, inSources, rfl⟩ := List.mem_map.mp member
  obtain ⟨other, alsoInSources, rfl⟩ := List.mem_map.mp twinMember
  have describes := (indexOf config).describes_of_find alsoSound alsoFound inSources
  have also := (indexOf config).describes_of_find sound found alsoInSources
  obtain ⟨text, read, -, told, -⟩ := describes.text
  obtain ⟨otherText, otherRead, -, otherTold, -⟩ := also.text
  have same := apart source inSources other alsoInSources text otherText read otherRead
    (told.symm.trans (hash.trans otherTold))
  subst same
  exact shown_fileOf describes also path read otherRead

/-- What is made of files depends on what is shown of them. -/
theorem ofFiles_shown (config : Config) {files others : List AnalyzedFile}
    (same : files.map AnalyzedFile.shown = others.map AnalyzedFile.shown) :
    (ofFiles config files).graph = (ofFiles config others).graph ∧
      (ofFiles config files).usedBy = (ofFiles config others).usedBy ∧
      (ofFiles config files).projection = (ofFiles config others).projection ∧
      (ofFiles config files).pages = (ofFiles config others).pages := by
  have graphs : files.map (fun file => file.analysis.graph) = others.map fun file => file.analysis.graph := by
    have shown := congrArg (List.map fun file => file.analysis.graph) same
    rw [List.map_map, List.map_map] at shown
    exact shown
  have graph : (ofFiles config files).graph = (ofFiles config others).graph := by
    simp only [ofFiles, graphs]
  have usedBy : (ofFiles config files).usedBy = (ofFiles config others).usedBy := by
    simp only [ofFiles, graphs]
  have projection : (ofFiles config files).projection = (ofFiles config others).projection := by
    simp only [ofFiles, graphs]
  have plans : (plan config (ofFiles config files)).shown = (plan config (ofFiles config others)).shown := by
    unfold plan PagePlan.shown
    rw [usedBy, projection]
    congr 1
  refine ⟨graph, usedBy, projection, ?_⟩
  rw [ofFiles_pages, ofFiles_pages, ← PagePlan.pages_shown, plans, PagePlan.pages_shown]

/-- Snapshots with the same paths and fingerprints are analysed alike, in whatever order their files
are met. -/
theorem alike_of_hashes (sound : before.Sound) (alsoSound : after.Sound)
    (analyzed : ofTree config root parser before = .ok old)
    (alsoAnalyzed : ofTree config root parser after = .ok new)
    (apart : TextsApart before after old new)
    (paths : ∀ path, path ∈ new.files.map (fun file => file.source.path) ↔
      path ∈ old.files.map fun file => file.source.path)
    (hashes : ∀ path ∈ new.files.map (fun file => file.source.path),
      new.hashes[path]? = old.hashes[path]?) :
    new.graph = old.graph ∧ new.usedBy = old.usedBy ∧ new.projection = old.projection ∧
      new.pages = old.pages := by
  have alike : ∀ file ∈ new.files, ∀ twin ∈ old.files, file.source.path = twin.source.path →
      file.shown = twin.shown := by
    intro file member twin twinMember path
    apply shown_eq sound alsoSound analyzed alsoAnalyzed apart member twinMember path
    have same := hashes file.source.path (List.mem_map_of_mem member)
    rw [hash_of_mem_files alsoAnalyzed member, path, hash_of_mem_files analyzed twinMember] at same
    exact Option.some.inj same
  have ordered : ∀ {files : List AnalyzedFile},
      files.Pairwise (fun left right => left.source.path < right.source.path) →
        (files.map AnalyzedFile.shown).Pairwise fun left right => left.source.path < right.source.path :=
    fun ordered => List.Pairwise.map _ (fun left right less => less) ordered
  have files : new.files.map AnalyzedFile.shown = old.files.map AnalyzedFile.shown := by
    -- files come in the order of their paths, so that they are the same ones is enough
    apply Table.eq_of_same_members _ (ordered (sound_plan alsoAnalyzed).ordered)
      (ordered (sound_plan analyzed).ordered)
    · intro item
      constructor
      · intro member
        obtain ⟨file, inNew, rfl⟩ := List.mem_map.mp member
        obtain ⟨twin, inOld, path⟩ := List.mem_map.mp ((paths _).mp (List.mem_map_of_mem inNew))
        exact alike file inNew twin inOld path.symm ▸ List.mem_map_of_mem inOld
      · intro member
        obtain ⟨twin, inOld, rfl⟩ := List.mem_map.mp member
        obtain ⟨file, inNew, path⟩ := List.mem_map.mp ((paths _).mpr (List.mem_map_of_mem inOld))
        exact alike file inNew twin inOld path ▸ List.mem_map_of_mem inNew
    · intro first second less
      exact Std.not_lt.mpr (Std.le_of_lt less)
  obtain ⟨sources, -, rfl⟩ := (ofTree_eq_ok_iff ..).mp analyzed
  obtain ⟨alsoSources, -, rfl⟩ := (ofTree_eq_ok_iff ..).mp alsoAnalyzed
  exact ofFiles_shown config files

end Analysis

end SourceAtlas
