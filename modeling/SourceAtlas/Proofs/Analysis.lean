import SourceAtlas.Project
import SourceAtlas.Proofs.Extraction
import SourceAtlas.Proofs.PagePlan
import SourceAtlas.Proofs.SourceIndex
import SourceAtlas.Proofs.Table
/-!
The analysis of a project: its sources are the ones that the index finds, and the pages planned for
them have plain paths, no two of them the same.
-/

namespace SourceAtlas

theorem FileHashes.ofSources_getElem? {sources : List SourceFile}
    (distinct : (sources.map SourceFile.path).Nodup) {source : SourceFile} (member : source ∈ sources) :
    (FileHashes.ofSources sources)[source.path]? = some source.hash := by
  refine Table.getElem?_fill SourceFile.path SourceFile.hash member ?_
  intro other inSources same
  rw [Table.eq_of_key_eq distinct inSources member same]

namespace Analysis

def indexOf (config : Config) : SourceIndex where
  languages := LanguageSet.ofTags config.parsing.languages
  maxFileSize := config.parsing.maxFileSize
  ignorePatterns := config.project.ignorePatterns

def noiseOf (config : Config) : NoiseWords :=
  (NoiseWords.ofLanguages (LanguageSet.ofTags config.parsing.languages)).withSettings config.noise

def fileOf (config : Config) (parser : Parser) (tree : FileTree) (source : SourceFile) :
    AnalyzedFile where
  source
  analysis := ((ParsedFile.read? (indexOf config).languages config.parsing.maxFileSize parser tree
    source.location).map fun file => file.analyze (noiseOf config)).getD {}

theorem ofTree_eq_ok_iff (config : Config) (root : Path) (parser : Parser) (tree : FileTree)
    (analysis : Analysis) :
    ofTree config root parser tree = .ok analysis ↔
      ∃ sources, (indexOf config).find tree root config.project.sourceDirs = .ok sources ∧
        analysis = ofFiles config (sources.map (fileOf config parser tree)) := by
  have unfolded : ofTree config root parser tree =
      ((indexOf config).find tree root config.project.sourceDirs >>= fun sources =>
        .ok (ofFiles config (sources.map (fileOf config parser tree)))) := rfl
  rw [unfolded]
  cases found : (indexOf config).find tree root config.project.sourceDirs with
  | error fault => simp [bind, Except.bind]
  | ok sources => simp [bind, Except.bind, eq_comm]

def plan (config : Config) (analysis : Analysis) : PagePlan where
  project := config.project.name
  files := analysis.files
  usedBy := analysis.usedBy
  projection := analysis.projection

theorem ofFiles_pages (config : Config) (files : List AnalyzedFile) :
    (ofFiles config files).pages = (plan config (ofFiles config files)).pages := rfl

section Found

variable {config : Config} {root : Path} {parser : Parser} {tree : FileTree} {analysis : Analysis}

theorem files_of_ofTree (analyzed : ofTree config root parser tree = .ok analysis) :
    (indexOf config).find tree root config.project.sourceDirs = .ok analysis.sources ∧
      analysis.files = analysis.sources.map (fileOf config parser tree) ∧
      analysis.pages = (plan config analysis).pages := by
  obtain ⟨sources, found, rfl⟩ := (ofTree_eq_ok_iff ..).mp analyzed
  have same : (ofFiles config (sources.map (fileOf config parser tree))).sources = sources := by
    simp [ofFiles, Function.comp_def, fileOf]
  refine ⟨by rw [same, found], by rw [same]; rfl, rfl⟩

/-- The sources of a project that is no file have plain paths. -/
theorem isPlain_of_mem_sources (sound : tree.Sound)
    (rooted : ∀ content, tree.find? root.place ≠ some (.file content))
    (analyzed : ofTree config root parser tree = .ok analysis) {source : SourceFile}
    (member : source ∈ analysis.sources) : IsPlain source.path :=
  ((indexOf config).describes_of_find sound (files_of_ofTree analyzed).1 member).isPlain rooted

theorem paths_nodup (analyzed : ofTree config root parser tree = .ok analysis) :
    (analysis.sources.map SourceFile.path).Nodup :=
  (indexOf config).paths_nodup_of_find (files_of_ofTree analyzed).1

theorem hash_of_mem_sources (analyzed : ofTree config root parser tree = .ok analysis)
    {source : SourceFile} (member : source ∈ analysis.sources) :
    analysis.hashes[source.path]? = some source.hash :=
  FileHashes.ofSources_getElem? (paths_nodup analyzed) member

/-- Every file that a planned page is made from has a fingerprint. -/
theorem hash_of_mem_pages (analyzed : ofTree config root parser tree = .ok analysis)
    {request : PageRequest} (member : request ∈ analysis.pages) {path : String}
    (listed : path ∈ request.sources) : ∃ hash, analysis.hashes[path]? = some hash := by
  obtain ⟨-, files, pages⟩ := files_of_ofTree analyzed
  rw [pages] at member
  obtain ⟨file, inPlan, rfl⟩ := (plan config analysis).file_of_mem_sources member listed
  have inFiles : file ∈ analysis.files := inPlan
  rw [files] at inFiles
  obtain ⟨source, inSources, rfl⟩ := List.mem_map.mp inFiles
  exact ⟨source.hash, hash_of_mem_sources analyzed inSources⟩

/-- The lines that a page documents are lines of a file. -/
theorem lines_of_mem_pages (analyzed : ofTree config root parser tree = .ok analysis)
    {request : PageRequest} (member : request ∈ analysis.pages) {lines : LineInfo}
    (given : request.lines = some lines) {path : String} {range : LineRange}
    (entry : lines[path]? = some range) :
    ∃ place content, tree.find? place = some (.file content) ∧
      range.first ≤ content.size + 1 ∧ range.last ≤ content.size + 1 := by
  obtain ⟨-, files, pages⟩ := files_of_ofTree analyzed
  rw [pages] at member
  obtain ⟨file, inPlan, first, last, span, rfl⟩ := (plan config analysis).span_of_mem_pages member given
  have inFiles : file ∈ analysis.files := inPlan
  rw [files] at inFiles
  obtain ⟨source, -, rfl⟩ := List.mem_map.mp inFiles
  have same : range = ⟨first, last⟩ := by
    rw [Std.ExtTreeMap.getElem?_insert] at entry
    split at entry
    · exact (Option.some.inj entry).symm
    · simp at entry
  rw [same]
  cases read : ParsedFile.read? (indexOf config).languages config.parsing.maxFileSize parser tree
      source.location with
  | none =>
      simp only [fileOf, read] at span
      cases span
  | some file =>
      simp only [fileOf, read] at span
      obtain ⟨text, present, upper, lower⟩ := ParsedFile.lineSpan?_le read span
      exact ⟨_, _, ((FileTree.readText_eq_ok_iff tree _ text).mp present).2, upper, lower⟩

theorem pages_nodup (analyzed : ofTree config root parser tree = .ok analysis) :
    (analysis.pages.map PageRequest.path).Nodup := by
  obtain ⟨found, files, pages⟩ := files_of_ofTree analyzed
  rw [pages]
  apply PagePlan.pages_nodup
  have paths : ((plan config analysis).files.map fun file => file.source.path) =
      analysis.sources.map SourceFile.path := by
    show (analysis.files.map fun file => file.source.path) = _
    rw [files]
    simp [fileOf, Function.comp_def]
  rw [paths]
  exact paths_nodup analyzed

theorem page_cases (analyzed : ofTree config root parser tree = .ok analysis) {request : PageRequest}
    (member : request ∈ analysis.pages) :
    request.path = Page.overview ∨
      ∃ source ∈ analysis.sources, request.path = Page.ofSource source.path := by
  obtain ⟨-, files, pages⟩ := files_of_ofTree analyzed
  rw [pages] at member
  rcases (plan config analysis).path_of_mem_pages member with same | ⟨file, inFiles, same⟩
  · exact Or.inl same
  · have inFiles : file ∈ analysis.files := inFiles
    rw [files] at inFiles
    obtain ⟨source, inSources, rfl⟩ := List.mem_map.mp inFiles
    exact Or.inr ⟨source, inSources, same⟩

theorem exists_mem_pages (analyzed : ofTree config root parser tree = .ok analysis) :
    ∃ request, request ∈ analysis.pages := by
  rw [(files_of_ofTree analyzed).2.2]
  exact ⟨_, List.mem_append_right _ (List.mem_singleton_self _)⟩

theorem isPlain_of_mem_pages (sound : tree.Sound)
    (rooted : ∀ content, tree.find? root.place ≠ some (.file content))
    (analyzed : ofTree config root parser tree = .ok analysis) {request : PageRequest}
    (member : request ∈ analysis.pages) : IsPlain request.path := by
  rcases page_cases analyzed member with same | ⟨source, inSources, same⟩
  · rw [same]
    exact Page.overview_isPlain
  · rw [same]
    exact Page.ofSource_isPlain (isPlain_of_mem_sources sound rooted analyzed inSources)

end Found

end Analysis

end SourceAtlas
