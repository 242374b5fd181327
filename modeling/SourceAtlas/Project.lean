import SourceAtlas.Config
import SourceAtlas.GraphDocument
import SourceAtlas.Manifest.Stored
import SourceAtlas.PagePlan
import SourceAtlas.ParsedFile
import SourceAtlas.Pass
/-!
A project and the runs over it. A run analyses the sources, makes the pages that are stale, removes
the pages that are no longer planned, and keeps a manifest for the run after it.
-/

namespace SourceAtlas

/-- What the sources of a project amount to; nothing is written to find it out. -/
structure Analysis where
  sources : List SourceFile
  files : List AnalyzedFile
  graph : CallGraph
  usedBy : UsedBy
  projection : Projection
  pages : List PageRequest

/-- A project: its settings, the directory that they are seen from, and what parses sources and makes
pages. -/
structure Project where
  config : Config
  root : Path
  parser : Parser
  generator : PageGenerator

namespace Analysis

def hashes (analysis : Analysis) : FileHashes := .ofSources analysis.sources

def ofFiles (config : Config) (files : List AnalyzedFile) : Analysis :=
  let graphs := files.map fun file => file.analysis.graph
  let graph := graphs.foldl CallGraph.merge {}
  let usedBy := UsedBy.ofGraphs graphs
  let projection := graph.project config.graph.maxNodes config.graph.labelBudget
  { sources := files.map AnalyzedFile.source
    files
    graph
    usedBy
    projection
    pages := PagePlan.pages { project := config.project.name, files, usedBy, projection } }

def ofTree (config : Config) (root : Path) (parser : Parser) (tree : FileTree) :
    Except Fault Analysis := do
  let languages := LanguageSet.ofTags config.parsing.languages
  let limit := config.parsing.maxFileSize
  let noise := (NoiseWords.ofLanguages languages).withSettings config.noise
  let index : SourceIndex :=
    { languages, maxFileSize := limit, ignorePatterns := config.project.ignorePatterns }
  let sources ← index.find tree root config.project.sourceDirs
  return ofFiles config (sources.map fun source =>
    let file := ParsedFile.read? languages limit parser tree source.location
    { source, analysis := (file.map fun file => file.analyze noise).getD {} })

end Analysis

namespace Project

variable (project : Project)

def withTemplates (config : Config) (root : Path) (parser : Parser) (tree : FileTree) :
    Except Fault Project := do
  let templates ← PageTemplates.load tree (config.generation.templateDir.map root.join)
  return { config, root, parser, generator := templates.generate }

def docsDir : Path := project.root.join project.config.project.docsDir

def docs : Docs := ⟨project.docsDir⟩

def manifestPath : Path := project.root.join project.config.manifestPath

def graphPath : Path := project.docsDir.join ⟨"call_graph.json"⟩

def analyze (tree : FileTree) : Except Fault Analysis :=
  Analysis.ofTree project.config project.root project.parser tree

def previous (tree : FileTree) : Option Manifest := Manifest.load? tree project.manifestPath

def status (tree : FileTree) : Except Fault (Std.ExtTreeMap String Staleness) := do
  let analysis ← project.analyze tree
  return Staleness.plan analysis.pages (project.previous tree) analysis.hashes

/-- Pages that were made once and are not planned any more: those of the manifest, and those on disk
below the directory of file pages. -/
def orphans (tree : FileTree) (previous : Option Manifest) (planned : List String) : List String :=
  let known := (previous.map Std.ExtTreeMap.keys).getD []
  (((known ++ project.docs.pagesBelow tree Page.filesDir).filter fun page =>
    !planned.contains page).eraseDups).mergeSort (· ≤ ·)

/-- Pages that a run did not reach keep their status. -/
def carrySkipped (previous : Option Manifest) (skipped : List String) (recorder : Recorder) : Recorder :=
  skipped.foldl (fun recorder page =>
    match previous.bind fun manifest => manifest[page]? with
    | some status => recorder.carry page status
    | none => recorder) recorder

/-- Deletes pages; one that cannot be deleted stays. -/
def removeAll (tree : FileTree) (pages : List String) : FileTree :=
  pages.foldl (fun tree page => ((project.docs.remove page).run.run tree).2) tree

def graphText (analysis : Analysis) (references : CrossReferences) : String :=
  (Json.obj [("graph", analysis.graph.toJson), ("projection", analysis.projection.toJson),
    ("cross_references", references.toJson)]).toPretty

/-- A run that goes by the given manifest. -/
def run (previous : Option Manifest) (cancelled : Bool) (schedule : Schedule) : Work RunReport := do
  let tree ← get
  let analysis ← project.analyze tree
  let pass : Pass := { schedule with docs := project.docs, generator := project.generator }
  let (report, after) := pass.run analysis.pages previous cancelled
    { tree, recorder := { hashes := analysis.hashes } }
  let recorder := carrySkipped previous report.skipped after.recorder
  let planned := analysis.pages.map PageRequest.path
  set (project.removeAll after.tree (project.orphans after.tree previous planned))
  recorder.manifest.save project.manifestPath
  (Disk.writeAtomic project.graphPath (graphText analysis after.references).toUTF8).adapt Fault.io
  return report

/-- Makes the pages that are stale, or with `force` all of them. -/
def generate (force cancelled : Bool) (schedule : Schedule) : Work RunReport := do
  let tree ← get
  project.run (if force then none else project.previous tree) cancelled schedule

/-- Makes the pages that are stale, or with `dryRun` only says which are. With `failOnChanges` it is
a fault if there are any. -/
def sync (dryRun failOnChanges cancelled : Bool) (schedule : Schedule) : Work RunReport := do
  let tree ← get
  let report ←
    if dryRun then do
      let decisions ← project.status tree
      pure { decisions }
    else project.run (project.previous tree) cancelled schedule
  if failOnChanges && 0 < report.staleCount then throw (.stalePages report.staleCount)
  else return report

end Project

end SourceAtlas
