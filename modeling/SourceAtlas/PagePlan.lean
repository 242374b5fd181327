import SourceAtlas.Diagram
import SourceAtlas.Extraction
import SourceAtlas.Page
import SourceAtlas.SourceIndex
/-!
Which pages a project has and what each of them shows: a page for every file that defines something,
and the overview.
-/

namespace SourceAtlas

structure AnalyzedFile where
  source : SourceFile
  analysis : FileAnalysis

/-- A caller of an entity, with a link to the page that documents it. -/
structure CallerView where
  name : String
  link : Option String
  deriving Repr, DecidableEq

/-- An entity as its page shows it. -/
structure EntityView where
  entity : Entity
  calls : List String
  usedBy : List CallerView
  deriving Repr, DecidableEq

structure PagePlan where
  project : String
  files : List AnalyzedFile
  usedBy : UsedBy
  projection : Projection

def optionalText : Option String → Json
  | some text => .str text
  | none => .null

def CallerView.toJson (view : CallerView) : Json :=
  .obj [("name", .str view.name), ("link", optionalText view.link)]

def EntityView.toJson (view : EntityView) : Json :=
  .obj [("name", .str view.entity.name), ("kind", .str view.entity.kind.text),
    ("start_line", .natural view.entity.startLine), ("end_line", .natural view.entity.endLine),
    ("calls", .texts view.calls), ("used_by", .arr (view.usedBy.map CallerView.toJson))]

namespace PagePlan

variable (plan : PagePlan)

/-- The file that documents an entity: the first that defines one of its name. -/
def owner? (name : String) : Option String :=
  (plan.files.find? fun file => file.analysis.entities.any fun entity => entity.name == name).map
    fun file => file.source.path

def memberName? (name : String) : Option String :=
  (splitAtLast '.' name.toList).map fun split => String.ofList split.2

/-- The callers of a name and of the member that it ends in. -/
def callersOf (name : String) : List String :=
  let callers := plan.usedBy.callersOf name
  match memberName? name with
  | none => callers
  | some member => callers ++ (plan.usedBy.callersOf member).filter fun caller => !callers.contains caller

def callerView (page caller : String) : CallerView where
  name := caller
  link := (plan.owner? caller).map fun owner => Page.link page (Page.ofSource owner)

def entityView (page : String) (graph : CallGraph) (entity : Entity) : EntityView where
  entity
  calls := (graph.callees? entity.name).getD []
  usedBy := (plan.callersOf entity.name).map (plan.callerView page)

def entityViews (file : AnalyzedFile) : List EntityView :=
  file.analysis.entities.map
    (plan.entityView (Page.ofSource file.source.path) file.analysis.graph)

/-- The files whose content a file's page shows: its own, and those of its entities' callers. -/
def contributors (file : AnalyzedFile) : List String :=
  let owners := file.analysis.entities.flatMap fun entity =>
    (plan.callersOf entity.name).filterMap plan.owner?
  ((file.source.path :: owners).eraseDups).mergeSort (· ≤ ·)

def filePage (file : AnalyzedFile) : PageRequest :=
  let path := Page.ofSource file.source.path
  { path
    sources := plan.contributors file
    lines := file.analysis.lineSpan?.map fun (first, last) =>
      (∅ : LineInfo).insert file.source.path ⟨first, last⟩
    entities := file.analysis.entities.map Entity.name
    context := .obj [("template", .str "file.md"), ("project", .str plan.project),
      ("path", .str file.source.path), ("language", .str file.source.language),
      ("line_count", .natural file.source.lineCount),
      ("overview_link", .str (Page.link path Page.overview)),
      ("entities", .arr ((plan.entityViews file).map EntityView.toJson))] }

/-- The overview's line for a file; a file that defines nothing has no page to link to. -/
def fileSummary (file : AnalyzedFile) : Json :=
  let link :=
    if file.analysis.entities.isEmpty then none else some (Page.ofSource file.source.path)
  .obj [("path", .str file.source.path), ("language", .str file.source.language),
    ("entity_count", .natural file.analysis.entities.length), ("link", optionalText link)]

def overviewPage : PageRequest :=
  let diagram := plan.projection.diagram?
  { path := Page.overview
    sources := plan.files.map fun file => file.source.path
    lines := none
    entities := []
    context := .obj [("template", .str "overview.md"), ("project", .str plan.project),
      ("file_count", .natural plan.files.length),
      ("entity_count",
        .natural (plan.files.flatMap fun file => file.analysis.entities).length),
      ("diagram", optionalText (diagram.map Diagram.mermaid)),
      ("omitted_nodes", .natural ((diagram.map Diagram.omitted).getD 0)),
      ("files", .arr (plan.files.map fileSummary))] }

/-- The pages of a project: a page for each file that defines something, then the overview. -/
def pages : List PageRequest :=
  (plan.files.filter fun file => !file.analysis.entities.isEmpty).map plan.filePage ++
    [plan.overviewPage]

end PagePlan

end SourceAtlas
