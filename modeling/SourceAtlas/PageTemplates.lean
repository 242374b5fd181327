import SourceAtlas.Fault
import SourceAtlas.Page
import SourceAtlas.Template.Reader
/-!
The templates of the pages: one for file pages, one for the overview. A project may have its own in
place of either.
-/

namespace SourceAtlas

/-- A page's text, or why there is none. -/
abbrev PageGenerator := PageRequest → Except Fault String

structure PageTemplates where
  file : Template
  overview : Template

namespace PageTemplates

def value (name : String) : TemplatePart := .value { name }

def fieldOf (name field : String) : TemplatePart := .value { name, steps := [field] }

def fileHead : Template :=
  [.text "# ", value "path", .text "\n\n", value "language", .text " source, ",
    value "line_count", .text " lines.\n"]

def callerItem : Template :=
  [.text "\n- ",
    .choose (.filled { name := "caller", steps := ["link"] })
      [.text "[`", fieldOf "caller" "name", .text "`](", fieldOf "caller" "link", .text ")"]
      [.text "`", fieldOf "caller" "name", .text "`"]]

def entitySection : Template :=
  [.text "\n## ", fieldOf "entity" "name", .text "\n\n*", fieldOf "entity" "kind",
    .text "*, lines ", fieldOf "entity" "start_line", .text "-", fieldOf "entity" "end_line",
    .text "\n",
    .choose (.hasItems { name := "entity", steps := ["calls"] })
      [.text "\nCalls:\n",
        .repeatFor "call" { name := "entity", steps := ["calls"] }
          [.text "\n- `", value "call", .text "`"],
        .text "\n"] [],
    .choose (.hasItems { name := "entity", steps := ["used_by"] })
      [.text "\nUsed by:\n",
        .repeatFor "caller" { name := "entity", steps := ["used_by"] } callerItem,
        .text "\n"] []]

def builtinFile : Template :=
  fileHead ++ [.repeatFor "entity" { name := "entities" } entitySection,
    .text "\n[Back to overview](", value "overview_link", .text ")\n"]

/-- The diagram, with a note on the names that it leaves out. -/
def diagramPart : Template :=
  [.choose (.filled { name := "diagram" })
    [.text "\n```mermaid\n", value "diagram", .text "\n```\n",
      .choose (.isPositive { name := "omitted_nodes" })
        [.text "\n", value "omitted_nodes", .text " less connected functions are not shown.\n"] []]
    [.text "\nNo calls between documented functions were found.\n"]]

def fileItem : Template :=
  [.text "\n- ",
    .choose (.filled { name := "file", steps := ["link"] })
      [.text "[", fieldOf "file" "path", .text "](", fieldOf "file" "link", .text ")"]
      [fieldOf "file" "path"],
    .text " (", fieldOf "file" "language", .text ", ", fieldOf "file" "entity_count",
    .text " entities)"]

def overviewHead : Template :=
  [.text "# ", value "project", .text "\n\n", value "file_count", .text " source files, ",
    value "entity_count", .text " documented entities.\n\n## Call graph\n"]

def builtinOverview : Template :=
  overviewHead ++ diagramPart ++ [.text "\n## Files\n", .repeatFor "file" { name := "files" } fileItem,
    .text "\n"]

def builtin : PageTemplates where
  file := builtinFile
  overview := builtinOverview

def fileName : String := "file.md"

def overviewName : String := "overview.md"

def find? (templates : PageTemplates) (name : String) : Option Template :=
  if name = fileName then some templates.file
  else if name = overviewName then some templates.overview
  else none

/-- A project's template of a name, or the given one when there is no such file. -/
def loadOne (tree : FileTree) (dir : Path) (name : String) (given : Template) :
    Except Fault Template :=
  let path := dir.join ⟨name⟩
  if tree.isFile path then
    match tree.readText path with
    | .error _ => .error (.template (.unreadable path))
    | .ok text =>
        match Template.read? text with
        | some template => .ok template
        | none => .error (.template (.malformed path))
  else .ok given

/-- The builtin templates with those of a directory in their place. -/
def load (tree : FileTree) : Option Path → Except Fault PageTemplates
  | none => .ok builtin
  | some dir => do
      let file ← loadOne tree dir fileName builtin.file
      let overview ← loadOne tree dir overviewName builtin.overview
      return { file, overview }

/-- Renders a page with the template that its context names. -/
def generate (templates : PageTemplates) : PageGenerator := fun request =>
  match request.context, (request.context.field? "template").bind Json.text? with
  | .obj fields, some name =>
      match templates.find? name with
      | none => .error (.render request.path (.unknownTemplate name))
      | some template =>
          match template.render? fields with
          | some text => .ok text
          | none => .error (.render request.path (.failed name))
  | _, _ => .error (.render request.path .noTemplate)

end PageTemplates

end SourceAtlas
