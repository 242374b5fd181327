import SourceAtlas.FileTree
import SourceAtlas.IgnoreRule
/-!
What can go wrong in a run, by cause, and the wording of each.
-/

namespace SourceAtlas

inductive TemplateFault where
  | unreadable (path : Path)
  | malformed (path : Path)
  deriving Repr, DecidableEq

inductive RenderFault where
  | noTemplate
  | unknownTemplate (name : String)
  | failed (name : String)
  | other (reason : String)
  deriving Repr, DecidableEq

def RenderFault.message : RenderFault → String
  | noTemplate => "no template named in page context"
  | unknownTemplate name => "Template '" ++ name ++ "' not found"
  | failed name => "Failed to render '" ++ name ++ "'"
  | other reason => reason

inductive LineFault where
  | rule (bad : IgnoreRule.BadLine)
  | notText
  deriving Repr, DecidableEq

def LineFault.message : LineFault → String
  | rule bad => bad.message
  | notText => IoFault.notText.message

/-- A line of an ignore file that is no rule, counted from one. -/
structure BadIgnoreLine where
  file : Path
  line : Nat
  fault : LineFault
  deriving Repr, DecidableEq

def BadIgnoreLine.message (bad : BadIgnoreLine) : String :=
  bad.file.text ++ ": line " ++ toString bad.line ++ ": " ++ bad.fault.message

/-- What a run can end with instead of an answer. -/
inductive Fault where
  | malformedSettings
  | noWorkers
  | noSourceDirs
  | badIgnorePattern (pattern : String) (bad : IgnoreRule.BadLine)
  | io (fault : IoFault)
  | badIgnoreFiles (lines : List BadIgnoreLine)
  | outsideDocs (page : String)
  | template (fault : TemplateFault)
  | render (page : String) (fault : RenderFault)
  | unsavedManifest (path : Path) (fault : IoFault)
  | stalePages (count : Nat)
  deriving Repr, DecidableEq

def Path.quoted (path : Path) : String :=
  "\"" ++ String.ofList (path.text.toList.flatMap fun c =>
    if c = '"' ∨ c = '\\' then ['\\', c] else [c]) ++ "\""

def TemplateFault.message : TemplateFault → String
  | unreadable path => "Failed to read template '" ++ path.quoted ++ "'"
  | malformed path => "Failed to parse " ++ path.quoted

def Fault.message : Fault → String
  | malformedSettings => "Configuration error: malformed settings"
  | noWorkers => "Configuration error: generation.max_concurrency must be at least 1"
  | noSourceDirs => "Configuration error: project.source_dirs must name at least one directory"
  | badIgnorePattern pattern bad =>
      "Configuration error: Bad ignore pattern " ++ pattern ++ ": " ++ bad.message
  | io fault => "IO error: " ++ fault.message
  | badIgnoreFiles lines =>
      "File system error: " ++ String.intercalate "\n" (lines.map BadIgnoreLine.message)
  | outsideDocs page =>
      "File system error: Page path " ++ page ++ " escapes the docs directory"
  | template fault => "Template error: " ++ fault.message
  | render page fault => "Page generation failed for " ++ page ++ ": " ++ fault.message
  | unsavedManifest path fault =>
      "Failed to persist build manifest to " ++ path.text ++ ": " ++ fault.message
  | stalePages count => toString count ++ " page(s) are out of date"

end SourceAtlas
