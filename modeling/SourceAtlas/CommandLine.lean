import SourceAtlas.CommandLine.Help
import SourceAtlas.Config.Stored
import SourceAtlas.Project
/-!
The command line: what a list of arguments does to the files, and what is printed.
-/

namespace SourceAtlas

structure Outcome where
  exitCode : Nat
  output : List String := []
  errors : List String := []
  deriving Repr, DecidableEq

structure Surroundings where
  root : Path
  parser : Parser
  cancelled : Bool
  schedule : Schedule

namespace RunReport

/-- A report whose run touched no page tells which pages a run would make. -/
def predictions (report : RunReport) : List String :=
  if report.regenerated.isEmpty && report.reused.isEmpty then
    (report.decisions.toList.filter fun entry => entry.2.isStale).map fun entry =>
      "would regenerate " ++ entry.1
  else []

def lines (report : RunReport) : List String :=
  report.predictions ++
    (report.regenerated.map fun page => "regenerated " ++ page) ++
    (report.failed.map fun (page, reason) => "failed      " ++ page ++ " (" ++ reason ++ ")") ++
    (report.skipped.map fun page => "skipped     " ++ page)

end RunReport

/-- The lines that tell of decisions, one for each page and one on all of them. -/
def Staleness.lines (decisions : Std.ExtTreeMap String Staleness) : List String :=
  (decisions.toList.map fun (page, decision) =>
    inColumn 60 page ++ " " ++ decision.toJson.toCompact) ++
    [toString (decisions.values.filter isStale).length ++ " of " ++ toString decisions.size ++
      " pages need regeneration"]

namespace Command

def settings (config : Config) : Command → Config
  | generate source output _ =>
      { config with
        project.sourceDirs := match source with
          | some source => [source]
          | none => config.project.sourceDirs
        project.docsDir := output.getD config.project.docsDir }
  | _ => config

def run (project : Project) (cancelled : Bool) (schedule : Schedule) : Command → Work (List String)
  | generate _ _ force => return (← project.generate force cancelled schedule).lines
  | sync dryRun failOnChanges => return (← project.sync dryRun failOnChanges cancelled schedule).lines
  | status => do
      let tree ← get
      return Staleness.lines (← project.status tree)

end Command

namespace Outcome

def ofFault (fault : Fault) : Outcome :=
  { exitCode := 1, errors := ["Error: " ++ fault.message] }

/-- Settings that cannot be used are told apart from what goes wrong with them. -/
def ofSettingsFault (fault : Fault) : Outcome :=
  { exitCode := 1
    errors := ["Error: Failed to load configuration", "", "Caused by:", "    " ++ fault.message] }

def ofMisuse : Outcome :=
  { exitCode := 2
    errors := ["error: unexpected or missing arguments", "", "For more information, try '--help'."] }

end Outcome

namespace Invocation

/-- The project that a command is carried out on. -/
def project (invocation : Invocation) (surroundings : Surroundings) (config : Config)
    (tree : FileTree) : Except Fault Project :=
  Project.withTemplates (invocation.command.settings config) surroundings.root surroundings.parser tree

def run (invocation : Invocation) (surroundings : Surroundings) : StateM FileTree Outcome := do
  let tree ← get
  match Config.loadOrDefault tree surroundings.root invocation.config with
  | .error fault => return .ofSettingsFault fault
  | .ok config =>
      match invocation.project surroundings config tree with
      | .error fault => return .ofFault fault
      | .ok project =>
          match ← (invocation.command.run project surroundings.cancelled surroundings.schedule).run with
          | .error fault => return .ofFault fault
          | .ok output => return { exitCode := 0, output }

end Invocation

/-- What comes of a list of arguments. -/
def Request.run (surroundings : Surroundings) : Request → StateM FileTree Outcome
  | invoke invocation => invocation.run surroundings
  | help topic => return { exitCode := 0, output := topic.lines }
  | version => return { exitCode := 0, output := [programName ++ " " ++ programVersion] }
  | misuse => return .ofMisuse

end SourceAtlas
